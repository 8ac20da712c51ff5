import Relief.Picture.Deflate
import Relief.Picture.Lzw
import Relief.Picture.Tiff.Layout

/-!
# Tagged files

* `expand?`: the bytes of a strip or a tile, however they are compressed;
* `Layout.samples?`: the samples of all pixels;
* `decode?`: the image in a file.
-/

namespace Relief.Picture.Tiff

/-! ## 1. Bytes of a piece -/

/-- The bytes that packets stand for, from a place on, after those that are there already. A byte
    up to 127 comes before as many bytes as it says, and one more; one from 129 on before a byte that
    comes as often as it is below 257. -/
def unpackAfter? (bytes : ByteArray) (wanted : Nat) :
    (fuel start : Nat) → ByteArray → Option ByteArray
  | 0, _, _ => none
  | fuel + 1, start, done =>
    if wanted ≤ done.size then some done
    else if h : start < bytes.size then
      let head := bytes[start].toNat
      if head < 128 then
        unpackAfter? bytes wanted fuel (start + 2 + head)
          (done ++ bytes.extract (start + 1) (start + 2 + head))
      else if head = 128 then unpackAfter? bytes wanted fuel (start + 1) done
      else if start + 1 < bytes.size then
        let run := (List.replicate (257 - head) (byteAt bytes (start + 1))).toArray
        unpackAfter? bytes wanted fuel (start + 2) (done ++ ⟨run⟩)
      else none
    else none

/-- The first so many bytes of a piece. What is not compressed, or with prefix codes, may go on behind
    its end. -/
def expand? (c : Compression) (bytes : ByteArray) (p : Piece) (wanted : Nat) : Option ByteArray :=
  let packed := bytes.extract p.start (p.start + p.length)
  match c with
  | .none => slice? bytes p.start wanted
  | .dictionary => Lzw.expand? ⟨.highFirst, 8, true⟩ wanted packed
  | .deflated => Deflate.unwrapFirst? wanted (bytes.extract p.start bytes.size)
  | .packets =>
    (unpackAfter? packed wanted (packed.size + 1) 0 .empty).bind fun out => slice? out 0 wanted

/-! ## 2. Samples -/

/-- The samples of a row at a place. -/
def rowSamples (o : ByteOrder) (l : Layout) (bytes : ByteArray) (start width : Nat) : Array Nat :=
  let length := l.bits / 8
  let samples := Array.ofFn fun i : Fin (width * l.colouring.samples) =>
    if l.bits < 8 then
      let bit := l.bits * i.val
      (byteAt bytes (start + bit / 8)).toNat / 2 ^ (8 - l.bits - bit % 8) % 2 ^ l.bits
    else o.number bytes (start + length * i.val) length
  if l.isDifference then
    samples.foldl (fun done v =>
      let before := if done.size < l.colouring.samples then 0
        else done[done.size - l.colouring.samples]?.getD 0
      done.push ((before + v) % 2 ^ l.bits)) #[]
  else samples

/-- The columns of the image that a piece has, from the first on. -/
def Layout.columnsOf (l : Layout) (piece : Nat) : Nat × Nat :=
  let left := piece % l.across * l.columns
  (left, min l.columns (l.extent.width.toNat - left))

/-- The rows of the image that a piece has, from the first on. -/
def Layout.rowsOf (l : Layout) (piece : Nat) : Nat × Nat :=
  let top := piece / l.across * l.rows
  (top, min l.rows (l.extent.height.toNat - top))

/-- Puts the samples of a piece in their places. -/
def Layout.place? (l : Layout) (s : Source) (samples : Array Nat) (i : Nat) : Option (Array Nat) :=
  let (left, width) := l.columnsOf i
  let (top, height) := l.rowsOf i
  let stride := l.rowBytes l.columns
  let wanted := stride * (height - 1) + l.rowBytes width
  l.pieces[i]?.bind fun p =>
    (expand? l.compression s.bytes p wanted).map fun bytes =>
      (List.range height).foldl (fun samples y =>
        let row := rowSamples s.order l bytes (stride * y) width
        let start := ((top + y) * l.extent.width.toNat + left) * l.colouring.samples
        row.zipIdx.foldl (fun samples (v, k) => samples.setIfInBounds (start + k) v) samples) samples

/-- The samples of all pixels, row by row. -/
def Layout.samples? (l : Layout) (s : Source) : Option (Array Nat) :=
  (List.range l.pieces.size).foldlM (l.place? s)
    (Array.replicate (l.extent.area * l.colouring.samples) 0)

/-! ## 3. Pixels -/

/-- A number of single precision in eight bits: the nearest multiple of `1/255` between zero and
    one, where what is not a number is one. -/
def levelOfSingle (x : Float32) : UInt8 :=
  let held := if x < 1 then (if x < 0 then 0 else x) else 1
  (Float32.round (held * 255)).toUInt8

/-- A sample in eight bits. -/
def level (bits v : Nat) : UInt8 :=
  match bits with
  | 1 => if v = 1 then 255 else 0
  | 8 => v.toUInt8
  | 16 => levelOfWord v
  | _ => levelOfSingle (Float32.ofBits v.toUInt32)

/-- How much light an ink and black ink leave, in samples of so many bits. -/
def lightLeft (bits ink black : Nat) : Nat :=
  let full : Float32 := (2 ^ bits - 1).toUInt32.toFloat32
  let left := 1 - black.toUInt32.toFloat32 / full
  ((full - ink.toUInt32.toFloat32) * left).toUInt16.toNat

/-- The image of samples. -/
def Layout.image (l : Layout) (samples : Array Nat) : Image :=
  let count := l.colouring.samples
  Image.tabulate l.extent fun x y =>
    let sample (k : Nat) : Nat := samples[(y * l.extent.width.toNat + x) * count + k]?.getD 0
    let level (v : Nat) : UInt8 := level l.bits v
    match l.colouring with
    | .grey => .grey (level (sample 0))
    | .inverseGrey => .grey (level (2 ^ l.bits - 1 - sample 0))
    | .rgb => ⟨level (sample 0), level (sample 1), level (sample 2), 255⟩
    | .rgba => ⟨level (sample 0), level (sample 1), level (sample 2), level (sample 3)⟩
    | .inks =>
      let left (k : Nat) : UInt8 := level (lightLeft l.bits (sample k) (sample 3))
      ⟨left 0, left 1, left 2, 255⟩

/-- The image in a file. -/
def decode? (bytes : ByteArray) : Option Image :=
  (Directory.read? bytes).bind fun d =>
    (Layout.ofDirectory? d).bind fun l =>
      if isAllowed l.extent (l.colouring.pixelBytes l.bits) then
        (l.samples? d.source).map l.image
      else none

end Relief.Picture.Tiff
