import Relief.Picture.Channels
import Relief.Picture.Deflate

/-!
# Image files

An image file is a row of chunks: a header, the colours of a palette if there is one, the pixels,
and an end. The pixels are filtered row by row and compressed as a whole; they may come in seven
passes of growing detail.

* `chunks?`: the chunks of a file;
* `Header.image?`: the image of a file's pixels, whatever their colours and depth;
* `decode?`, `encode`: images from files and back.
-/

namespace Relief.Picture.Png

/-! ## 1. Chunks -/

/-- The number that four bytes write, the highest first. -/
def word? (bytes : ByteArray) (start : Nat) : Option Nat :=
  ByteOrder.highFirst.number? bytes start 4

/-- The bytes that every file begins with. -/
def signature : List UInt8 :=
  [0x89, 0x50, 0x4E, 0x47, 0x0D, 0x0A, 0x1A, 0x0A]

/-- A part of a file. -/
structure Chunk where
  name : String
  data : ByteArray

/-- The chunks from a place on, to the end chunk. -/
def chunksFrom? (bytes : ByteArray) : (fuel start : Nat) → Option (List Chunk)
  | 0, _ => none
  | fuel + 1, start =>
    (word? bytes start).bind fun length =>
      let behind := start + 8 + length
      (word? bytes behind).bind fun checksum =>
        if (Crc32.of (bytes.extract (start + 4) behind)).toNat ≠ checksum then none
        else
          (String.fromUTF8? (bytes.extract (start + 4) (start + 8))).bind fun name =>
            let chunk : Chunk := ⟨name, bytes.extract (start + 8) behind⟩
            if name = "IEND" then some [chunk]
            else (chunksFrom? bytes fuel (behind + 4)).map (chunk :: ·)

/-- The chunks of a file. -/
def chunks? (bytes : ByteArray) : Option (List Chunk) :=
  if (bytes.extract 0 8).data.toList = signature then chunksFrom? bytes bytes.size 8 else none

/-- The bytes of a chunk, with its checksum. -/
def Chunk.bytes (c : Chunk) : ByteArray :=
  let body := c.name.toUTF8 ++ c.data
  ⟨(bigEndian c.data.size.toUInt32).toArray⟩ ++ body ++ ⟨(bigEndian (Crc32.of body)).toArray⟩

/-! ## 2. Headers -/

/-- What the samples of a pixel mean. -/
inductive Colouring where
  | grey
  | rgb
  | palette
  | greyAlpha
  | rgba
  deriving DecidableEq, Repr

/-- How many samples a pixel has. -/
def Colouring.samples : Colouring → Nat
  | grey | palette => 1
  | greyAlpha => 2
  | rgb => 3
  | rgba => 4

/-- A colouring, by its number and the depth of its samples. -/
def colouring? (number depth : Nat) : Option Colouring :=
  match number, depth with
  | 0, 1 | 0, 2 | 0, 4 | 0, 8 | 0, 16 => some .grey
  | 2, 8 | 2, 16 => some .rgb
  | 3, 1 | 3, 2 | 3, 4 | 3, 8 => some .palette
  | 4, 8 | 4, 16 => some .greyAlpha
  | 6, 8 | 6, 16 => some .rgba
  | _, _ => none

/-- What a file says of its pixels. -/
structure Header where
  extent : Extent
  /-- The bits of a sample. -/
  depth : Nat
  colouring : Colouring
  /-- Whether the pixels come in passes. -/
  interlaced : Bool

/-- The header in a chunk. -/
def Header.ofChunk? (c : Chunk) : Option Header :=
  if c.name = "IHDR" ∧ c.data.size = 13 then
    let byte (i : Nat) : Nat := (byteAt c.data i).toNat
    match word? c.data 0, word? c.data 4, colouring? (byte 9) (byte 8) with
    | some width, some height, some colouring =>
      if 0 < width ∧ 0 < height ∧ byte 10 = 0 ∧ byte 11 = 0 ∧ byte 12 < 2 then
        some {
          extent := ⟨width.toUInt32, height.toUInt32⟩
          depth := byte 8
          colouring
          interlaced := byte 12 = 1 }
      else none
    | _, _, _ => none
  else none

/-- The bits of a pixel. -/
def Header.pixelBits (h : Header) : Nat :=
  h.depth * h.colouring.samples

/-- The bytes of a row of so many pixels. -/
def Header.rowBytes (h : Header) (width : Nat) : Nat :=
  (h.pixelBits * width + 7) / 8

/-! ## 3. Filters -/

/-- The one of three neighbours that is nearest to `left + up - corner`. -/
def nearestNeighbour (left up corner : Nat) : Nat :=
  let estimate : Int := left + up - corner
  let distance (n : Nat) : Nat := (estimate - n).natAbs
  if distance left ≤ distance up ∧ distance left ≤ distance corner then left
  else if distance up ≤ distance corner then up
  else corner

/-- What a filter takes off a byte, given the bytes to the left, above, and above on the left. -/
def prediction? (filter : Nat) (left up corner : Nat) : Option Nat :=
  match filter with
  | 0 => some 0
  | 1 => some left
  | 2 => some up
  | 3 => some ((left + up) / 2)
  | 4 => some (nearestNeighbour left up corner)
  | _ => none

/-- Undoes the filter of a row whose bytes from `start` on are those of a file; `step` bytes are
    between a byte and its left neighbour. -/
def unfilterRow? (bytes : ByteArray) (start filter step : Nat) (above : ByteArray) :
    (count : Nat) → ByteArray → Option ByteArray
  | 0, row => some row
  | count + 1, row =>
    let i := row.size
    let left := if step ≤ i then (byteAt row (i - step)).toNat else 0
    let up := (byteAt above i).toNat
    let corner := if step ≤ i then (byteAt above (i - step)).toNat else 0
    if h : start + i < bytes.size then
      (prediction? filter left up corner).bind fun predicted =>
        unfilterRow? bytes start filter step above count
          (row.push (bytes[start + i].toNat + predicted).toUInt8)
    else none

/-- The rows of a pass from a place on, and the place behind them. -/
def rows? (bytes : ByteArray) (step length : Nat) :
    (count start : Nat) → (above : ByteArray) → Option (List ByteArray × Nat)
  | 0, start, _ => some ([], start)
  | count + 1, start, above =>
    if h : start < bytes.size then
      (unfilterRow? bytes (start + 1) bytes[start].toNat step above length .empty).bind fun row =>
        (rows? bytes step length count (start + 1 + length) row).map fun (rest, start) =>
          (row :: rest, start)
    else none

/-! ## 4. Pixels -/

/-- A sample of a row. -/
def sample (row : ByteArray) (depth index : Nat) : Nat :=
  let byte (i : Nat) : Nat := (byteAt row i).toNat
  if depth = 16 then 256 * byte (2 * index) + byte (2 * index + 1)
  else
    let bit := depth * index
    byte (bit / 8) / 2 ^ (8 - depth - bit % 8) % 2 ^ depth

/-- A sample as one of eight bits. -/
def scaled (depth value : Nat) : UInt8 :=
  if depth = 16 then levelOfWord value
  else (value * 255 / (2 ^ depth - 1)).toUInt8

/-- The colours of a palette, and what is transparent. -/
structure Colours where
  palette : ByteArray
  /-- The alphas of the palette, or the samples of the one colour that is transparent. -/
  clear : Option ByteArray

/-- The alpha of a pixel with the given samples, where one colour may be transparent. -/
def Colours.alpha (c : Colours) (samples : List Nat) : UInt8 :=
  match c.clear with
  | none => 255
  | some clear =>
    let colour := (List.range samples.length).map fun i => sample clear 16 i
    if clear.size = 2 * samples.length ∧ colour = samples then 0 else 255

/-- The pixel with the given samples. -/
def Header.pixel? (h : Header) (c : Colours) (samples : List Nat) : Option Pixel :=
  let level := scaled h.depth
  match h.colouring, samples with
  | .grey, [v] => some ⟨level v, level v, level v, c.alpha samples⟩
  | .rgb, [r, g, b] => some ⟨level r, level g, level b, c.alpha samples⟩
  | .palette, [i] =>
    if 3 * i + 2 < c.palette.size then
      let alpha := match c.clear with
        | some clear => if i < clear.size then byteAt clear i else 255
        | none => 255
      some ⟨byteAt c.palette (3 * i), byteAt c.palette (3 * i + 1), byteAt c.palette (3 * i + 2),
        alpha⟩
    else none
  | .greyAlpha, [v, a] => some ⟨level v, level v, level v, level a⟩
  | .rgba, [r, g, b, a] => some ⟨level r, level g, level b, level a⟩
  | _, _ => none

/-- The pixels of a row. -/
def Header.rowPixels? (h : Header) (c : Colours) (row : ByteArray) (width : Nat) :
    Option (List Pixel) :=
  (List.range width).mapM fun x =>
    h.pixel? c ((List.range h.colouring.samples).map fun i =>
      sample row h.depth (x * h.colouring.samples + i))

/-! ## 5. Passes -/

/-- The pixels of a pass: every `across`-th of every `down`-th row, from one on. -/
structure Pass where
  left : Nat
  top : Nat
  across : Nat
  down : Nat

/-- The passes of a file. -/
def Header.passes (h : Header) : List Pass :=
  if h.interlaced then
    [⟨0, 0, 8, 8⟩, ⟨4, 0, 8, 8⟩, ⟨0, 4, 4, 8⟩, ⟨2, 0, 4, 4⟩, ⟨0, 2, 2, 4⟩, ⟨1, 0, 2, 2⟩,
      ⟨0, 1, 1, 2⟩]
  else [⟨0, 0, 1, 1⟩]

/-- How many of `length` places there are from `first` on, in steps. -/
def countFrom (length first step : Nat) : Nat :=
  (length - first + step - 1) / step

/-- Puts the pixels of a row of a pass in their places. -/
def Pass.placeRow (p : Pass) (width y : Nat) (row : List Pixel) (pixels : Array Pixel) :
    Array Pixel :=
  row.zipIdx.foldl (fun pixels (pixel, i) =>
    pixels.setIfInBounds (y * width + p.left + i * p.across) pixel) pixels

/-- Puts the pixels of a pass in their places. Answers the place behind its rows. -/
def Header.place? (h : Header) (c : Colours) (bytes : ByteArray) (p : Pass) (start : Nat)
    (pixels : Array Pixel) : Option (Array Pixel × Nat) :=
  let width := countFrom h.extent.width.toNat p.left p.across
  let height := countFrom h.extent.height.toNat p.top p.down
  if width = 0 ∨ height = 0 then some (pixels, start)
  else
    (rows? bytes ((h.pixelBits + 7) / 8) (h.rowBytes width) height start .empty).bind
      fun (rows, start) =>
        (rows.mapM fun row => h.rowPixels? c row width).map fun rows =>
          (rows.zipIdx.foldl (fun pixels (row, i) =>
            p.placeRow h.extent.width.toNat (p.top + i * p.down) row pixels) pixels, start)

/-- The image of a file's pixels. -/
def Header.image? (h : Header) (c : Colours) (bytes : ByteArray) : Option Image :=
  let blank := Array.replicate h.extent.area (Pixel.mk 0 0 0 0)
  let placed := h.passes.foldlM
    (fun (pixels, start) p => h.place? c bytes p start pixels) (blank, 0)
  placed.bind fun (pixels, _) => (Image.ofPixels? h.extent pixels).toOption

/-! ## 6. Files -/

/-- The data of all chunks of a name, in order. -/
def dataOf (chunks : List Chunk) (name : String) : ByteArray :=
  chunks.foldl (fun data c => if c.name = name then data ++ c.data else data) .empty

/-- The image in a file. -/
def decode? (bytes : ByteArray) : Option Image :=
  match chunks? bytes with
  | some (first :: chunks) =>
    (Header.ofChunk? first).bind fun h =>
      (Deflate.unwrap? (dataOf chunks "IDAT")).bind fun pixels =>
        h.image? {
          palette := dataOf chunks "PLTE"
          clear := (chunks.find? fun c => c.name = "tRNS").map Chunk.data } pixels
  | _ => none

/-- Whether the pixels of a file come with all four channels, of eight bits at most. -/
def isPlain (bytes : ByteArray) : Bool :=
  match chunks? bytes with
  | some (first :: chunks) =>
    match Header.ofChunk? first with
    | some h =>
      let hasClear := chunks.any fun c => c.name = "tRNS"
      h.depth ≤ 8 && (h.colouring = .rgba || (h.colouring ∈ [.rgb, .palette] && hasClear))
    | none => false
  | _ => false

/-- The bytes of an image's pixels, without filters. -/
def plainRows (img : Image) : ByteArray :=
  img.pixels.zipIdx.foldl (fun bytes (p, i) =>
    let bytes := if i % img.width.toNat = 0 then bytes.push 0 else bytes
    (((bytes.push p.red).push p.green).push p.blue).push p.alpha) .empty

/-- The file of an image. -/
def encode (img : Image) : ByteArray :=
  let header := bigEndian img.width ++ bigEndian img.height ++ [8, 6, 0, 0, 0]
  ⟨signature.toArray⟩ ++ (Chunk.mk "IHDR" ⟨header.toArray⟩).bytes
    ++ (Chunk.mk "IDAT" (Deflate.wrap (plainRows img))).bytes ++ (Chunk.mk "IEND" .empty).bytes

end Relief.Picture.Png
