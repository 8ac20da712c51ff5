import Relief.Picture.Bitmap.Header
import Relief.Picture.Channels

/-!
# Bitmaps

Behind its header a bitmap has a table of colours, if its pixels are numbers of colours, and then
its rows, the last one first as a rule. They are written as they are, or in runs.

* `Header.rows?`: the pixels of rows that are written as they are;
* `Runs`: the pixels of rows in runs, as far as they have been read;
* `Header.pixels?`: the pixels of a bitmap, however they are written;
* `decode?`: the image in a file.
-/

namespace Relief.Picture.Bitmap

/-- Pixels row by row from the top, and where the bytes behind them begin. -/
structure Rows where
  pixels : Array Pixel
  behind : Nat

/-! ## 1. Rows as they are -/

/-- A pixel of a row. -/
def Header.pixel (h : Header) (bytes : ByteArray) (row x : Nat) : Pixel :=
  match h.packing with
  | .indexed | .runs _ =>
    let byte := (byteAt bytes (row + h.bits * x / 8)).toNat
    h.colour bytes (byte / 2 ^ (8 - h.bits - h.bits * x % 8) % 2 ^ h.bits)
  | .three =>
    let byte (k : Nat) : UInt8 := byteAt bytes (row + 3 * x + k)
    ⟨byte 2, byte 1, byte 0, 255⟩
  | .four =>
    let byte (k : Nat) : UInt8 := byteAt bytes (row + 4 * x + k)
    ⟨byte 2, byte 1, byte 0, byte 3⟩
  | .fields f =>
    let v := ByteOrder.lowFirst.number bytes (row + h.bits / 8 * x) (h.bits / 8)
    let alpha := if f.alpha.length = 0 then 255 else f.alpha.level v
    ⟨f.red.level v, f.green.level v, f.blue.level v, alpha⟩

/-- The pixels of rows from a place on that are written as they are. -/
def Header.rows? (h : Header) (bytes : ByteArray) (start : Nat) : Option Rows :=
  let width := h.extent.width.toNat
  let height := h.extent.height.toNat
  let behind := start + h.rowBytes * height
  if behind ≤ bytes.size then
    let pixel (i : Fin (width * height)) : Pixel :=
      let y := i.val / width
      let y := if h.fromTop then y else height - 1 - y
      h.pixel bytes (start + h.rowBytes * y) (i.val % width)
    some ⟨Array.ofFn pixel, behind⟩
  else none

/-! ## 2. Rows in runs -/

/-- What has been read of rows in runs. -/
structure Runs where
  /-- The row that comes next, counted from the bottom. -/
  row : Nat
  /-- How much of that row there is. -/
  x : Nat
  pixels : Array Pixel

/-- Puts colours in the next places of a row; none if they do not fit. -/
def Runs.put? (r : Runs) (e : Extent) (count : Nat) (colour : Nat → Pixel) : Option Runs :=
  let width := e.width.toNat
  let top := (e.height.toNat - 1 - r.row) * width + r.x
  if width < r.x + count then none
  else
    some { r with
      x := r.x + count
      pixels := (List.range count).foldl (fun pixels i =>
        pixels.setIfInBounds (top + i) (colour i)) r.pixels }

/-- Skips columns and rows; none if that leads out of the image. -/
def Runs.skip? (r : Runs) (e : Extent) (columns rows : Nat) : Option Runs :=
  if r.row + rows < e.height.toNat ∧ r.x + columns ≤ e.width.toNat then
    some { r with row := r.row + rows, x := r.x + columns }
  else none

/-- The pixels of rows in runs, from a place on. A byte that is not zero says how often the next
    one comes; behind a zero there is the end of a row or of all rows, a skip, or a number of
    bytes that come as they are, in pairs. -/
def Header.runsFrom? (h : Header) (bytes : ByteArray) (halves : Bool) :
    (fuel start : Nat) → Runs → Option Rows
  | 0, _, _ => none
  | fuel + 1, start, r =>
    let height := h.extent.height.toNat
    let part (i byte : Nat) : Nat :=
      if halves then if i % 2 = 0 then byte / 16 else byte % 16 else byte
    if height ≤ r.row then some ⟨r.pixels, start⟩
    else
      (slice? bytes start 2).bind fun pair =>
        let head := (byteAt pair 0).toNat
        let next := (byteAt pair 1).toNat
        if head = 0 then
          match next with
          | 0 => h.runsFrom? bytes halves fuel (start + 2) { r with row := r.row + 1, x := 0 }
          | 1 => some ⟨r.pixels, start + 2⟩
          | 2 =>
            (slice? bytes (start + 2) 2).bind fun skip =>
              (r.skip? h.extent (byteAt skip 0).toNat (byteAt skip 1).toNat).bind
                (h.runsFrom? bytes halves fuel (start + 4))
          | count =>
            let length := if halves then (count + 1) / 2 else count
            let length := length + length % 2
            (slice? bytes (start + 2) length).bind fun run =>
              let colour (i : Nat) : Pixel :=
                h.colour bytes (part i (byteAt run (if halves then i / 2 else i)).toNat)
              (r.put? h.extent count colour).bind
                (h.runsFrom? bytes halves fuel (start + 2 + length))
        else
          (r.put? h.extent head fun i => h.colour bytes (part i next)).bind
            (h.runsFrom? bytes halves fuel (start + 2))

/-! ## 3. All bitmaps -/

/-- The pixels of a bitmap, from a place on. Where runs leave pixels out, they are `blank`, and all
    pixels in runs have its alpha. -/
def Header.pixels? (h : Header) (bytes : ByteArray) (blank : Pixel) (start : Nat) : Option Rows :=
  if bytes.size < h.behindTable ∧ h.packing.isIndexed then none
  else
    match h.packing with
    | .runs halves =>
      let r : Runs := ⟨0, 0, Array.replicate h.extent.area blank⟩
      (h.runsFrom? bytes halves (bytes.size + 1) start r).map fun rows =>
        { rows with pixels := rows.pixels.map fun p => { p with alpha := blank.alpha } }
    | _ => h.rows? bytes start

/-- Whether a bitmap has alpha. -/
def Header.hasAlpha (h : Header) : Bool :=
  match h.packing with
  | .fields f => f.alpha.length ≠ 0
  | _ => false

/-- The image in a file: the letters BM, twelve bytes of which the last four say where the rows are,
    and a bitmap. What is behind its rows does not matter. -/
def decode? (bytes : ByteArray) : Option Image :=
  if standAt "BM".toUTF8 bytes 0 then
    (ByteOrder.lowFirst.number? bytes 10 4).bind fun start =>
      (Header.read? bytes 14 false).bind fun h =>
        if isAllowed h.extent (if h.hasAlpha then 4 else 3) then
          (h.pixels? bytes ⟨0, 0, 0, 255⟩ start).bind fun rows =>
            (Image.ofPixels? h.extent rows.pixels).toOption
        else none
  else none

end Relief.Picture.Bitmap
