import Relief.Picture.Bitmap.File
import Relief.Picture.Png

/-!
# Icons

An icon file holds several images, each as a bitmap or as a file of its own. The one with the most
bits for a pixel is shown, and of those the largest. Behind the rows of a bitmap there may be a mask
of bits that say which pixels are not there.

* `Entry`: what a file says of one of its images;
* `Entry.image?`: one of the images;
* `decode?`: the image that is shown.
-/

namespace Relief.Picture.Icon

/-! ## 1. Entries -/

/-- What a file says of one of its images. -/
structure Entry where
  width : Nat
  height : Nat
  /-- The bits of a pixel. -/
  bits : Nat
  start : Nat
  behind : Nat

/-- The entry at a place. A side of zero means 256. -/
def Entry.read? (bytes : ByteArray) (start : Nat) : Option Entry :=
  let word (i : Nat) : Nat := ByteOrder.lowFirst.number bytes (start + i) 2
  let long (i : Nat) : Nat := ByteOrder.lowFirst.number bytes (start + i) 4
  let side (i : Nat) : Nat :=
    let v := (byteAt bytes (start + i)).toNat
    if v = 0 then 256 else v
  if start + 16 ≤ bytes.size ∧ word 4 ≤ 256 ∧ word 6 ≤ 256 then
    some ⟨side 0, side 1, word 6, long 12, long 12 + long 8⟩
  else none

/-- All entries. -/
def entries? (bytes : ByteArray) : Option (List Entry) :=
  (ByteOrder.lowFirst.number? bytes 4 2).bind fun count =>
    (List.range count).mapM fun i => Entry.read? bytes (6 + 16 * i)

/-- Whether an entry is better than another. -/
def Entry.isBetter (a b : Entry) : Bool :=
  b.bits < a.bits || (a.bits = b.bits && b.width * b.height < a.width * a.height)

/-- The entry that is shown: the best one, and of equals the last if it is among them, and
    otherwise the first. -/
def best? (entries : List Entry) : Option Entry :=
  entries.getLast?.map fun last =>
    entries.dropLast.foldl (fun best e => if e.isBetter best then e else best) last

/-! ## 2. Images -/

/-- Whether an image has the sides that an entry says. -/
def Entry.fits (entry : Entry) (e : Extent) : Bool :=
  min e.width.toNat 256 = entry.width && min e.height.toNat 256 = entry.height

/-- Takes the pixels of a bitmap away whose bits are set in the mask at a place. Its rows have a
    multiple of four bytes, the last one first. -/
def masked (e : Extent) (bytes : ByteArray) (start : Nat) (pixels : Array Pixel) : Array Pixel :=
  let width := e.width.toNat
  let rowBytes := (width + 31) / 32 * 4
  pixels.mapIdx fun i p =>
    let row := e.height.toNat - 1 - i / width
    let x := i % width
    let byte := (byteAt bytes (start + rowBytes * row + x / 8)).toNat
    if byte / 2 ^ (7 - x % 8) % 2 = 1 then { p with alpha := 0 } else p

/-- The bitmap of an entry. Its header counts the rows of the mask too. -/
def Entry.bitmap? (entry : Entry) (bytes : ByteArray) : Option Image :=
  (Bitmap.Header.read? bytes entry.start true).bind fun h =>
    let e : Extent := ⟨h.extent.width, h.extent.height / 2⟩
    let h := { h with extent := e }
    if isAllowed e 4 ∧ entry.fits e then
      (h.pixels? bytes ⟨0, 0, 0, 0⟩ h.behindTable).bind fun rows =>
        let maskLength := (e.width.toNat + 31) / 32 * 4 * e.height.toNat
        let image (pixels : Array Pixel) : Option Image := (Image.ofPixels? e pixels).toOption
        if rows.behind + maskLength ≤ entry.behind then
          if rows.behind + maskLength ≤ bytes.size then
            image (masked e bytes rows.behind rows.pixels)
          else none
        else if entry.behind = rows.behind then image rows.pixels
        else none
    else none

/-- The image of an entry. -/
def Entry.image? (entry : Entry) (bytes : ByteArray) : Option Image :=
  (slice? bytes entry.start 8).bind fun first =>
    if first.data.toList = Png.signature then
      let file := bytes.extract entry.start bytes.size
      if Png.isPlain file then
        (Png.decode? file).bind fun img => if entry.fits img.toExtent then some img else none
      else none
    else entry.bitmap? bytes

/-- The image that is shown. -/
def decode? (bytes : ByteArray) : Option Image :=
  (entries? bytes).bind fun entries => (best? entries).bind fun entry => entry.image? bytes

end Relief.Picture.Icon
