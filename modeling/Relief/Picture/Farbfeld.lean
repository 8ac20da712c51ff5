import Relief.Picture.Bytes
import Relief.Picture.Channels

/-!
# Farbfeld files

A farbfeld file is a word, a width and a height, and then four samples for each pixel, of sixteen
bits each. All numbers have their high byte first.

* `decode?`: the image in a file.
-/

namespace Relief.Picture.Farbfeld

/-- The bytes that every file begins with. -/
def signature : ByteArray :=
  "farbfeld".toUTF8

/-- The image in a file. What is behind its pixels does not matter. -/
def decode? (bytes : ByteArray) : Option Image :=
  let number := ByteOrder.highFirst.number bytes
  let e : Extent := ⟨(number 8 4).toUInt32, (number 12 4).toUInt32⟩
  if standAt signature bytes 0 ∧ 16 + 8 * e.area ≤ bytes.size ∧ isAllowed e 8 then
    some (Channels.rgba.image e fun i => levelOfWord (number (16 + 2 * i) 2))
  else none

end Relief.Picture.Farbfeld
