import Relief.Picture.Bytes
import Relief.Picture.Channels

/-!
# Files of pixel steps

A file of the quite simple format tells each pixel by how it comes from those before: the last one
again, a small step from it, one that has been there lately, or a new one.

* `step?`: the pixels that the next bytes tell;
* `decode?`: the image in a file.
-/

namespace Relief.Picture.Qoi

/-- The last pixel, and lately seen ones, each at the place that its channels give. -/
structure Memory where
  last : Pixel
  seen : Array Pixel

/-- What is known before the first pixel. Pixels without alpha are seen with all of it. -/
def Memory.start (c : Channels) : Memory where
  last := ⟨0, 0, 0, 255⟩
  seen := Array.replicate 64 ⟨0, 0, 0, if c = .rgba then 0 else 255⟩

/-- The place at which a pixel is kept. -/
def place (p : Pixel) : Nat :=
  (3 * p.red.toNat + 5 * p.green.toNat + 7 * p.blue.toNat + 11 * p.alpha.toNat) % 64

/-- Keeps a pixel. -/
def Memory.keep (m : Memory) (p : Pixel) : Memory where
  last := p
  seen := m.seen.setIfInBounds (place p) p

/-- A pixel some steps away. -/
def moved (p : Pixel) (red green blue : Nat) : Pixel :=
  { p with
    red := p.red + red.toUInt8
    green := p.green + green.toUInt8
    blue := p.blue + blue.toUInt8 }

/-- What the next bytes tell: the memory after them, how often its last pixel comes, and where the
    bytes behind them begin. -/
def step? (c : Channels) (m : Memory) (bytes : ByteArray) (start : Nat) :
    Option (Memory × Nat × Nat) :=
  if h : start < bytes.size then
    let head := bytes[start].toNat
    let byte (i : Nat) : UInt8 := byteAt bytes (start + i)
    let new (p : Pixel) (length : Nat) : Option (Memory × Nat × Nat) :=
      if start + length ≤ bytes.size then some (m.keep p, 1, start + length) else none
    if head < 64 then
      some ({ m with last := m.seen[head]?.getD m.last }, 1, start + 1)
    else if head < 128 then
      -- each step of the three is two less than what is written
      new (moved m.last (head / 16 % 4 + 254) (head / 4 % 4 + 254) (head % 4 + 254)) 1
    else if head < 192 then
      let green := head % 64 + 224
      let other := (byte 1).toNat
      new (moved m.last (green + other / 16 + 248) green (green + other % 16 + 248)) 2
    else if head < 254 then some (m, head % 64 + 1, start + 1)
    else if head = 254 then new { m.last with red := byte 1, green := byte 2, blue := byte 3 } 4
    else if c = .rgba then new ⟨byte 1, byte 2, byte 3, byte 4⟩ 5
    else new m.last 1
  else none

/-- So many pixels after those that are there already, and where the bytes behind them begin. -/
def pixelsAfter? (c : Channels) (wanted : Nat) (bytes : ByteArray) :
    (fuel : Nat) → Memory → (start : Nat) → Array Pixel → Option (Array Pixel × Nat)
  | 0, _, _, _ => none
  | fuel + 1, m, start, done =>
    if wanted ≤ done.size then some (done, start)
    else
      (step? c m bytes start).bind fun (m, times, start) =>
        let times := min times (wanted - done.size)
        pixelsAfter? c wanted bytes fuel m start (done ++ Array.replicate times m.last)

/-- The bytes that every file begins with. -/
def signature : ByteArray :=
  "qoif".toUTF8

/-- The bytes that come behind the pixels. -/
def ending : ByteArray :=
  ⟨#[0, 0, 0, 0, 0, 0, 0, 1]⟩

/-- The most pixels that a file may have. -/
def mostPixels : Nat :=
  400000000

/-- The image in a file. -/
def decode? (bytes : ByteArray) : Option Image :=
  let number := ByteOrder.highFirst.number bytes
  let e : Extent := ⟨(number 4 4).toUInt32, (number 8 4).toUInt32⟩
  let channels : Option Channels := match number 12 1 with
    | 3 => some .rgb
    | 4 => some .rgba
    | _ => none
  channels.bind fun c =>
    if 14 ≤ bytes.size ∧ standAt signature bytes 0 ∧ number 13 1 < 2 ∧ !e.isEmpty
        ∧ e.area ≤ mostPixels ∧ isAllowed e c.count then
      (pixelsAfter? c e.area bytes (bytes.size + 1) (.start c) 14 #[]).bind fun (pixels, start) =>
        if standAt ending bytes start then (Image.ofPixels? e pixels).toOption
        else none
    else none

end Relief.Picture.Qoi
