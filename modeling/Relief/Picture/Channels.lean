import Relief.Image

/-!
# Channels of pixels

Files may leave out the alpha of their pixels, or their colours.

* `Channels`: which of them are there;
* `Channels.image`: the image of samples that come pixel by pixel;
* `isAllowed`: whether an image is small enough to be read.
-/

namespace Relief.Picture

/-- What the samples of a pixel mean. -/
inductive Channels where
  | grey
  | greyAlpha
  | rgb
  | rgba
  deriving DecidableEq, Repr

namespace Channels

/-- How many samples a pixel has. -/
def count : Channels → Nat
  | grey => 1
  | greyAlpha => 2
  | rgb => 3
  | rgba => 4

/-- The pixel whose samples have the given levels. -/
def pixel (c : Channels) (level : Nat → UInt8) : Pixel :=
  match c with
  | grey => ⟨level 0, level 0, level 0, 255⟩
  | greyAlpha => ⟨level 0, level 0, level 0, level 1⟩
  | rgb => ⟨level 0, level 1, level 2, 255⟩
  | rgba => ⟨level 0, level 1, level 2, level 3⟩

/-- The image of samples that come pixel by pixel and row by row. -/
def image (c : Channels) (e : Extent) (level : Nat → UInt8) : Image :=
  Image.tabulate e fun x y => c.pixel fun k => level ((y * e.width.toNat + x) * c.count + k)

end Channels

/-- A sample of sixteen bits in eight. -/
def levelOfWord (v : Nat) : UInt8 :=
  ((v + 128) / 257).toUInt8

/-- Whether an image is small enough to be read, if its pixels take so many bytes each: no more
    than half a gibibyte may be held. -/
def isAllowed (e : Extent) (pixelBytes : Nat) : Bool :=
  pixelBytes * e.area ≤ 2 ^ 29

end Relief.Picture
