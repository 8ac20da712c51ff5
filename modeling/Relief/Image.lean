import Relief.Number.Power

/-!
# Images of four channels

Normal maps, slope fields and depth maps are all images of eight bits in each of four channels,
row by row from the top.

* `Extent`: a width and a height, for images and for the targets that they are drawn onto;
* `Image`: pixels with their extent; the number of pixels is part of the type;
* `Image.ofBytes?`, `Image.ofPixels?`, `Image.filled?`, `Image.ofFunction?`: the ways to make one.
  The first two refuse a wrong number of bytes, the others more bytes than memory can hold in one
  piece, and all of them an extent whose bytes no machine word can count.
-/

namespace Relief

/-! ## 1. Extents -/

/-- A width and a height in pixels. -/
structure Extent where
  width : UInt32
  height : UInt32
  deriving DecidableEq, Inhabited, Repr

namespace Extent

/-- How many pixels there are. -/
def area (e : Extent) : Nat :=
  e.width.toNat * e.height.toNat

/-- Whether there are no pixels. -/
def isEmpty (e : Extent) : Bool :=
  e.width == 0 || e.height == 0

/-- The number of bytes of an image, if a machine word can hold it. -/
def byteCount? (e : Extent) : Option Nat :=
  if 4 * e.area < 2 ^ 64 then some (4 * e.area) else none

/-- Whether memory can hold four bytes for each pixel in one piece: the distance of two addresses
    is a signed word. -/
def isHoldable (e : Extent) : Bool :=
  4 * e.area < 2 ^ 63

/-- As it is written in messages: `3x4`. -/
def text (e : Extent) : String :=
  toString e.width ++ "x" ++ toString e.height

/-- The place of a pixel in an image of this extent, counted row by row. -/
def slot? (e : Extent) (x y : Int) : Option Nat :=
  if 0 ≤ x ∧ x < e.width.toNat ∧ 0 ≤ y ∧ y < e.height.toNat then
    some (y.toNat * e.width.toNat + x.toNat)
  else none

/-- **Every slot of an extent is one of its pixels.** -/
theorem slot?_lt {e : Extent} {x y : Int} {i : Nat} (h : e.slot? x y = some i) : i < e.area := by
  unfold slot? at h
  split at h
  · rename_i hb
    simp only [Option.some.injEq] at h
    subst h
    obtain ⟨hx₀, hx, hy₀, hy⟩ := hb
    have hx' : x.toNat < e.width.toNat := by omega
    have hy' : y.toNat + 1 ≤ e.height.toNat := by omega
    calc y.toNat * e.width.toNat + x.toNat
        < y.toNat * e.width.toNat + e.width.toNat := by omega
      _ = (y.toNat + 1) * e.width.toNat := by rw [Nat.add_mul, Nat.one_mul]
      _ ≤ e.height.toNat * e.width.toNat := Nat.mul_le_mul_right _ hy'
      _ = e.area := Nat.mul_comm _ _
  · simp at h

end Extent

/-! ## 2. Pixels and images -/

/-- One pixel: red, green, blue and alpha. -/
structure Pixel where
  red : UInt8
  green : UInt8
  blue : UInt8
  alpha : UInt8
  deriving DecidableEq, Inhabited, Repr

namespace Pixel

/-- The four channels in order. -/
def bytes (p : Pixel) : List UInt8 :=
  [p.red, p.green, p.blue, p.alpha]

/-- An opaque pixel of one grey level. -/
def grey (level : UInt8) : Pixel :=
  ⟨level, level, level, 255⟩

end Pixel

/-- An image: as many pixels as its extent has, row by row from the top. -/
structure Image extends Extent where
  pixels : Array Pixel
  size_pixels : pixels.size = width.toNat * height.toNat
  deriving DecidableEq

namespace Image

/-- The pixel in column `x` of row `y`; none outside the image. -/
def pixel? (img : Image) (x y : UInt32) : Option Pixel :=
  if x < img.width ∧ y < img.height then img.pixels[y.toNat * img.width.toNat + x.toNat]? else none

/-- The channels of all pixels, in order. -/
def bytes (img : Image) : List UInt8 :=
  img.pixels.toList.flatMap Pixel.bytes

/-- The image of an extent whose pixel in column `x` of row `y` is `f x y`. -/
def tabulate (e : Extent) (f : (x y : Nat) → Pixel) : Image where
  toExtent := e
  pixels := Array.ofFn fun i : Fin e.area => f (i.val % e.width.toNat) (i.val / e.width.toNat)
  size_pixels := by simp [Extent.area]

/-! ## 3. Making images -/

/-- Why there is no such image. -/
inductive Unfit where
  /-- The bytes of the extent are more than a machine word can count. -/
  | tooLarge
  /-- The bytes of the extent are more than memory can hold in one piece. -/
  | unholdable
  /-- There are other than four bytes for each pixel. -/
  | byteCount (found expected : Nat) (extent : Extent)
  deriving DecidableEq, Repr

namespace Unfit

/-- The wording of the reason. -/
def message : Unfit → String
  | .tooLarge => "pixel grid dimensions overflow"
  | .unholdable => "capacity overflow"
  | .byteCount found expected extent =>
    "pixel buffer has " ++ toString found ++ " bytes, expected " ++ toString expected ++ " for "
      ++ extent.text ++ " rgba8"

end Unfit

/-- Groups bytes by fours. -/
def pixelsOfBytes (bytes : Array UInt8) : Array Pixel :=
  Array.ofFn fun i : Fin (bytes.size / 4) =>
    ⟨bytes[4 * i.val], bytes[4 * i.val + 1], bytes[4 * i.val + 2], bytes[4 * i.val + 3]⟩

theorem size_pixelsOfBytes (bytes : Array UInt8) :
    (pixelsOfBytes bytes).size = bytes.size / 4 := by
  simp [pixelsOfBytes]

/-- The image whose channels are the given bytes. -/
def ofBytes? (e : Extent) (bytes : Array UInt8) : Except Unfit Image :=
  match e.byteCount? with
  | none => .error .tooLarge
  | some expected =>
    if h : bytes.size = 4 * e.area then
      .ok {
        toExtent := e
        pixels := pixelsOfBytes bytes
        size_pixels := by
          rw [size_pixelsOfBytes, h, Nat.mul_div_cancel_left _ (by decide)]
          rfl }
    else .error (.byteCount bytes.size expected e)

/-- The image with the given pixels, row by row. -/
def ofPixels? (e : Extent) (pixels : Array Pixel) : Except Unfit Image :=
  match e.byteCount? with
  | none => .error .tooLarge
  | some expected =>
    if h : pixels.size = e.area then .ok { toExtent := e, pixels, size_pixels := h }
    else .error (.byteCount (4 * pixels.size) expected e)

/-- The image whose pixel in column `x` of row `y` is `f x y`. -/
def ofFunction? (e : Extent) (f : (x y : Nat) → Pixel) : Except Unfit Image :=
  match e.byteCount? with
  | none => .error .tooLarge
  | some _ => if e.isHoldable then .ok (tabulate e f) else .error .unholdable

/-- The image with one pixel everywhere. -/
def filled? (e : Extent) (p : Pixel) : Except Unfit Image :=
  match e.byteCount? with
  | none => .error .tooLarge
  | some _ =>
    if e.isHoldable then
      .ok {
        toExtent := e
        pixels := Array.replicate e.area p
        size_pixels := by simp [Extent.area] }
    else .error .unholdable

end Image

end Relief
