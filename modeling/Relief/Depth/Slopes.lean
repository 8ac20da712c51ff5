import Relief.Image

/-!
# Slope fields

A slope field is an image whose red and green channels hold the slope of a surface across and down
the image, and whose blue channel is zero where the surface is unknown.

* `Slopes.slope?`: the slope at a pixel, none where it is unknown or outside the field;
* `Slopes.climb`: how much a surface with that slope rises along one step, zero where it is
  unknown. This is what the rays add up.
-/

namespace Relief

/-- A slope field, as an image. -/
structure Slopes where
  image : Image
  deriving DecidableEq

namespace Slopes

/-- The extent of a field. -/
def extent (s : Slopes) : Extent :=
  s.image.toExtent

/-- The channel value `c` stands for the slope `c - 127.5`, so that `0` and `255` are opposite
    slopes. -/
def decode (channel : UInt8) : Float :=
  channel.toFloat - 127.5

/-- The slope of a channel value, in single precision. It is a multiple of one half below `128`,
    so both formats hold it exactly. -/
def decodeSingle (channel : UInt8) : Float32 :=
  channel.toFloat32 - 127.5

/-- Whether a pixel of a field says anything about the surface. -/
def isKnown (p : Pixel) : Bool :=
  p.blue != 0

/-- The slope across and down at a pixel. -/
def slope? (s : Slopes) (x y : UInt32) : Option (Float32 × Float32) :=
  match s.image.pixel? x y with
  | none => none
  | some p => if isKnown p then some (decodeSingle p.red, decodeSingle p.green) else none

/-- How much the surface rises from one end of the step `(dx, dy)` to the other at a pixel. -/
def climb (p : Pixel) (dx dy : Float) : Float :=
  if isKnown p then dx * decode p.red + dy * decode p.green else 0

end Slopes

end Relief
