import Relief.Number.Exact

/-!
# Whole numbers near a floating-point number

Rounding to whole numbers, in the forms the library needs:

* `Double.round`, `Single.round`: the nearest whole number, a half going away from zero;
* `Single.floor`: the greatest whole number that is not above;
* `Double.ceilNat`: the least natural number that is not below, for sizes;
* `Double.truncate`, `Single.truncate`: the whole part, as an integer;
* `Double.toInt`, `Single.toInt`: the whole part, held within given bounds.

A number at least `2 ^ 52` (`2 ^ 23` in single precision) is whole already, and below that the
whole part fits a machine word and comes back unchanged. So each of these is a word conversion,
one exact subtraction and one comparison. All of them keep the sign of a zero.
-/

namespace Relief

/-! ## 1. Double precision -/

namespace Double

/-- The magnitude of `x` without its fraction, saturating at the largest word; zero where `x` is
    not a number. -/
def wholePart (x : Float) : UInt64 :=
  x.abs.toUInt64

/-- `magnitude` with the sign of `x`. -/
def withSign (x magnitude : Float) : Float :=
  if isNegative x then -magnitude else magnitude

/-- The nearest whole number; a half goes away from zero. -/
def round (x : Float) : Float :=
  if x.abs < 4503599627370496 then
    let whole := (wholePart x).toFloat
    withSign x (if x.abs - whole < 0.5 then whole else whole + 1)
  else x

/-- The least natural number not below `x`, saturating at the largest word; zero where `x` is
    negative or not a number. -/
def ceilNat (x : Float) : Nat :=
  if x ≤ 0 then 0
  else if (wholePart x).toFloat < x then min ((wholePart x).toNat + 1) (2 ^ 64 - 1)
  else (wholePart x).toNat

/-- The whole part of `x`, with its sign, where its magnitude is below `2 ^ 64`. -/
def truncate (x : Float) : Int :=
  if x < 0 then -((wholePart x).toNat : Int) else (wholePart x).toNat

/-- The whole part of `x` held between `lo` and `hi`; zero where `x` is not a number. -/
def toInt (lo hi : Int) (x : Float) : Int :=
  max lo (min hi (truncate x))

end Double

/-! ## 2. Single precision -/

namespace Single

/-- The magnitude of `x` without its fraction, saturating at the largest word; zero where `x` is
    not a number. -/
def wholePart (x : Float32) : UInt64 :=
  x.abs.toUInt64

/-- `magnitude` with the sign of `x`. -/
def withSign (x magnitude : Float32) : Float32 :=
  if isNegative x then -magnitude else magnitude

/-- The nearest whole number; a half goes away from zero. -/
def round (x : Float32) : Float32 :=
  if x.abs < 8388608 then
    let whole := (wholePart x).toFloat32
    withSign x (if x.abs - whole < 0.5 then whole else whole + 1)
  else x

/-- The greatest whole number not above `x`. -/
def floor (x : Float32) : Float32 :=
  if x.abs < 8388608 then
    let whole := (wholePart x).toFloat32
    withSign x (if isNegative x && whole < x.abs then whole + 1 else whole)
  else x

/-- The whole part of `x`, with its sign, where its magnitude is below `2 ^ 64`. -/
def truncate (x : Float32) : Int :=
  if x < 0 then -((wholePart x).toNat : Int) else (wholePart x).toNat

/-- The whole part of `x` held between `lo` and `hi`; zero where `x` is not a number. -/
def toInt (lo hi : Int) (x : Float32) : Int :=
  max lo (min hi (truncate x))

end Single

end Relief
