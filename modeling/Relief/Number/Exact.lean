import Relief.Number.Power

/-!
# Exact values of floating-point numbers

The hardware rounds every sum, product, quotient and square root correctly, and for those the
library uses `Float` and `Float32` as they are. This file adds the operations that go through
the exact value `± m · 2 ^ e` of a number:

* `Double.nearest` and `Single.nearest`: the number nearest to an exact value, ties to even;
* `Double.nearestRatio` and `Single.nearestRatio`: the number nearest to a quotient;
* `Single.toDouble`, which loses nothing, and `Double.toSingle`, which rounds once;
* `Double.remainder`: the exact remainder by a natural number, with the sign of the dividend.
-/

namespace Relief

open Float.Model (UnpackedFloat Format)

/-! ## 1. Double precision -/

namespace Double

/-- The fields of a number: its class, and sign, mantissa and exponent where it is finite. -/
def unpack (x : Float) : UnpackedFloat :=
  x.toModel.unpack

/-- The number with the given fields, which must already fit the format. -/
def pack (u : UnpackedFloat) : Float :=
  .ofModel (Float.Model.pack u)

/-- The number nearest to `± m · 2 ^ e`; a tie goes to the even mantissa. -/
def nearest (sign : UnpackedFloat.Sign) (m : Nat) (e : Int) : Float :=
  pack (UnpackedFloat.round Format.binary64 sign m e)

/-- The number nearest to `± num / den`; a tie goes to the even mantissa. -/
def nearestRatio (sign : UnpackedFloat.Sign) (num den : Nat) : Float :=
  if hn : 0 < num then
    if hd : 0 < den then
      pack (UnpackedFloat.div Format.binary64 (.finite sign num 0 hn) (.finite .positive den 0 hd))
    else pack (.infinity sign)
  else pack (.zero sign)

/-- The number nearest to an integer. -/
def ofInt (n : Int) : Float :=
  nearest (if n < 0 then .negative else .positive) n.natAbs 0

/-- Whether the sign bit is set. It tells the two zeros apart. -/
def isNegative (x : Float) : Bool :=
  x.toBits >>> 63 == 1

/-- The remainder of `x` by `n`, exact, with the sign of `x`. A number that is not finite has
    none. -/
def remainder (x : Float) (n : Nat) : Float :=
  match unpack x with
  | .zero sign => pack (.zero sign)
  | .finite sign m e _ =>
    if 0 ≤ e then nearest sign (m * 2 ^ e.toNat % n) 0
    else nearest sign (m % (n * 2 ^ (-e).toNat)) e
  | _ => pack .notANumber

end Double

/-! ## 2. Single precision -/

namespace Single

/-- The fields of a number: its class, and sign, mantissa and exponent where it is finite. -/
def unpack (x : Float32) : UnpackedFloat :=
  x.toModel.unpack

/-- The number with the given fields, which must already fit the format. -/
def pack (u : UnpackedFloat) : Float32 :=
  .ofModel (Float32.Model.pack u)

/-- The number nearest to `± m · 2 ^ e`; a tie goes to the even mantissa. -/
def nearest (sign : UnpackedFloat.Sign) (m : Nat) (e : Int) : Float32 :=
  pack (UnpackedFloat.round Format.binary32 sign m e)

/-- The number nearest to `± num / den`; a tie goes to the even mantissa. -/
def nearestRatio (sign : UnpackedFloat.Sign) (num den : Nat) : Float32 :=
  if hn : 0 < num then
    if hd : 0 < den then
      pack (UnpackedFloat.div Format.binary32 (.finite sign num 0 hn) (.finite .positive den 0 hd))
    else pack (.infinity sign)
  else pack (.zero sign)

/-- The number nearest to an integer. -/
def ofInt (n : Int) : Float32 :=
  nearest (if n < 0 then .negative else .positive) n.natAbs 0

/-- Whether the sign bit is set. It tells the two zeros apart. -/
def isNegative (x : Float32) : Bool :=
  x.toBits >>> 31 == 1

/-- The same value in double precision, which holds every single. -/
def toDouble (x : Float32) : Float :=
  match unpack x with
  | .finite sign m e _ => Double.nearest sign m e
  | u => Double.pack u

end Single

/-- The single nearest to a double; a tie goes to the even mantissa. -/
def Double.toSingle (x : Float) : Float32 :=
  match Double.unpack x with
  | .finite sign m e _ => Single.nearest sign m e
  | u => Single.pack u

end Relief
