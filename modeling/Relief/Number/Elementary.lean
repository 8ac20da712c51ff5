import Relief.Number.Exact
import Relief.Number.Fixed

/-!
# Elementary functions, rounded to nearest

Sine and cosine in double precision, and sine, cosine, tangent, arctangent of a quotient and
power in single precision. Each takes the exact value of its argument, computes the function in
fixed point (`Relief.Number.Fixed`) and rounds the result once.

Every function first settles the arguments at which its value is a limit, an exact zero or not a
number; the comments at the cases say why.
-/

namespace Relief

open Float.Model (UnpackedFloat)

/-- The sign of an integer. -/
def signOf (x : Int) : UnpackedFloat.Sign :=
  if x < 0 then .negative else .positive

/-- An exact value in fixed point. -/
def Fixed.ofUnpacked (sign : UnpackedFloat.Sign) (m : Nat) (e : Int) : Int :=
  match sign with
  | .positive => Fixed.ofExact m e
  | .negative => -Fixed.ofExact m e

/-- The leading 128 bits of the magnitude of a fixed-point number, as mantissa and exponent. They
    settle to which double it is nearest. -/
def Fixed.leading (x : Int) : Nat × Int :=
  let cut := x.natAbs.log2 - 127
  (x.natAbs >>> cut, (cut : Int) - Fixed.places)

/-- Whether `m · 2 ^ e` is below `2 ^ -27`. There the sine and the tangent of a number differ from
    the number by less than half a unit in its last place, and its cosine from one likewise. -/
def isTinyAngle (m : Nat) (e : Int) : Bool :=
  (m.log2 : Int) + 1 + e ≤ -27

/-! ## 1. Double precision -/

namespace Double

/-- The double nearest to a fixed-point number. -/
def ofFixed (x : Int) : Float :=
  nearest (signOf x) (Fixed.leading x).1 (Fixed.leading x).2

/-- The sine and the cosine of an angle below `2 ^ 128` in magnitude. -/
def sinCos (x : Float) : Float × Float :=
  match unpack x with
  | .zero _ => (x, 1)
  | .finite sign m e _ =>
    if isTinyAngle m e then (x, 1)
    else
      let (s, c) := Fixed.sineCosine (Fixed.ofUnpacked sign m e)
      (ofFixed s, ofFixed c)
  | _ => (pack .notANumber, pack .notANumber)

end Double

/-! ## 2. Single precision -/

namespace Single

/-- The single nearest to a fixed-point number. -/
def ofFixed (x : Int) : Float32 :=
  nearest (signOf x) (Fixed.leading x).1 (Fixed.leading x).2

/-- The sine of an angle in radians. -/
def sin (x : Float32) : Float32 :=
  match unpack x with
  | .zero _ => x
  | .finite sign m e _ =>
    if isTinyAngle m e then x else ofFixed (Fixed.sineCosine (Fixed.ofUnpacked sign m e)).1
  | _ => pack .notANumber

/-- The cosine of an angle in radians. -/
def cos (x : Float32) : Float32 :=
  match unpack x with
  | .zero _ => 1
  | .finite sign m e _ =>
    if isTinyAngle m e then 1 else ofFixed (Fixed.sineCosine (Fixed.ofUnpacked sign m e)).2
  | _ => pack .notANumber

/-- The tangent of an angle in radians. -/
def tan (x : Float32) : Float32 :=
  match unpack x with
  | .zero _ => x
  | .finite sign m e _ =>
    if isTinyAngle m e then x
    else
      let (s, c) := Fixed.sineCosine (Fixed.ofUnpacked sign m e)
      nearestRatio (signOf (s * c)) s.natAbs c.natAbs
  | _ => pack .notANumber

/-- The angle of the first quadrant whose tangent is `y / x`, in fixed point; both positive. -/
def firstQuadrant (my : Nat) (ey : Int) (mx : Nat) (ex : Int) : Int :=
  let common := min ey ex
  let y := my * 2 ^ (ey - common).toNat
  let x := mx * 2 ^ (ex - common).toNat
  if y ≤ x then Fixed.arctangent y x else Fixed.pi / 2 - Fixed.arctangent x y

/-- The angle from the positive `x` axis to the point `(x, y)`, between minus half a turn and half
    a turn. The sign of `y` is the sign of the angle, on the axis too. -/
def atan2 (y x : Float32) : Float32 :=
  match unpack y, unpack x with
  | .notANumber, _ => pack .notANumber
  | _, .notANumber => pack .notANumber
  -- the half axes: zero and half a turn, also between infinities of one direction
  | .zero sy, .zero .positive => pack (.zero sy)
  | .zero sy, .zero .negative => rounded sy Fixed.pi
  | .zero sy, .finite .positive _ _ _ => pack (.zero sy)
  | .zero sy, .finite .negative _ _ _ => rounded sy Fixed.pi
  | .zero sy, .infinity .positive => pack (.zero sy)
  | .zero sy, .infinity .negative => rounded sy Fixed.pi
  | .finite sy _ _ _, .infinity .positive => pack (.zero sy)
  | .finite sy _ _ _, .infinity .negative => rounded sy Fixed.pi
  -- straight up or down
  | .finite sy _ _ _, .zero _ => rounded sy (Fixed.pi / 2)
  | .infinity sy, .zero _ => rounded sy (Fixed.pi / 2)
  | .infinity sy, .finite _ _ _ _ => rounded sy (Fixed.pi / 2)
  -- the diagonals at infinity
  | .infinity sy, .infinity .positive => rounded sy (Fixed.pi / 4)
  | .infinity sy, .infinity .negative => rounded sy (3 * Fixed.pi / 4)
  -- inside a quadrant
  | .finite sy my ey _, .finite .positive mx ex _ => rounded sy (firstQuadrant my ey mx ex)
  | .finite sy my ey _, .finite .negative mx ex _ =>
    rounded sy (Fixed.pi - firstQuadrant my ey mx ex)
where
  rounded (sign : UnpackedFloat.Sign) (angle : Int) : Float32 :=
    nearest sign (Fixed.leading angle).1 (Fixed.leading angle).2

/-- Whether `± m · 2 ^ e` is a whole number, and whether it is an odd one. -/
def wholeAndOdd (m : Nat) (e : Int) : Bool × Bool :=
  if 0 ≤ e then (true, e = 0 && m % 2 = 1)
  else
    let unit := 2 ^ (-e).toNat
    (m % unit = 0, m % unit = 0 && m / unit % 2 = 1)

/-- The positive power `(m · 2 ^ e) ^ y` for a fixed-point exponent `y`, with the given sign.
    The result is cut to two hundred places before it is rounded: an exact result, or an exact
    half between two singles, is a short number and is met again there. -/
def positivePower (sign : UnpackedFloat.Sign) (m : Nat) (e : Int) (y : Int) : Float32 :=
  let top := m.log2
  let log := Fixed.logarithm (Fixed.ofExact m (-top)) + (e + top) * Fixed.ln2
  let product := Fixed.mul y log
  let whole := product / Fixed.ln2
  if 200 < whole then pack (.infinity sign)
  else if whole < -200 then pack (.zero sign)
  else
    let mantissa := Fixed.exponential (product - whole * Fixed.ln2)
    let cut := Fixed.places - 200
    nearest sign ((mantissa + 2 ^ (cut - 1)) >>> cut).toNat (whole - 200)

/-- `x` to the power `y`. -/
def pow (x y : Float32) : Float32 :=
  match unpack x, unpack y with
  -- anything to the power zero, and one to any power, is one, even for what is not a number
  | _, .zero _ => 1
  | .notANumber, _ => pack .notANumber
  | _, .notANumber => if x == 1 then 1 else pack .notANumber
  | _, .infinity sy =>
    if x.abs == 1 then 1
    else if (x.abs < 1) = (sy matches .positive) then pack (.zero .positive)
    else pack (.infinity .positive)
  | .zero sx, .finite sy my ey _ =>
    let sign := if (wholeAndOdd my ey).2 then sx else .positive
    if sy matches .positive then pack (.zero sign) else pack (.infinity sign)
  | .infinity sx, .finite sy my ey _ =>
    let sign := if (wholeAndOdd my ey).2 then sx else .positive
    if sy matches .positive then pack (.infinity sign) else pack (.zero sign)
  | .finite .positive mx ex _, .finite sy my ey _ =>
    positivePower .positive mx ex (Fixed.ofUnpacked sy my ey)
  | .finite .negative mx ex _, .finite sy my ey _ =>
    -- a negative base has powers at whole exponents only
    match wholeAndOdd my ey with
    | (false, _) => pack .notANumber
    | (true, odd) =>
      positivePower (if odd then .negative else .positive) mx ex (Fixed.ofUnpacked sy my ey)

end Single

end Relief
