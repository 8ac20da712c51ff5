import Relief.Number.Power

/-!
# Fixed-point approximations of the elementary functions

A real number is held here as an integer multiple of `2 ^ -places`. Everything is plain integer
arithmetic: every step cuts off less than one unit, and every series runs until its terms are
below one unit, so with the places fixed below the errors stay some hundred binary places under
anything a double can tell apart.

* `pi`, `ln2`: the constants, from Machin's formula and from the area tangent of one third;
* `sine`, `cosine`: Taylor series after the argument has been reduced to an eighth of a turn;
* `arctangent`: Euler's series, on `[0, 1]`;
* `exponential`: Taylor series on `[0, ln 2)`;
* `logarithm`: twice the area tangent of `(m - 1) / (m + 1)`, on `[1, 2)`.
-/

namespace Relief.Fixed

/-- Binary places behind the point. Arguments may be as large as `2 ^ 128`, the range of the
    single format, and still leave over two hundred and fifty places after reduction. -/
def places : Nat := 384

/-- The number one. -/
def one : Int := 2 ^ places

/-- The product of two fixed-point numbers, rounded down. -/
def mul (a b : Int) : Int :=
  (a * b) >>> places

/-- The quotient of two fixed-point numbers, rounded down. -/
def div (a b : Int) : Int :=
  (a <<< places) / b

/-- The exact value `± m · 2 ^ e` in fixed point, rounded down where it has more places. -/
def ofExact (m : Nat) (e : Int) : Int :=
  if 0 ≤ e + places then (m : Int) <<< (e + places).toNat
  else (m : Int) >>> (-(e + places)).toNat

/-! ## 1. Series -/

/-- The sum of `term`, `next 1 term`, `next 2 (next 1 term)`, …, up to the first term that is
    zero and to `fuel` terms at most. -/
def series (next : Nat → Int → Int) : (fuel k : Nat) → (term : Int) → Int
  | 0, _, _ => 0
  | fuel + 1, k, term => if term = 0 then 0 else term + series next fuel (k + 1) (next (k + 1) term)

/-- The sum `x - x³/3 + x⁵/5 - …` (`sign = -1`) or `x + x³/3 + x⁵/5 + …` (`sign = 1`), for the
    reciprocal `x` of a natural number. -/
def arcOfReciprocal (sign : Int) (n : Nat) : Int :=
  let rec go : (fuel k : Nat) → (power : Int) → Int
    | 0, _, _ => 0
    | fuel + 1, k, power =>
      if power = 0 then 0
      else power / (2 * k + 1) + go fuel (k + 1) (sign * power / (n * n))
  go places 0 (one / n)

/-- Half a turn: `16 atan (1/5) - 4 atan (1/239)`. -/
def pi : Int :=
  16 * arcOfReciprocal (-1) 5 - 4 * arcOfReciprocal (-1) 239

/-- The natural logarithm of two: `2 atanh (1/3)`. -/
def ln2 : Int :=
  2 * arcOfReciprocal 1 3

/-! ## 2. Sine and cosine -/

/-- The quarter turn nearest to an angle, and what is left of the angle. -/
def reduce (x : Int) : Int × Int :=
  let quarter := (2 * x + pi / 2) / pi
  (quarter, x - quarter * pi / 2)

/-- The sine of an angle of at most an eighth of a turn. -/
def sineSeries (x : Int) : Int :=
  let square := mul x x
  series (fun k term => -(mul term square / (2 * k * (2 * k + 1)))) places 0 x

/-- The cosine of an angle of at most an eighth of a turn. -/
def cosineSeries (x : Int) : Int :=
  let square := mul x x
  series (fun k term => -(mul term square / ((2 * k - 1) * (2 * k)))) places 0 one

/-- Sine and cosine of an angle. -/
def sineCosine (x : Int) : Int × Int :=
  let (quarter, rest) := reduce x
  let s := sineSeries rest
  let c := cosineSeries rest
  match quarter % 4 with
  | 0 => (s, c)
  | 1 => (c, -s)
  | 2 => (-s, -c)
  | _ => (-c, s)

/-! ## 3. Arctangent -/

/-- The arctangent of a ratio `num / den` between zero and one. -/
def arctangent (num den : Nat) : Int :=
  let sum : Int := num * num + den * den
  let first := ((num * den : Nat) : Int) <<< places / sum
  let ratio := ((num * num : Nat) : Int) <<< places / sum
  series (fun k term => mul term ratio * (2 * k) / (2 * k + 1)) (2 * places) 0 first

/-! ## 4. Exponential and logarithm -/

/-- The exponential of a number between zero and `ln 2`. -/
def exponential (x : Int) : Int :=
  series (fun k term => mul term x / k) places 0 one

/-- The natural logarithm of a number between one and two. -/
def logarithm (m : Int) : Int :=
  let z := div (m - one) (m + one)
  let square := mul z z
  let rec go : (fuel k : Nat) → (power : Int) → Int
    | 0, _, _ => 0
    | fuel + 1, k, power =>
      if power = 0 then 0 else power / (2 * k + 1) + go fuel (k + 1) (mul power square)
  2 * go places 0 z

end Relief.Fixed
