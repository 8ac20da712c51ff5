import Relief.Json.Basic

/-!
# The values of JSON numbers

A number that is written with digits only is an integer if it fits a 64-bit word, with or without
sign. Any other is read in double precision: as many leading digits as fit a word are taken for an
integer, which is then multiplied by, or divided by, a power of ten. So the result is not always the
double nearest to what is written. A number beyond the range of doubles has no value.

* `Numeral.number?`: the value of a number;
* `Number.single`, `Number.word?`: what it is as a single, and as a word;
* `Json.single?`, `Json.word?`: the same for a value, and `Json.ofSingle`, `Json.ofWord` back.
-/

namespace Relief

/-- The value of a number. -/
inductive Number where
  | integer (n : Int)
  | float (x : Float)

/-! ## 1. Reading digits -/

/-- Appends digits to a number as long as it fits a word; the rest of the digits is left. -/
def gather (n : Nat) : List Char → Nat × List Char
  | [] => (n, [])
  | c :: rest =>
    let next := 10 * n + (c.toNat - '0'.toNat)
    if next < 2 ^ 64 then gather next rest else (n, c :: rest)

/-- The greatest power of ten that doubles hold. -/
def maxPower : Nat := 308

/-- The double nearest to a power of ten. -/
def powerOfTen (n : Nat) : Float :=
  Double.nearestRatio .positive (10 ^ n) 1

/-- `x · 10 ^ power`, in steps of at most the greatest power of ten. A number that fits a word is
    zero after two such steps down. -/
def shift : (fuel : Nat) → (x : Float) → (power : Int) → Option Float
  | 0, x, _ => some x
  | fuel + 1, x, power =>
    if power.natAbs ≤ maxPower then
      if 0 ≤ power then
        let x := x * powerOfTen power.natAbs
        if x.isInf then none else some x
      else some (x / powerOfTen power.natAbs)
    else if x == 0 then some x
    else if 0 ≤ power then none
    else shift fuel (x / powerOfTen maxPower) (power + maxPower)

/-- The value of a number. The negative zero is no integer. -/
def Numeral.number? (n : Numeral) : Option Number :=
  let (digits, leftOfWhole) := gather 0 n.whole
  let (digits, leftOfFraction) := gather digits n.fraction
  let sign (x : Float) : Number := .float (if n.negative then -x else x)
  let isWhole := n.fraction.isEmpty && n.power.isNone && leftOfWhole.isEmpty
  if isWhole then
    if n.negative then
      if digits = 0 ∨ 2 ^ 63 < digits then some (sign digits.toUInt64.toFloat)
      else some (.integer (-digits))
    else some (.integer digits)
  else
    let places : Int := n.fraction.length - leftOfFraction.length
    (shift 3 digits.toUInt64.toFloat (leftOfWhole.length - places + n.power.getD 0)).map sign

/-! ## 2. Formats -/

/-- A number in single precision, rounded once more where it is a double already. -/
def Number.single : Number → Float32
  | integer n => Single.ofInt n
  | float x => Double.toSingle x

/-- A number as a word. -/
def Number.word? : Number → Option UInt64
  | integer n => if 0 ≤ n ∧ n < 2 ^ 64 then some n.toNat.toUInt64 else none
  | float _ => none

namespace Json

/-- A value as a single. -/
def single? : Json → Option Float32
  | number n => n.number?.map Number.single
  | _ => none

/-- A value as a word. -/
def word? : Json → Option UInt64
  | number n => n.number?.bind Number.word?
  | _ => none

/-- A value as a truth value. -/
def boolean? : Json → Option Bool
  | boolean b => some b
  | _ => none

/-- A value that may be missing. -/
def optional? {α : Type} (read : Json → Option α) : Json → Option (Option α)
  | null => some none
  | j => (read j).map some

/-- Numbers are written without a power of ten from `10 ^ -6` to below `10 ^ 13`. -/
def arrangement : Arrangement where
  plainFrom := -6
  plainTo := 12

/-- The value of a single. One that is no finite number is written as none. -/
def ofSingle (x : Float32) : Json :=
  match Single.numeral? arrangement x with
  | some n => number n
  | none => null

/-- The value of a word. -/
def ofWord (n : UInt64) : Json :=
  number ⟨false, Nat.toDigits 10 n.toNat, [], none⟩

end Json

end Relief
