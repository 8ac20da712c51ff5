import Relief.Number.Exact

/-!
# Decimal texts of numbers

Writing a single: the fewest decimal digits that read back as the same number, and of those the
nearest. `Decimal.shortest` chooses the digits, by testing the two neighbours of the number on the
grids of one digit, two digits, …; `Decimal.arrange` makes a numeral of them, and `Single.text` the
text of one.

Reading a number: `readSingle?` takes a decimal text, an infinity or "nan", as people type them,
to the nearest single; `readNat?` and `readInt?` read whole numbers.
-/

namespace Relief

open Float.Model (UnpackedFloat)

/-- The number `digits · 10 ^ exponent`. -/
structure Decimal where
  digits : Nat
  exponent : Int
  deriving DecidableEq, Repr

namespace Decimal

/-! ## 1. Choosing the digits -/

/-- An exact positive number as a quotient, with the ends of the interval of all numbers that are
    rounded to it. The ends belong to the interval exactly if `closed`. -/
structure Target where
  value : Nat
  lower : Nat
  upper : Nat
  /-- The common denominator of the three. -/
  unit : Nat
  closed : Bool

/-- The interval around `m · 2 ^ e` in a format whose mantissas have `precision` bits and whose
    least exponent is `least`. Just above a power of two the numbers are twice as far apart as
    just below it. -/
def Target.ofExact (precision : Nat) (least : Int) (m : Nat) (e : Int) : Target :=
  let narrow := m = 2 ^ (precision - 1) && least < e
  let scale := 2 ^ e.toNat
  { value := 4 * m * scale
    lower := (4 * m - if narrow then 1 else 2) * scale
    upper := (4 * m + 2) * scale
    unit := 4 * 2 ^ (-e).toNat
    closed := m % 2 = 0 }

/-- Whether `num / den` lies in the interval. -/
def Target.contains (t : Target) (num den : Nat) : Bool :=
  if t.closed then t.lower * den ≤ num * t.unit && num * t.unit ≤ t.upper * den
  else t.lower * den < num * t.unit && num * t.unit < t.upper * den

/-- `digits · 10 ^ exponent` as a quotient. -/
def ratio (d : Decimal) : Nat × Nat :=
  (d.digits * 10 ^ d.exponent.toNat, 10 ^ (-d.exponent).toNat)

/-- Whether a decimal lies in the interval. -/
def isIn (d : Decimal) (t : Target) : Bool :=
  t.contains d.ratio.1 d.ratio.2

/-- The multiples of `10 ^ exponent` on both sides of the value: the greatest that is not above
    it, and the next one. -/
def neighbours (t : Target) (exponent : Int) : Decimal × Decimal :=
  let low := t.value * 10 ^ (-exponent).toNat / (t.unit * 10 ^ exponent.toNat)
  (⟨low, exponent⟩, ⟨low + 1, exponent⟩)

/-- Whether the upper of two neighbours on a grid is at least as near to the value as the lower. -/
def upperIsNear (t : Target) (low : Decimal) : Bool :=
  let grid := t.unit * 10 ^ low.exponent.toNat
  (2 * low.digits + 1) * grid ≤ 2 * t.value * 10 ^ (-low.exponent).toNat

/-- The decimal with the fewest digits in the interval, and of those the nearest to the value,
    trying `fuel` grids from `10 ^ exponent` downwards. Between two equally near ones the upper
    is taken. -/
def search (t : Target) : (fuel : Nat) → (exponent : Int) → Decimal
  | 0, exponent => (neighbours t exponent).1
  | fuel + 1, exponent =>
    let (low, high) := neighbours t exponent
    match low.isIn t, high.isIn t with
    | true, true => if upperIsNear t low then high else low
    | true, false => low
    | false, true => high
    | false, false => search t fuel (exponent - 1)

/-- A power of ten above `num / den`. -/
def topExponent (num den : Nat) : Int :=
  ((Nat.toDigits 10 num).length : Int) - (Nat.toDigits 10 den).length + 1

/-- Takes the zeros off the end of the digits. -/
def trimmed : (fuel : Nat) → Decimal → Decimal
  | 0, d => d
  | fuel + 1, d => if d.digits % 10 = 0 then trimmed fuel ⟨d.digits / 10, d.exponent + 1⟩ else d

/-- The shortest decimal that is rounded to `m · 2 ^ e`, the nearest of those. -/
def shortest (precision : Nat) (least : Int) (m : Nat) (e : Int) : Decimal :=
  let t := Target.ofExact precision least m e
  trimmed precision (search t (precision + 2) (topExponent t.value t.unit))

/-! ## 2. Arranging them -/

end Decimal

/-- A number as it is written in digits. -/
structure Numeral where
  /-- Whether there is a minus sign in front. -/
  negative : Bool
  /-- The digits before the point. -/
  whole : List Char
  /-- The digits behind the point; no point is written if there are none. -/
  fraction : List Char
  /-- The power of ten that the number is multiplied by, if one is written. -/
  power : Option Int
  deriving DecidableEq, Repr

/-- The text of a numeral. -/
def Numeral.text (n : Numeral) : String :=
  let sign := if n.negative then "-" else ""
  let fraction := if n.fraction.isEmpty then [] else '.' :: n.fraction
  let power := match n.power with
    | none => ""
    | some power => "e" ++ toString power
  sign ++ String.ofList (n.whole ++ fraction) ++ power

/-- How the digits of numbers are arranged. -/
structure Arrangement where
  /-- The least and the greatest place of the first digit, counted from the ones, at which no power
      of ten is written. -/
  plainFrom : Int
  plainTo : Int

/-- The numeral of a decimal. Without a power of ten, there is at least one digit before the point
    and one behind it; with one, there is one digit before the point. -/
def Decimal.arrange (a : Arrangement) (negative : Bool) (d : Decimal) : Numeral :=
  let digits := Nat.toDigits 10 d.digits
  let point : Int := digits.length + d.exponent
  if a.plainFrom ≤ point - 1 ∧ point - 1 ≤ a.plainTo then
    if point ≤ 0 then ⟨negative, ['0'], List.replicate (-point).toNat '0' ++ digits, none⟩
    else if digits.length ≤ point.toNat then
      ⟨negative, digits ++ List.replicate (point.toNat - digits.length) '0', ['0'], none⟩
    else ⟨negative, digits.take point.toNat, digits.drop point.toNat, none⟩
  else ⟨negative, digits.take 1, digits.drop 1, some (point - 1)⟩

/-- The numeral of a finite single: the fewest digits that read back. -/
def Single.numeral? (a : Arrangement) (x : Float32) : Option Numeral :=
  match Single.unpack x with
  | .finite sign m e _ =>
    some ((Decimal.shortest 24 (-149) m e).arrange a (sign matches .negative))
  | .zero sign => some ⟨sign matches .negative, ['0'], ['0'], none⟩
  | _ => none

/-- Numbers are written without a power of ten from `0.0001` to below `10 ^ 16`. -/
def Single.arrangement : Arrangement where
  plainFrom := -4
  plainTo := 15

/-- The text of a single, always with a point or a power of ten. -/
def Single.text (x : Float32) : String :=
  match Single.numeral? Single.arrangement x with
  | some n => n.text
  | none => if x.isNaN then "NaN" else if x < 0 then "-inf" else "inf"

/-! ## 3. Reading -/

/-- The value of a run of decimal digits. -/
def digitsValue (digits : List Char) : Nat :=
  digits.foldl (fun n c => 10 * n + (c.toNat - '0'.toNat)) 0

/-- A run of digits and nothing else, at least one. -/
def readDigits? (text : List Char) : Option Nat :=
  if text ≠ [] ∧ text.all Char.isDigit then some (digitsValue text) else none

/-- The natural number written by a text: digits, with a plus sign in front if one likes. -/
def readNat? (text : List Char) : Option Nat :=
  match text with
  | '+' :: rest => readDigits? rest
  | _ => readDigits? text

/-- The integer written by a text: digits, with a sign in front if one likes. -/
def readInt? (text : List Char) : Option Int :=
  match text with
  | '-' :: rest => (readDigits? rest).map fun n => -(n : Int)
  | _ => (readNat? text).map Int.ofNat

/-- Splits a sign off the front of a text. -/
def splitSign (text : List Char) : UnpackedFloat.Sign × List Char :=
  match text with
  | '-' :: rest => (.negative, rest)
  | '+' :: rest => (.positive, rest)
  | _ => (.positive, text)

/-- The decimal written by digits with a point among them and a power of ten behind them; a point
    needs a digit on one side at least. -/
def readDecimal? (text : List Char) : Option Decimal :=
  let (whole, rest) := text.span Char.isDigit
  let (fraction, rest) := match rest with
    | '.' :: rest => rest.span Char.isDigit
    | _ => ([], rest)
  if whole.isEmpty && fraction.isEmpty then none
  else
    let digits := digitsValue (whole ++ fraction)
    match rest with
    | [] => some ⟨digits, -fraction.length⟩
    | c :: rest =>
      if c = 'e' ∨ c = 'E' then (readInt? rest).map fun power => ⟨digits, power - fraction.length⟩
      else none

/-- The single nearest to `± digits · 10 ^ exponent`. Past the exponents below it is an infinity
    or a zero, whatever the digits. -/
def Decimal.toSingle (sign : UnpackedFloat.Sign) (d : Decimal) : Float32 :=
  let length : Int := (Nat.toDigits 10 d.digits).length
  if d.digits = 0 ∨ d.exponent + length < -60 then Single.pack (.zero sign)
  else if 60 < d.exponent + length then Single.pack (.infinity sign)
  else if 0 ≤ d.exponent then Single.nearestRatio sign (d.digits * 10 ^ d.exponent.toNat) 1
  else Single.nearestRatio sign d.digits (10 ^ (-d.exponent).toNat)

/-- The single written by a text: a decimal, "inf", "infinity" or "nan", in small or capital
    letters, with a sign in front if one likes. -/
def readSingle? (text : List Char) : Option Float32 :=
  let (sign, rest) := splitSign text
  let word := String.ofList (rest.map Char.toLower)
  if word = "nan" then some (Single.pack .notANumber)
  else if word = "inf" ∨ word = "infinity" then some (Single.pack (.infinity sign))
  else (readDecimal? rest).map (Decimal.toSingle sign)

end Relief
