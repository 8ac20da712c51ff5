import Relief.Proofs.Number.Shortest
import Relief.Proofs.Number.Singles

/-!
# Numerals

The text of a number, and what can be read off it.

* `Numeral.IsLiteral`: digits, and a point or a power of ten among or behind them;
* `Numeral.decimal`, `value_decimal_arrange`: the decimal that a numeral stands for, and that
  arranging the digits of a decimal keeps its value;
* `readDecimal?_text`: **the text of a numeral reads back as its decimal**;
* `Single.text_injective`: so **no two finite singles have the same text**.
-/

namespace Relief

/-! ## 1. Digits -/

theorem digitsValue_eq (digits : List Char) : digitsValue digits = Nat.ofDigitChars 10 digits 0 := rfl

theorem digitsValue_toDigits (n : ℕ) : digitsValue (Nat.toDigits 10 n) = n :=
  Nat.ofDigitChars_ten_toDigits

/-- Zeros at the front add nothing. -/
theorem digitsValue_zeros_append (n : ℕ) (digits : List Char) :
    digitsValue (List.replicate n '0' ++ digits) = digitsValue digits := by
  rw [digitsValue_eq, Nat.ofDigitChars_append, Nat.ofDigitChars_replicate_zero, Nat.mul_zero]
  rfl

/-- Zeros at the end multiply by powers of ten. -/
theorem digitsValue_append_zeros (n : ℕ) (digits : List Char) :
    digitsValue (digits ++ List.replicate n '0') = 10 ^ n * digitsValue digits := by
  rw [digitsValue_eq, Nat.ofDigitChars_append, Nat.ofDigitChars_replicate_zero]
  rfl

theorem isDigit_toDigits {n : ℕ} : ∀ c ∈ Nat.toDigits 10 n, c.isDigit = true := fun _ hc =>
  Nat.isDigit_of_mem_toDigits (by norm_num) (by norm_num) hc

/-- What stands before the first character of another kind. -/
theorem span_append {p : Char → Bool} {front rest : List Char} (hf : ∀ c ∈ front, p c = true)
    (hr : ∀ c ∈ rest.head?, p c = false) : (front ++ rest).span p = (front, rest) := by
  have stops : rest.takeWhile p = [] ∧ rest.dropWhile p = rest := by
    cases rest with
    | nil => exact ⟨rfl, rfl⟩
    | cons c rest =>
      have hc := hr c rfl
      exact ⟨List.takeWhile_cons_of_neg (by simp [hc]), List.dropWhile_cons_of_neg (by simp [hc])⟩
  rw [List.span_eq_takeWhile_dropWhile, List.takeWhile_append_of_pos hf,
    List.dropWhile_append_of_pos hf, stops.1, stops.2, List.append_nil]

theorem readDigits?_toDigits (n : ℕ) : readDigits? (Nat.toDigits 10 n) = some n := by
  have digits : (Nat.toDigits 10 n).all Char.isDigit = true :=
    List.all_eq_true.mpr isDigit_toDigits
  rw [readDigits?, if_pos ⟨Nat.toDigits_ne_nil, digits⟩, digitsValue_toDigits]

/-- Digits do not begin with a sign. -/
theorem ne_sign_of_digits {digits : List Char} (h : ∀ c ∈ digits, c.isDigit = true) (rest : List Char) :
    digits ≠ '-' :: rest ∧ digits ≠ '+' :: rest := by
  constructor <;>
  · rintro rfl
    exact absurd (h _ List.mem_cons_self) (by decide)

theorem toList_toString_int (i : ℤ) : (toString i).toList
    = if 0 ≤ i then Nat.toDigits 10 i.toNat else '-' :: Nat.toDigits 10 (-i).toNat := by
  rw [Int.toString_eq_repr, Int.repr_eq_if]
  split
  · exact Nat.toList_repr
  · rw [String.toList_append, Nat.toList_repr]
    rfl

/-- Digits without a sign read as a natural number. -/
theorem readInt?_toDigits (n : ℕ) : readInt? (Nat.toDigits 10 n) = some (n : ℤ) := by
  unfold readInt? readNat?
  split
  · rename_i rest h
    exact absurd h (ne_sign_of_digits isDigit_toDigits rest).1
  · split
    · rename_i rest h
      exact absurd h (ne_sign_of_digits isDigit_toDigits rest).2
    · rw [readDigits?_toDigits]
      rfl

/-- Digits behind a minus read as the negative. -/
theorem readInt?_minus (n : ℕ) : readInt? ('-' :: Nat.toDigits 10 n) = some (-(n : ℤ)) := by
  simp only [readInt?, readDigits?_toDigits]
  rfl

/-- **The text of an integer reads back.** -/
theorem readInt?_toString (i : ℤ) : readInt? (toString i).toList = some i := by
  rw [toList_toString_int]
  split
  · rw [readInt?_toDigits, Option.some.injEq]
    omega
  · rw [readInt?_minus, Option.some.injEq]
    omega

/-! ## 2. Numerals -/

namespace Numeral

/-- A numeral as it is written: digits before the point, and a point with digits behind it or a
    power of ten. -/
structure IsLiteral (n : Numeral) : Prop where
  whole : n.whole ≠ []
  digits : ∀ c ∈ n.whole ++ n.fraction, c.isDigit = true
  marked : n.fraction ≠ [] ∨ n.power.isSome

/-- The decimal that a numeral stands for, apart from its sign. -/
def decimal (n : Numeral) : Decimal :=
  ⟨digitsValue (n.whole ++ n.fraction), n.power.getD 0 - n.fraction.length⟩

/-- What follows the sign. -/
def body (n : Numeral) : List Char :=
  n.whole ++ ((if n.fraction.isEmpty then [] else '.' :: n.fraction) ++
    match n.power with
    | none => []
    | some power => 'e' :: (toString power).toList)

theorem toList_text (n : Numeral) :
    n.text.toList = (if n.negative then ['-'] else []) ++ n.body := by
  unfold text body
  cases n.negative <;> cases n.power <;> simp [String.toList_append]

variable {n : Numeral}

theorem IsLiteral.whole_digits (h : n.IsLiteral) : ∀ c ∈ n.whole, c.isDigit = true :=
  fun c hc => h.digits c (List.mem_append_left _ hc)

theorem IsLiteral.fraction_digits (h : n.IsLiteral) : ∀ c ∈ n.fraction, c.isDigit = true :=
  fun c hc => h.digits c (List.mem_append_right _ hc)

theorem IsLiteral.exists_digit (h : n.IsLiteral) :
    ∃ c rest, n.body = c :: rest ∧ c.isDigit = true := by
  obtain ⟨c, rest, hw⟩ := List.exists_cons_of_ne_nil h.whole
  have hc : c.isDigit = true := h.whole_digits c (hw ▸ List.mem_cons_self)
  rw [body, hw]
  exact ⟨c, _, rfl, hc⟩

/-- **The sign of a numeral is split off its text.** -/
theorem splitSign_text (h : n.IsLiteral) :
    splitSign n.text.toList = (if n.negative then .negative else .positive, n.body) := by
  obtain ⟨c, rest, hb, hc⟩ := h.exists_digit
  rw [toList_text, hb]
  cases n.negative with
  | true => rfl
  | false =>
    unfold splitSign
    split
    · rename_i rest' e
      cases e
      exact absurd hc (by decide)
    · rename_i rest' e
      cases e
      exact absurd hc (by decide)
    · rfl

/-- **What follows the sign reads back as the decimal.** -/
theorem readDecimal?_body (h : n.IsLiteral) : readDecimal? n.body = some n.decimal := by
  have start : n.whole.isEmpty = false := List.isEmpty_eq_false_iff.mpr h.whole
  have whole : ∀ rest : List Char, (∀ c ∈ rest.head?, c.isDigit = false) →
      (n.whole ++ rest).span Char.isDigit = (n.whole, rest) := fun _ =>
    span_append h.whole_digits
  have fraction : ∀ rest : List Char, (∀ c ∈ rest.head?, c.isDigit = false) →
      (n.fraction ++ rest).span Char.isDigit = (n.fraction, rest) := fun _ =>
    span_append h.fraction_digits
  have read : ∀ power : ℤ, readInt? (toString power).toList = some power := readInt?_toString
  unfold readDecimal? body decimal
  cases hf : n.fraction.isEmpty with
  | true =>
    have empty : n.fraction = [] := List.isEmpty_iff.mp hf
    rw [if_pos rfl, List.nil_append, empty, List.append_nil]
    cases n.power with
    | none =>
      rw [whole [] (by simp)]
      simp [start]
    | some power =>
      rw [whole ('e' :: (toString power).toList) (by simp)]
      simp [start, read, -Int.toString_eq_repr]
  | false =>
    rw [if_neg Bool.false_ne_true, List.cons_append]
    cases n.power with
    | none =>
      rw [whole _ (by simp)]
      simp only [fraction [] (by simp), start, Bool.false_and, Bool.false_eq_true, if_false,
        Option.getD_none, zero_sub]
    | some power =>
      rw [whole _ (by simp)]
      simp only [fraction ('e' :: (toString power).toList) (by simp), start, read, Bool.false_and,
        Bool.false_eq_true, if_false, true_or, if_true, Option.map_some, Option.getD_some]

end Numeral

/-! ## 3. Arranging digits -/

section Arrange

variable (a : Arrangement) (negative : Bool) (d : Decimal)

theorem negative_arrange : (d.arrange a negative).negative = negative := by
  unfold Decimal.arrange
  dsimp only
  split_ifs <;> rfl

/-- **The digits of a decimal are arranged as a numeral.** -/
theorem isLiteral_arrange : (d.arrange a negative).IsLiteral := by
  have some_ : Nat.toDigits 10 d.digits ≠ [] := Nat.toDigits_ne_nil
  have digits := isDigit_toDigits (n := d.digits)
  have zero : ∀ n, ∀ c ∈ List.replicate n '0', c.isDigit = true := by
    intro n c hc
    rw [List.eq_of_mem_replicate hc]
    decide
  unfold Decimal.arrange
  dsimp only
  split_ifs with plain small large
  · refine ⟨by simp, fun c hc => ?_, .inl (by simp [some_])⟩
    rcases List.mem_append.mp hc with hc | hc
    · rw [List.mem_singleton.mp hc]
      decide
    · rcases List.mem_append.mp hc with hc | hc
      · exact zero _ c hc
      · exact digits c hc
  · refine ⟨by simp [some_], fun c hc => ?_, .inl (by simp)⟩
    rcases List.mem_append.mp hc with hc | hc
    · rcases List.mem_append.mp hc with hc | hc
      · exact digits c hc
      · exact zero _ c hc
    · rw [List.mem_singleton.mp hc]
      decide
  · have inside : 0 < Int.toNat ((Nat.toDigits 10 d.digits).length + d.exponent) := by omega
    refine ⟨?_, fun c hc => digits c ?_, .inl ?_⟩
    · rw [Ne, List.take_eq_nil_iff, not_or]
      exact ⟨by omega, some_⟩
    · rwa [List.take_append_drop] at hc
    · rw [Ne, List.drop_eq_nil_iff]
      omega
  · refine ⟨?_, fun c hc => digits c ?_, .inr rfl⟩
    · rw [Ne, List.take_eq_nil_iff, not_or]
      exact ⟨one_ne_zero, some_⟩
    · rwa [List.take_append_drop] at hc

/-- A zero before the point, and more of them before the digits. -/
theorem digitsValue_leading_zeros (zeros digits : ℕ) :
    digitsValue (['0'] ++ (List.replicate zeros '0' ++ Nat.toDigits 10 digits)) = digits := by
  rw [show ['0'] = List.replicate 1 '0' from rfl, digitsValue_zeros_append,
    digitsValue_zeros_append, digitsValue_toDigits]

/-- Zeros behind the digits, and one more behind the point. -/
theorem digitsValue_trailing_zeros (zeros digits : ℕ) :
    digitsValue ((Nat.toDigits 10 digits ++ List.replicate zeros '0') ++ ['0'])
      = 10 ^ (zeros + 1) * digits := by
  rw [List.append_assoc, show ['0'] = List.replicate 1 '0' from rfl,
    List.replicate_append_replicate, digitsValue_append_zeros, digitsValue_toDigits]

/-- **Arranging the digits of a decimal keeps its value.** -/
theorem value_decimal_arrange : (d.arrange a negative).decimal.value = d.value := by
  have length := Nat.length_toDigits_pos (b := 10) (n := d.digits)
  -- a decimal that differs only in how the numeral is written
  have same : ∀ e : ℤ, e = d.exponent → (Decimal.mk d.digits e).value = d.value := by
    rintro e rfl
    rfl
  unfold Decimal.arrange Numeral.decimal
  dsimp only
  split_ifs with plain small large
  · rw [digitsValue_leading_zeros]
    refine same _ ?_
    rw [List.length_append, List.length_replicate]
    simp only [Option.getD_none]
    omega
  · rw [digitsValue_trailing_zeros]
    have zeros : (((Nat.toDigits 10 d.digits).length + d.exponent : ℤ).toNat
        - (Nat.toDigits 10 d.digits).length) + 1 = d.exponent.toNat + 1 := by omega
    have whole : d.exponent = (d.exponent.toNat : ℤ) := by omega
    rw [zeros]
    simp only [Decimal.value, Option.getD_none, List.length_singleton]
    rw [whole, zpow_natCast]
    push_cast
    rw [zpow_neg_one, Int.toNat_natCast, pow_succ]
    field_simp
  · rw [List.take_append_drop, digitsValue_toDigits]
    refine same _ ?_
    rw [List.length_drop]
    simp only [Option.getD_none]
    omega
  · rw [List.take_append_drop, digitsValue_toDigits]
    refine same _ ?_
    rw [List.length_drop]
    simp only [Option.getD_some]
    omega

end Arrange

/-! ## 4. Singles -/

namespace Single

open Float.Model (UnpackedFloat)
open Float.Model.UnpackedFloat (Sign)

/-- A canonical mantissa and exponent is one of the format of singles. -/
theorem Canonical.isCanonical {m : ℕ} {e : ℤ} (c : Canonical m e) :
    Decimal.IsCanonical 24 (-149) m e :=
  ⟨c.pos, c.lt, c.le, c.full⟩

/-- Whether a sign is written. -/
def isMinus : Sign → Bool
  | .negative => true
  | .positive => false

theorem numeral?_zero (a : Arrangement) {x : Float32} {s : Sign} (h : unpack x = .zero s) :
    numeral? a x = some ⟨isMinus s, ['0'], ['0'], none⟩ := by
  rw [numeral?, h]
  cases s <;> rfl

theorem numeral?_finite (a : Arrangement) {x : Float32} {s : Sign} {m : ℕ} {e : ℤ} {hm : 0 < m}
    (h : unpack x = .finite s m e hm) :
    numeral? a x = some ((Decimal.shortest 24 (-149) m e).arrange a (isMinus s)) := by
  rw [numeral?, h]
  cases s <;> rfl

theorem isLiteral_zero (negative : Bool) : (Numeral.mk negative ['0'] ['0'] none).IsLiteral := by
  refine ⟨List.cons_ne_nil _ _, fun c hc => ?_, .inl (List.cons_ne_nil _ _)⟩
  obtain rfl : c = '0' := by simpa using hc
  decide

/-- Whatever numeral a single has is a literal. -/
theorem isLiteral_of_numeral? {a : Arrangement} {x : Float32} {n : Numeral}
    (h : numeral? a x = some n) : n.IsLiteral := by
  unfold numeral? at h
  split at h
  · cases h
    exact isLiteral_arrange _ _ _
  · cases h
    exact isLiteral_zero _
  · cases h

/-- **The numeral of a finite single**: the text is that of a literal, whose decimal is zero for a
    zero and has the value of the shortest decimal otherwise. -/
theorem exists_numeral {x : Float32} (h : x.isFinite = true) :
    ∃ n : Numeral, text x = n.text ∧ n.IsLiteral ∧
      ((∃ s, unpack x = .zero s ∧ n.negative = isMinus s ∧ n.decimal.value = 0) ∨
        ∃ s m e, ∃ c : Canonical m e, unpack x = .finite s m e c.pos ∧ n.negative = isMinus s ∧
          n.decimal.value = (Decimal.shortest 24 (-149) m e).value) := by
  rcases exists_finite h with ⟨s, hx⟩ | ⟨s, m, e, c, hx⟩
  · refine ⟨⟨isMinus s, ['0'], ['0'], none⟩, by rw [text, numeral?_zero arrangement hx],
      isLiteral_zero _, .inl ⟨s, hx, rfl, ?_⟩⟩
    simp [Numeral.decimal, Decimal.value, digitsValue]
  · have numeral := numeral?_finite arrangement hx
    generalize hd : Decimal.shortest 24 (-149) m e = d at numeral
    refine ⟨d.arrange arrangement (isMinus s), by rw [text, numeral], isLiteral_arrange _ _ _,
      .inr ⟨s, m, e, c, hx, negative_arrange _ _ _, ?_⟩⟩
    rw [value_decimal_arrange, hd]

theorem sign_eq {s s' : Sign} (h : (if isMinus s then Sign.negative else .positive)
    = if isMinus s' then Sign.negative else .positive) : s = s' := by
  cases s <;> cases s' <;> first | rfl | cases h

/-- The shortest decimal of a number is not zero. -/
theorem value_shortest_pos {m : ℕ} {e : ℤ} (c : Canonical m e) :
    0 < (Decimal.shortest 24 (-149) m e).value := by
  have holds : (Decimal.Target.ofExact 24 (-149) m e).Holds (Decimal.shortest 24 (-149) m e).value :=
    Decimal.holds_shortest (by norm_num) c.pos c.lt
  have gap := Decimal.gap_le 24 (-149) m e
  have one : (1 : ℚ) ≤ m := by exact_mod_cast c.pos
  have place : (0 : ℚ) < 2 ^ e := by positivity
  exact lt_of_lt_of_le (mul_pos (by linarith) place) (holds.between c.pos).1

/-- **No two finite singles have the same text.** -/
theorem text_injective {x y : Float32} (hx : x.isFinite = true) (hy : y.isFinite = true)
    (h : text x = text y) : x = y := by
  obtain ⟨n, ex, ln, fx⟩ := exists_numeral hx
  obtain ⟨n', ey, ln', fy⟩ := exists_numeral hy
  rw [ex, ey] at h
  -- sign and decimal can be read off the text
  have split : (if n.negative then Sign.negative else .positive, n.body)
      = (if n'.negative then Sign.negative else .positive, n'.body) := by
    rw [← Numeral.splitSign_text ln, ← Numeral.splitSign_text ln', h]
  obtain ⟨signs, bodies⟩ := Prod.mk.inj split
  have decimals : n.decimal = n'.decimal := by
    have read := Numeral.readDecimal?_body ln
    rw [bodies, Numeral.readDecimal?_body ln'] at read
    exact (Option.some.inj read).symm
  apply unpack_injective
  rcases fx with ⟨s, ux, nx, vx⟩ | ⟨s, m, e, c, ux, nx, vx⟩ <;>
    rcases fy with ⟨s', uy, ny, vy⟩ | ⟨s', m', e', c', uy, ny, vy⟩
  · rw [nx, ny] at signs
    rw [ux, uy, sign_eq signs]
  · rw [decimals, vy] at vx
    exact absurd vx (value_shortest_pos c').ne'
  · rw [decimals, vy] at vx
    exact absurd vx.symm (value_shortest_pos c).ne'
  · rw [nx, ny] at signs
    rw [decimals, vy] at vx
    obtain ⟨rfl, rfl⟩ :=
      Decimal.eq_of_value_eq (by norm_num) c.isCanonical c'.isCanonical vx.symm
    rw [ux, uy, sign_eq signs]

end Single

end Relief
