import Relief.Number.Whole
import Relief.Proofs.Number.Away
import Relief.Proofs.Number.Dyadic

/-!
# Rounding in double precision

* `Is.round`: **`Double.round` gives the nearest whole number exactly**;
* `Is.ceilNat_eq`: **`Double.ceilNat` gives the least natural number that is not below**;
* `Is.truncate`, `Is.ceilNat`: whole numbers are their own whole part.
-/

namespace Relief.Double

open Float.Model (UnpackedFloat)
open Int (away)

variable {x : Float} {q : ℚ}

/-! ## 1. Literals -/

/-- A literal that is a word has the value of the word. -/
theorem is_literal {n : UInt64} (same : x = n.toFloat) (hn : n.toNat < 2 ^ 53) : Is x n.toNat := by
  rw [same]
  exact is_ofNat hn

theorem is_zero : Is 0 0 := by
  have exact := is_literal (x := 0) (n := 0) (by decide +kernel) (by decide)
  exact_mod_cast exact

theorem is_one : Is 1 1 := by
  have exact := is_literal (x := 1) (n := 1) (by decide +kernel) (by decide)
  exact_mod_cast exact

theorem is_half : Is 0.5 (1 / 2) := by
  have canonical : Canonical (2 ^ 52) (-53) := ⟨by norm_num, by norm_num, by norm_num, by norm_num,
    .inl (le_refl _)⟩
  have same : (0.5 : Float) = pack (.finite .positive (2 ^ 52) (-53) (by norm_num)) := by
    decide +kernel
  have exact := is_pack (.finite .positive canonical)
  have value : valueOf (.finite .positive (2 ^ 52) (-53) canonical.pos) = 1 / 2 := by
    show (((2 ^ 52 : ℕ) : ℤ) : ℚ) * 2 ^ (-53 : ℤ) = 1 / 2
    norm_num
  rw [value] at exact
  rwa [same]

/-- The first number from which on all are whole. -/
theorem is_two_pow : Is 4503599627370496 (2 ^ 52) := by
  have exact := is_literal (x := 4503599627370496) (n := 4503599627370496) (by decide +kernel)
    (by decide)
  have value : ((4503599627370496 : UInt64).toNat : ℚ) = 2 ^ 52 := by
    rw [show (4503599627370496 : UInt64).toNat = 4503599627370496 from rfl]
    norm_num
  rwa [value] at exact

/-! ## 2. Parts of a number -/

/-- The magnitude of an exact number is a short multiple of a power of two. -/
theorem Is.dyadic (hx : Is x q) :
    ∃ (m : ℕ) (e : ℤ), |q| = m * 2 ^ e ∧ m < 2 ^ 53 ∧ -1074 ≤ e ∧ e ≤ 971 := by
  obtain ⟨exact, value⟩ := hx.abs
  rw [← value]
  obtain ⟨exact', -⟩ := hx
  show ∃ (m : ℕ) (e : ℤ), valueOf (unpack x.abs) = _ ∧ _
  have abs : unpack x.abs = (unpack x).abs := unpack_pack exact'.abs.1
  rw [abs]
  generalize unpack x = u at exact' ⊢
  cases exact' with
  | zero s => exact ⟨0, 0, by simp [valueOf, UnpackedFloat.abs], by norm_num⟩
  | @finite s m e hm => exact ⟨m, e, rfl, hm.lt, hm.le, hm.le'⟩

/-- What is behind the point of an exact number fits the format. -/
theorem Is.fits_fract (hx : Is x q) : Fits (|q| - ⌊|q|⌋₊) := by
  obtain ⟨m, e, value, lt, le, le'⟩ := hx.dyadic
  rw [value]
  rcases Int.eq_nat_or_neg e with ⟨k, rfl | rfl⟩
  · have whole : (m : ℚ) * 2 ^ (k : ℤ) = ((m * 2 ^ k : ℕ) : ℚ) := by
      push_cast
      rw [zpow_natCast]
    rw [whole, Nat.floor_natCast, sub_self]
    exact .inl rfl
  · have quotient : (m : ℚ) * 2 ^ (-(k : ℤ)) = (m : ℚ) / ((2 ^ k : ℕ) : ℚ) := by
      push_cast
      rw [zpow_neg, zpow_natCast, div_eq_mul_inv]
    have rest : (m : ℚ) / ((2 ^ k : ℕ) : ℚ) - (m / 2 ^ k : ℕ)
        = ((m % 2 ^ k : ℕ) : ℤ) * 2 ^ (-(k : ℤ)) := by
      have split : (m : ℚ) = ((2 ^ k : ℕ) : ℚ) * (m / 2 ^ k : ℕ) + (m % 2 ^ k : ℕ) := by
        exact_mod_cast (Nat.div_add_mod m (2 ^ k)).symm
      generalize m / 2 ^ k = a at split ⊢
      generalize m % 2 ^ k = b at split ⊢
      rw [Int.cast_natCast, zpow_neg, zpow_natCast, split]
      push_cast
      field_simp
      ring
    rw [quotient, Nat.floor_div_eq_div, rest]
    refine fits_of_lt ?_ le le'
    rw [Int.natAbs_natCast]
    exact (Nat.mod_le m _).trans_lt lt

/-- A number that is not small is whole. -/
theorem Is.whole_of_le (hx : Is x q) (h : 2 ^ 52 ≤ |q|) : ∃ n : ℤ, q = n := by
  obtain ⟨m, e, value, lt, le, le'⟩ := hx.dyadic
  have positive : 0 ≤ e := by
    by_contra negative
    have : (m : ℚ) * 2 ^ e < 2 ^ 52 :=
      calc (m : ℚ) * 2 ^ e ≤ m * 2 ^ (-1 : ℤ) :=
            mul_le_mul_of_nonneg_left (zpow_le_zpow_right₀ (by norm_num) (by omega))
              (Nat.cast_nonneg m)
        _ < 2 ^ 53 * 2 ^ (-1 : ℤ) :=
            mul_lt_mul_of_pos_right (by exact_mod_cast lt) (by positivity)
        _ = 2 ^ 52 := by norm_num
    linarith
  obtain ⟨k, rfl⟩ := Int.eq_ofNat_of_zero_le positive
  have whole : |q| = ((m * 2 ^ k : ℕ) : ℤ) := by
    rw [value, zpow_natCast]
    push_cast
    rfl
  rcases abs_choice q with same | same
  · exact ⟨_, same ▸ whole⟩
  · refine ⟨-((m * 2 ^ k : ℕ) : ℤ), ?_⟩
    rw [Int.cast_neg, ← whole, same, neg_neg]

theorem Is.wholePart (hx : Is x q) (h : |q| < 2 ^ 53) :
    (wholePart x).toNat = ⌊|q|⌋₊ ∧ Is (wholePart x).toFloat ⌊|q|⌋₊ := by
  have part : (Double.wholePart x).toNat = ⌊|q|⌋₊ :=
    hx.abs.toUInt64 (abs_nonneg q) (h.trans (by norm_num))
  have short : ⌊|q|⌋₊ < 2 ^ 53 := (Nat.floor_lt (abs_nonneg q)).mpr (by exact_mod_cast h)
  refine ⟨part, ?_⟩
  have exact : Is (Double.wholePart x).toFloat (Double.wholePart x).toNat :=
    is_ofNat (by rwa [part])
  rwa [part] at exact

/-! ## 3. Rounding -/

theorem Is.withSign {m : Float} {p : ℚ} (hx : Is x q) (hm : Is m p) (zero : q = 0 → p = 0) :
    Is (withSign x m) (if q < 0 then -p else p) := by
  unfold Double.withSign
  rcases eq_or_ne q 0 with rfl | nonzero
  · obtain rfl := zero rfl
    have negated := hm.neg
    rw [neg_zero] at negated
    rw [if_neg (lt_irrefl _)]
    split
    · exact negated
    · exact hm
  · by_cases negative : q < 0
    · rw [if_pos ((hx.isNegative_iff nonzero).mpr negative), if_pos negative]
      exact hm.neg
    · rw [if_neg fun h => negative ((hx.isNegative_iff nonzero).mp h), if_neg negative]
      exact hm

theorem away_eq (q : ℚ) :
    (away q : ℚ) = if q < 0 then -(⌊|q| + 1 / 2⌋ : ℚ) else ⌊|q| + 1 / 2⌋ := by
  unfold away
  split
  · rename_i negative
    rw [round_eq, abs_of_neg negative, Int.cast_neg]
  · rename_i positive
    rw [round_eq, abs_of_nonneg (not_lt.mp positive)]

/-- **`Double.round` gives the nearest whole number.** -/
theorem Is.round (hx : Is x q) : Is (round x) (away q) := by
  have bound := is_two_pow
  unfold Double.round
  by_cases small : x.abs < 4503599627370496
  · rw [if_pos small]
    have lt := (hx.abs.lt_iff bound).mp small
    obtain ⟨-, whole⟩ := hx.wholePart (lt.trans (by norm_num))
    have fract := hx.abs.sub whole hx.fits_fract
    have low := Nat.floor_le (abs_nonneg q)
    have high := Nat.lt_floor_add_one |q|
    have short : ⌊|q|⌋₊ < 2 ^ 52 := (Nat.floor_lt (abs_nonneg q)).mpr (by exact_mod_cast lt)
    rw [away_eq]
    dsimp only
    by_cases half : x.abs - (Double.wholePart x).toFloat < 0.5
    · have below := (fract.lt_iff is_half).mp half
      have nearest : ⌊|q| + 1 / 2⌋ = (⌊|q|⌋₊ : ℤ) :=
        Int.floor_eq_iff.mpr ⟨by push_cast; linarith, by push_cast; linarith⟩
      rw [if_pos half, nearest]
      have signed := hx.withSign whole fun zero => by rw [zero]; simp
      push_cast
      exact signed
    · have above := not_lt.mp fun lt => half ((fract.lt_iff is_half).mpr lt)
      have nearest : ⌊|q| + 1 / 2⌋ = (⌊|q|⌋₊ : ℤ) + 1 :=
        Int.floor_eq_iff.mpr ⟨by push_cast; linarith, by push_cast; linarith⟩
      have fits : Fits ((⌊|q|⌋₊ : ℚ) + 1) := by
        exact_mod_cast fits_intCast (n := (⌊|q|⌋₊ : ℤ) + 1) (by omega)
      rw [if_neg half, nearest]
      have signed := hx.withSign (whole.add is_one fits) fun zero => by
        rw [zero] at above
        norm_num at above
      push_cast
      exact signed
  · rw [if_neg small]
    obtain ⟨n, rfl⟩ := hx.whole_of_le (not_lt.mp fun lt => small ((hx.abs.lt_iff bound).mpr lt))
    rwa [Int.away_intCast]

/-- A whole number is its own whole part. -/
theorem Is.truncate {n : ℤ} (hx : Is x n) (hn : n.natAbs < 2 ^ 53) : truncate x = n := by
  have magnitude : |(n : ℚ)| = (n.natAbs : ℚ) := by rw [Nat.cast_natAbs, Int.cast_abs]
  obtain ⟨part, -⟩ := hx.wholePart (by rw [magnitude]; exact_mod_cast hn)
  rw [magnitude, Nat.floor_natCast] at part
  unfold Double.truncate
  rw [part]
  by_cases negative : x < 0
  · have := (hx.lt_iff is_zero).mp negative
    have : n < 0 := by exact_mod_cast this
    rw [if_pos negative]
    omega
  · have : ¬ n < 0 := fun h => negative ((hx.lt_iff is_zero).mpr (by exact_mod_cast h))
    rw [if_neg negative]
    omega

/-- The magnitude of the whole part, as far as it is a word. -/
theorem Is.natAbs_truncate (hx : Is x q) :
    (Double.truncate x).natAbs = min ⌊|q|⌋₊ (2 ^ 64 - 1) := by
  have part : (Double.wholePart x).toNat = min ⌊|q|⌋₊ (2 ^ 64 - 1) :=
    hx.abs.toUInt64_eq (abs_nonneg q)
  unfold Double.truncate
  rw [part]
  split <;> omega

/-- **`Double.ceilNat` gives the least natural number that is not below.** -/
theorem Is.ceilNat_eq (hx : Is x q) (low : 0 ≤ q) (high : q < 2 ^ 53) : ceilNat x = ⌈q⌉₊ := by
  obtain ⟨part, whole⟩ := hx.wholePart (by rwa [abs_of_nonneg low])
  rw [abs_of_nonneg low] at part whole
  unfold Double.ceilNat
  rw [part]
  by_cases nonpositive : x ≤ 0
  · have zero : q = 0 := le_antisymm ((hx.le_iff is_zero).mp nonpositive) low
    rw [if_pos nonpositive, zero, Nat.ceil_zero]
  · rw [if_neg nonpositive]
    have above := Nat.lt_floor_add_one q
    have short : ⌊q⌋₊ < 2 ^ 53 := (Nat.floor_lt low).mpr (by exact_mod_cast high)
    by_cases below : (Double.wholePart x).toFloat < x
    · have more := (whole.lt_iff hx).mp below
      rw [if_pos below, min_eq_left (by omega), eq_comm, Nat.ceil_eq_iff (Nat.add_one_ne_zero _),
        Nat.add_sub_cancel, Nat.cast_add_one]
      exact ⟨more, above.le⟩
    · have exact : q = ⌊q⌋₊ := le_antisymm (not_lt.mp fun h => below ((whole.lt_iff hx).mpr h))
        (Nat.floor_le low)
      rw [if_neg below]
      conv_rhs => rw [exact, Nat.ceil_natCast]

/-- The least natural number that is not below a natural number is itself. -/
theorem Is.ceilNat {n : ℕ} (hx : Is x n) (hn : n < 2 ^ 53) : ceilNat x = n := by
  rw [hx.ceilNat_eq (Nat.cast_nonneg n) (by exact_mod_cast hn), Nat.ceil_natCast]

end Relief.Double
