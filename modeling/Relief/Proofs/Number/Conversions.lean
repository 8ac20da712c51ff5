import Relief.Proofs.Number.Nearest
import Relief.Proofs.Number.Singles

/-!
# Exact conversions

* `Single.value`, `Single.is_toDouble`: **a finite single is the same number in double precision**;
* `Single.le_iff`: the order of finite singles is that of the rational numbers;
* `Double.Is.remainder_signed`: **a remainder by a natural number is exact**.
-/

namespace Relief

open Float.Model (UnpackedFloat Format)
open Float.Model.UnpackedFloat (Sign)

/-! ## 1. Singles in double precision -/

namespace Single

/-- The number that a single stands for. -/
def value (x : Float32) : ℚ :=
  Double.valueOf (unpack x)

/-- **A finite single is the same number in double precision.** -/
theorem is_toDouble {x : Float32} (h : x.isFinite = true) : Double.Is (toDouble x) (value x) := by
  unfold toDouble value
  rcases exists_finite h with ⟨s, hx⟩ | ⟨s, m, e, canonical, hx⟩
  · rw [hx]
    exact Double.is_pack (.zero s)
  · have := canonical.lt
    have := canonical.le
    have := canonical.le'
    have fits : Double.Fits (((m : ℤ) : ℚ) * 2 ^ e) :=
      Double.fits_of_lt (by omega) (by omega) (by omega)
    rw [hx, Double.valueOf_finite]
    exact Double.is_nearest_of_fits s (by exact_mod_cast fits)

theorem Canonical.comparable {m m' : ℕ} {e e' : ℤ} (h : Canonical m e) (h' : Canonical m' e') :
    Double.Comparable 23 m m' e e' where
  short := h.lt
  short' := h'.lt
  full lt := h.full.resolve_right (by have := h'.le; omega)
  full' lt := h'.full.resolve_right (by have := h.le; omega)

theorem fields {x : Float32} (h : x.isFinite = true) : Double.Fields Canonical (unpack x) := by
  rcases exists_finite h with ⟨s, hx⟩ | ⟨s, m, e, canonical, hx⟩
  · rw [hx]
    exact .zero s
  · rw [hx]
    exact .finite s canonical.pos canonical

/-- **The order of finite singles is that of the numbers they stand for.** -/
theorem le_iff {x y : Float32} (hx : x.isFinite = true) (hy : y.isFinite = true) :
    x ≤ y ↔ value x ≤ value y := by
  show decide ((UnpackedFloat.compare (unpack x) (unpack y)).any (·.isLE) = true) = true ↔ _
  rw [decide_eq_true_iff, Double.compare_valueOf Canonical.comparable (fields hx) (fields hy),
    Option.any_some, ← Ordering.ne_gt_iff_isLE]
  exact compare_le_iff_le

end Single

/-! ## 2. Remainders -/

namespace Double

variable {x : Float} {q : ℚ} {n : ℕ}

theorem sub_mul_div (a b : ℕ) : (a : ℚ) - b * (a / b : ℕ) = (a % b : ℕ) := by
  have split : (a : ℚ) = b * (a / b : ℕ) + (a % b : ℕ) := by
    exact_mod_cast (Nat.div_add_mod a b).symm
  linarith

/-- What is left of a whole number. -/
theorem sub_mul_floor_whole (m n k : ℕ) :
    (m : ℚ) * 2 ^ (k : ℤ) - n * ⌊(m : ℚ) * 2 ^ (k : ℤ) / n⌋₊ = (m * 2 ^ k % n : ℕ) := by
  have value : (m : ℚ) * 2 ^ (k : ℤ) = (m * 2 ^ k : ℕ) := by
    rw [zpow_natCast]
    push_cast
    rfl
  rw [value, Nat.floor_div_eq_div, sub_mul_div]

/-- What is left of a number with places behind the point. -/
theorem sub_mul_floor_fraction (m n k : ℕ) :
    (m : ℚ) * 2 ^ (-(k : ℤ)) - n * ⌊(m : ℚ) * 2 ^ (-(k : ℤ)) / n⌋₊
      = (m % (n * 2 ^ k) : ℕ) * 2 ^ (-(k : ℤ)) := by
  have value : (m : ℚ) * 2 ^ (-(k : ℤ)) = m / 2 ^ k := by
    rw [zpow_neg, zpow_natCast, div_eq_mul_inv]
  have quotient : (m : ℚ) / 2 ^ k / n = (m : ℚ) / (n * 2 ^ k : ℕ) := by
    push_cast
    rw [div_div, mul_comm (2 ^ k : ℚ)]
  rw [value, quotient, Nat.floor_div_eq_div, ← sub_mul_div, zpow_neg, zpow_natCast]
  push_cast
  field_simp

/-- What is left of a number, whose sign it keeps. -/
theorem remainder_of_unpack {s : Sign} {m : ℕ} {e : ℤ} (hm : Canonical m e)
    (h : unpack x = .finite s m e hm.pos) (hn : n < 2 ^ 53) (pos : 0 < n) :
    Is (remainder x n) (signed s (m * 2 ^ e - n * ⌊(m : ℚ) * 2 ^ e / n⌋₊)) := by
  unfold remainder
  rw [h]
  dsimp only
  split
  · rename_i whole
    obtain ⟨k, rfl⟩ := Int.eq_ofNat_of_zero_le whole
    have short : m * 2 ^ k % n < n := Nat.mod_lt _ pos
    have fits : Fits ((m * 2 ^ k % n : ℕ) * 2 ^ (0 : ℤ)) := by
      exact_mod_cast fits_of_lt (n := (m * 2 ^ k % n : ℕ)) (e := 0) (by omega) (by norm_num)
        (by norm_num)
    have exact := is_nearest_of_fits s fits
    rw [zpow_zero, mul_one] at exact
    rw [sub_mul_floor_whole, Int.toNat_natCast]
    exact exact
  · rename_i fractional
    obtain ⟨k, rfl⟩ : ∃ k : ℕ, e = -(k : ℤ) := ⟨(-e).toNat, by omega⟩
    have fits : Fits ((m % (n * 2 ^ k) : ℕ) * 2 ^ (-(k : ℤ))) := by
      have short := (Nat.mod_le m (n * 2 ^ k)).trans_lt hm.lt
      exact_mod_cast fits_of_lt (n := (m % (n * 2 ^ k) : ℕ)) (by omega) hm.le hm.le'
    have places : (- -(k : ℤ)).toNat = k := by omega
    rw [sub_mul_floor_fraction, places]
    exact is_nearest_of_fits s fits

/-- **The remainder by a natural number is exact**, and it is on the side of zero that the number is
    on. -/
theorem Is.remainder_signed (hx : Is x q) (hn : n < 2 ^ 53) (pos : 0 < n) :
    Is (remainder x n) (if q < 0 then q + n * ⌊-q / n⌋₊ else q - n * ⌊q / n⌋₊) := by
  obtain ⟨ex, rfl⟩ := hx
  generalize hu : unpack x = u at ex ⊢
  cases ex with
  | zero s =>
    have zero : valueOf (.zero s) = 0 := rfl
    have packed : remainder x n = pack (.zero s) := by
      unfold remainder
      rw [hu]
    rw [packed, zero, if_neg (lt_irrefl 0), zero_div, Nat.floor_zero, Nat.cast_zero, mul_zero,
      sub_zero]
    exact is_pack (.zero s)
  | @finite s m e hm =>
    have size : (0 : ℚ) < m * 2 ^ e := mul_pos (Nat.cast_pos.mpr hm.pos) (by positivity)
    have rest := remainder_of_unpack hm hu hn pos
    rw [valueOf_finite]
    cases s with
    | negative =>
      have value : signed .negative (m * 2 ^ e : ℚ) = -(m * 2 ^ e) := rfl
      rw [value, if_pos (by linarith), neg_neg, neg_add_eq_sub, ← neg_sub]
      exact rest
    | positive =>
      have value : signed .positive (m * 2 ^ e : ℚ) = m * 2 ^ e := rfl
      rw [value, if_neg size.not_gt]
      exact rest

/-- The remainder of a number that is not negative. -/
theorem Is.remainder (hx : Is x q) (low : 0 ≤ q) (hn : n < 2 ^ 53) (pos : 0 < n) :
    Is (remainder x n) (q - n * ⌊q / n⌋₊) := by
  have rest := hx.remainder_signed hn pos
  rwa [if_neg low.not_gt] at rest

end Double

end Relief
