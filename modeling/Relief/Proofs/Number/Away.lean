import Mathlib.Algebra.Order.Round
import Mathlib.Tactic.Linarith
import Mathlib.Tactic.Ring

/-!
# The nearest whole number

* `away`: the whole number that is nearest to a number, a half going away from zero;
* `away_le`, `le_away`: it is at most a half off;
* `away_mono`, `away_intCast`: it goes up with the number, and whole numbers are their own;
* `IsHalfway.away_ne_zero`: **what is halfway between two whole numbers does not become zero**;
* `exists_away_sub`: whole steps down come to every whole number below, and to zero unless they are
  halfway;
* `away_add`: **a step that is at most one long goes on by one at most, or passes zero**.
-/

namespace Int

variable {K : Type*} [Field K] [LinearOrder K] [IsStrictOrderedRing K] [FloorRing K]

/-! ## 1. Bounds -/

/-- The nearest whole number; a half goes away from zero. -/
def away (x : K) : ℤ :=
  if x < 0 then -round (-x) else round x

theorem away_le (x : K) : (away x : K) ≤ x + 1 / 2 := by
  unfold away
  split
  · have := sub_half_lt_round (-x)
    push_cast
    linarith
  · exact round_le_add_half x

theorem le_away (x : K) : x - 1 / 2 ≤ away x := by
  unfold away
  split
  · have := round_le_add_half (-x)
    push_cast
    linarith
  · exact (sub_half_lt_round x).le

theorem round_mono {x y : K} (h : x ≤ y) : round x ≤ round y := by
  rw [round_eq, round_eq]
  exact Int.floor_mono (by linarith)

theorem away_mono {x y : K} (h : x ≤ y) : away x ≤ away y := by
  unfold away
  split <;> split
  · exact Int.neg_le_neg (round_mono (by linarith))
  · have low := round_mono (show 0 ≤ -x by linarith)
    have high := round_mono (show 0 ≤ y by linarith)
    rw [round_zero] at low high
    omega
  · linarith
  · exact round_mono h

theorem away_eq_of_lt {x : K} {n : ℤ} (low : n - 1 / 2 < x) (high : x < n + 1 / 2) :
    away x = n := by
  have above : ((n - 1 : ℤ) : K) < away x := by
    have := le_away x
    push_cast
    linarith
  have below : (away x : K) < ((n + 1 : ℤ) : K) := by
    have := away_le x
    push_cast
    linarith
  have := Int.cast_lt.mp above
  have := Int.cast_lt.mp below
  omega

theorem away_intCast (n : ℤ) : away (n : K) = n :=
  away_eq_of_lt (by linarith) (by linarith)

theorem abs_away_le {x : K} {n : ℕ} (h : |x| ≤ n) : |away x| ≤ n := by
  obtain ⟨low, high⟩ := abs_le.mp h
  have above := away_mono high
  have below := away_mono low
  rw [← Int.cast_natCast, away_intCast] at above
  rw [← Int.cast_natCast, ← Int.cast_neg, away_intCast] at below
  exact abs_le.mpr ⟨below, above⟩

theorem away_neg (x : K) : away (-x) = -away x := by
  rcases lt_trichotomy x 0 with h | rfl | h
  · rw [away, away, if_neg (by linarith), if_pos h, neg_neg]
  · have zero := away_intCast (K := K) 0
    rw [Int.cast_zero] at zero
    rw [neg_zero, zero, Int.neg_zero]
  · rw [away, away, if_pos (by linarith), if_neg (by linarith), neg_neg]

/-! ## 2. Halves -/

/-- Halves go up right of zero. -/
theorem away_eq_of_pos {x : K} {n : ℤ} (hn : 0 < n) (low : n - 1 / 2 ≤ x) (high : x < n + 1 / 2) :
    away x = n := by
  have positive : (1 : K) ≤ n := by exact_mod_cast hn
  rw [away, if_neg (by linarith), round_eq_iff]
  exact ⟨low, high⟩

/-- A number halfway between two whole numbers. -/
def IsHalfway (x : K) : Prop :=
  ∃ m : ℤ, x - m = m + 1 - x

theorem isHalfway_iff {x : K} : IsHalfway x ↔ ∃ m : ℤ, x = m + 1 / 2 := by
  constructor <;> rintro ⟨m, hm⟩ <;> exact ⟨m, by linarith⟩

theorem IsHalfway.add_intCast {x : K} (h : IsHalfway x) (n : ℤ) : IsHalfway (x + n) := by
  obtain ⟨m, rfl⟩ := isHalfway_iff.mp h
  exact isHalfway_iff.mpr ⟨m + n, by push_cast; ring⟩

theorem IsHalfway.neg {x : K} (h : IsHalfway x) : IsHalfway (-x) := by
  obtain ⟨m, rfl⟩ := isHalfway_iff.mp h
  exact isHalfway_iff.mpr ⟨-m - 1, by push_cast; ring⟩

omit [IsStrictOrderedRing K] in
theorem not_isHalfway_intCast (n : ℤ) : ¬ IsHalfway (n : K) := by
  rintro ⟨m, hm⟩
  have twice : n - m = m + 1 - n := by exact_mod_cast hm
  omega

omit [IsStrictOrderedRing K] in
theorem not_isHalfway_natCast (n : ℕ) : ¬ IsHalfway (n : K) := by
  rw [← Int.cast_natCast n]
  exact not_isHalfway_intCast n

/-- **What is halfway does not become zero.** -/
theorem IsHalfway.away_ne_zero {x : K} (h : IsHalfway x) : away x ≠ 0 := by
  obtain ⟨m, rfl⟩ := isHalfway_iff.mp h
  rcases lt_or_ge m 0 with neg | pos
  · have below : (m : K) ≤ -1 := by exact_mod_cast Int.le_sub_one_of_lt neg
    have mirrored : away (-((m : K) + 1 / 2)) = -m :=
      away_eq_of_pos (by omega) (by push_cast; linarith) (by push_cast; linarith)
    rw [away_neg] at mirrored
    omega
  · have above : (0 : K) ≤ m := by exact_mod_cast pos
    have next : away ((m : K) + 1 / 2) = m + 1 :=
      away_eq_of_pos (by omega) (by push_cast; linarith) (by push_cast; linarith)
    omega

/-- **Whole steps down from a number come to every whole number below**, and to zero unless they are
    halfway. -/
theorem exists_away_sub {x : K} {n : ℤ} (hn : 0 ≤ n) (hv : n - 1 / 2 ≤ x)
    (hzero : n = 0 → ¬ IsHalfway x) : ∃ k : ℕ, away (x - k) = n := by
  obtain ⟨k, hk⟩ : ∃ k : ℕ, (k : ℤ) = ⌊x - n + 1 / 2⌋ :=
    Int.eq_ofNat_of_zero_le (Int.floor_nonneg.mpr (by linarith)) |>.imp fun _ => Eq.symm
  have low : (k : K) ≤ x - n + 1 / 2 := by
    rw [← Int.cast_natCast k, hk]
    exact Int.floor_le _
  have high : x - n + 1 / 2 < k + 1 := by
    rw [← Int.cast_natCast k, hk]
    exact Int.lt_floor_add_one _
  refine ⟨k, ?_⟩
  rcases hn.lt_or_eq with pos | zero
  · exact away_eq_of_pos pos (by linarith) (by linarith)
  · obtain rfl := zero
    refine away_eq_of_lt (lt_of_le_of_ne (by linarith) fun half => hzero rfl ?_) (by linarith)
    exact isHalfway_iff.mpr ⟨k - 1, by push_cast at half ⊢; linarith⟩

/-- Right of zero, halves go up. -/
theorem away_half_of_pos {n : ℤ} (hn : 0 < n) : away ((n : K) - 1 / 2) = n :=
  away_eq_of_pos hn (le_refl _) (by linarith)

/-- Left of it, they go down. -/
theorem away_half_of_nonpos {n : ℤ} (hn : n ≤ 0) : away ((n : K) - 1 / 2) = n - 1 := by
  have mirrored : away (((1 - n : ℤ) : K) - 1 / 2) = 1 - n := away_half_of_pos (by omega)
  have same : ((1 - n : ℤ) : K) - 1 / 2 = -(n - 1 / 2) := by push_cast; ring
  rw [same, away_neg] at mirrored
  omega

/-! ## 3. Steps -/

variable {x s : K}

/-- A step that goes up by two passes zero, from one half to the other. -/
theorem away_add_up (short : s ≤ 1) (leap : away x + 2 ≤ away (x + s)) : s = 1 ∧ x = -s / 2 := by
  have start := le_away x
  have finish := away_le (x + s)
  have leap' : (away x : K) + 2 ≤ away (x + s) := by exact_mod_cast leap
  obtain rfl : s = 1 := by linarith
  obtain ⟨n, hn⟩ : ∃ n, away (x + 1) = n := ⟨_, rfl⟩
  rw [hn] at leap leap' finish
  have half : x = ((n - 1 : ℤ) : K) - 1 / 2 := by
    push_cast
    linarith
  refine ⟨rfl, ?_⟩
  rcases lt_trichotomy n 1 with left | rfl | right
  · -- both halves are left of zero
    have down := away_half_of_nonpos (K := K) (n := n) (by omega)
    have same : (n : K) - 1 / 2 = x + 1 := by rw [half]; push_cast; ring
    rw [same, hn] at down
    omega
  · rw [half]
    norm_num
  · -- both are right of it
    have up := away_half_of_pos (K := K) (n := n - 1) (by omega)
    rw [← half] at up
    omega

/-- **A step that is at most one long goes on by one at most, or passes zero** from one half to the
    other. -/
theorem away_add (short : |s| ≤ 1) :
    |away (x + s) - away x| ≤ 1 ∨ |s| = 1 ∧ x = -s / 2 := by
  obtain ⟨down, up⟩ := abs_le.mp short
  by_cases high : away x + 2 ≤ away (x + s)
  · obtain ⟨one, half⟩ := away_add_up up high
    exact .inr ⟨by rw [one, abs_one], half⟩
  by_cases low : away (x + s) + 2 ≤ away x
  · have mirrored : -x + -s = -(x + s) := by ring
    obtain ⟨one, half⟩ := away_add_up (x := -x) (s := -s) (by linarith)
      (by rw [mirrored, away_neg, away_neg]; omega)
    refine .inr ⟨by rw [← abs_neg, one, abs_one], ?_⟩
    linarith
  · exact .inl (abs_le.mpr ⟨by omega, by omega⟩)

end Int
