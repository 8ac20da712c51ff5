import Relief.Proofs.Number.Away
import Relief.Proofs.Number.Nearest

/-!
# Strides

A number goes on by a step that is at most one long. The whole number that is nearest to it goes on
by one at most then, unless the step is exactly one long and ends halfway between two whole numbers.
This holds for numbers of the format although their sums are rounded.

* `Fits.le_of_lt_one`, `rounded_le_add`: the distances between numbers of the format, and how far
  rounding goes;
* `Leap`: a stride over a whole number;
* `leap_up`, `stride`: **a stride goes on by one at most, or it is a leap**.
-/

namespace Relief.Double

open Int (away away_le le_away away_mono away_neg away_intCast away_half_of_pos
  away_half_of_nonpos IsHalfway isHalfway_iff)

variable {p q s : ℚ}

/-! ## 1. Distances -/

/-- Multiples of a unit are a unit apart. -/
theorem add_unit_le {u : ℚ} (hu : 0 < u) {z w : ℤ} (h : (z : ℚ) * u < w * u) :
    z * u + u ≤ w * u := by
  have next : ((z + 1 : ℤ) : ℚ) ≤ w :=
    Int.cast_le.mpr (Int.add_one_le_of_lt (Int.cast_lt.mp (lt_of_mul_lt_mul_right h hu.le)))
  calc z * u + u = ((z + 1 : ℤ) : ℚ) * u := by push_cast; ring
    _ ≤ w * u := mul_le_mul_of_nonneg_right next hu.le

/-- How far the number of the format before one is off it. -/
def grain : ℚ :=
  2 ^ (-53 : ℤ)

theorem grain_pos : 0 < grain := by
  unfold grain
  positivity

theorem pow_mul_grain (j : ℕ) : 2 ^ j * grain = 2 ^ ((j : ℤ) - 53) := by
  rw [grain, Int.sub_eq_add_neg, zpow_add₀ two_ne_zero, zpow_natCast]

theorem Fits.le_of_lt_one (h : Fits q) (lt : q < 1) : q ≤ 1 - grain := by
  have unit : grain = 2 ^ (-1 - 52 : ℤ) := rfl
  rcases lt_or_ge q (1 / 2) with small | large
  · have : grain ≤ 1 / 2 := by norm_num [grain]
    linarith
  · have low : (2 : ℚ) ^ (-1 : ℤ) ≤ |q| := by
      rw [abs_of_nonneg (by linarith), zpow_neg_one]
      linarith
    obtain ⟨z, rfl⟩ := h.exists_multiple (e := -1 - 52) (.inr (by rwa [sub_add_cancel]))
    have whole : (1 : ℚ) = ((2 ^ 53 : ℤ) : ℚ) * 2 ^ (-1 - 52 : ℤ) := by norm_num
    have apart := add_unit_le (by positivity) (lt.trans_eq whole)
    rw [← whole, ← unit] at apart
    rw [← unit]
    linarith

/-- Rounding goes half a unit up at most. -/
theorem rounded_le_add {j : ℕ} (pos : 0 < q) (lt : q < 2 ^ (j + 1)) :
    rounded q ≤ q + 2 ^ j * grain := by
  have unit : unitOf q - 1 ≤ (j : ℤ) - 53 := by
    have log : (2 : ℚ) ^ Int.log 2 q < 2 ^ ((j : ℤ) + 1) :=
      (pow_log_le pos).trans_lt (by exact_mod_cast lt)
    have := (zpow_lt_zpow_iff_right₀ one_lt_two).mp log
    unfold unitOf
    omega
  have positive : (0 : ℚ) < 2 ^ unitOf q := by positivity
  have near := (nearestEven_near (div_nonneg pos.le positive.le)).1
  calc rounded q = nearestEven (q / 2 ^ unitOf q) * 2 ^ unitOf q := rounded_of_nonneg pos.le
    _ ≤ (q / 2 ^ unitOf q + 1 / 2) * 2 ^ unitOf q := mul_le_mul_of_nonneg_right near positive.le
    _ = q + 2 ^ (unitOf q - 1) := by
        rw [zpow_sub_one₀ two_ne_zero]
        field_simp
    _ ≤ q + 2 ^ ((j : ℤ) - 53) :=
        add_le_add_right (zpow_le_zpow_right₀ one_le_two unit) q
    _ = q + 2 ^ j * grain := by rw [pow_mul_grain]

/-- Halves fit the format. -/
theorem fits_half {n : ℤ} (hn : n.natAbs < 2 ^ 51) : Fits (n - 1 / 2) := by
  have halves : (n : ℚ) - 1 / 2 = ((2 * n - 1 : ℤ) : ℚ) * 2 ^ (-1 : ℤ) := by
    push_cast
    norm_num
    ring
  rw [halves]
  exact fits_of_lt (by omega) (by norm_num) (by norm_num)

/-! ## 2. Leaps -/

/-- A stride over a whole number: its step is one long, and it ends halfway between two whole
    numbers. -/
structure Leap (s p q : ℚ) : Prop where
  step : |s| = 1
  halfway : IsHalfway q
  two : |away q - away p| = 2

/-- A number that is rounded to a whole number or above is not below it. -/
theorem le_of_lt_rounded {n : ℤ} (hn : n.natAbs < 2 ^ 53) (h : n < rounded q) : n < q := by
  by_contra below
  exact h.not_ge (rounded_le_of_fits (fits_intCast hn) (not_lt.mp below))

/-- Below a half there is a number of the format only from one last place off. -/
theorem add_grain_le_half {m j : ℕ} (hp : Fits p) (low : 2 ^ (j + 1) ≤ m) (small : m < 2 ^ 51)
    (near : m - 1 ≤ p) (lt : p < m - 1 / 2) : p + 2 ^ (j + 1) * grain ≤ m - 1 / 2 := by
  have short : j < 51 := by
    have := (Nat.pow_lt_pow_iff_right one_lt_two).mp (low.trans_lt small)
    omega
  have power : (2 : ℚ) ^ (j + 1) ≤ m := by exact_mod_cast low
  have one : (1 : ℚ) ≤ 2 ^ j := one_le_pow₀ one_le_two
  have unit : (2 : ℚ) ^ (j + 1) * grain = 2 ^ ((j : ℤ) - 52) := by
    rw [pow_mul_grain]
    congr 1
    omega
  have above : (2 : ℚ) ^ (j : ℤ) ≤ |p| := by
    rw [pow_succ] at power
    rw [zpow_natCast]
    exact le_trans (by linarith) (le_abs_self p)
  obtain ⟨z, rfl⟩ := hp.exists_multiple (e := j - 52) (.inr (by rwa [sub_add_cancel]))
  have half : (m : ℚ) - 1 / 2 = (((2 * m - 1) * 2 ^ (51 - j) : ℤ) : ℚ) * 2 ^ ((j : ℤ) - 52) := by
    have place : (2 : ℚ) ^ (51 - j) * 2 ^ ((j : ℤ) - 52) = 1 / 2 := by
      rw [← zpow_natCast, ← zpow_add₀ two_ne_zero, one_div, ← zpow_neg_one]
      congr 1
      omega
    push_cast
    rw [mul_assoc, place]
    ring
  rw [half] at lt ⊢
  rw [unit]
  exact add_unit_le (by positivity) lt

/-- A step that is shorter than one does not come up to the half before the next but one. -/
theorem rounded_add_lt {n : ℤ} (hp : Fits p) (hs : Fits s) (lt : s < 1) (pos : 1 ≤ n)
    (small : n ≤ 2 ^ 51) (low : p ≤ n - 3 / 2) (edge : 2 ≤ n → p < n - 3 / 2) :
    rounded (p + s) < n - 1 / 2 := by
  have short := hs.le_of_lt_one lt
  have grained := grain_pos
  rcases pos.eq_or_lt with rfl | more
  · have fits : Fits (1 / 2 - grain) := by
      have value : 1 / 2 - grain = ((2 ^ 52 - 1 : ℤ) : ℚ) * 2 ^ (-53 : ℤ) := by norm_num [grain]
      rw [value]
      exact fits_of_lt (by decide) (by norm_num) (by norm_num)
    have bound := rounded_le_of_fits fits (q := p + s) (by push_cast at low; linarith)
    push_cast
    linarith
  · have lt' := edge more
    by_contra reached
    have above : ((n - 1 : ℤ) : ℚ) < p + s :=
      le_of_lt_rounded (by omega) (by push_cast; linarith)
    push_cast at above
    -- the power of two below
    obtain ⟨m, hm⟩ : ∃ m : ℕ, n - 1 = m := Int.eq_ofNat_of_zero_le (by omega)
    obtain rfl : n = m + 1 := by omega
    push_cast at *
    have powLow : 2 ^ Nat.log 2 m ≤ m := Nat.pow_log_le_self 2 (by omega)
    have powHigh : m < 2 ^ (Nat.log 2 m + 1) := Nat.lt_pow_succ_log_self one_lt_two m
    generalize Nat.log 2 m = j at powLow powHigh
    have high : (m : ℚ) + 1 ≤ 2 ^ (j + 1) := by exact_mod_cast powHigh
    have one : (1 : ℚ) ≤ m := by exact_mod_cast (by omega : 1 ≤ m)
    have near := rounded_le_add (j := j) (q := p + s) (by linarith) (by linarith)
    cases j with
    | zero =>
      rw [pow_zero, one_mul] at near
      linarith
    | succ j =>
      have := add_grain_le_half hp powLow (by omega) (by linarith) (by linarith)
      linarith

/-- **A stride over a whole number ends at the half behind it**, with a step that is one long. -/
theorem leap_up (hp : Fits p) (hs : Fits s) (short : s ≤ 1) (small : |p| ≤ 2 ^ 50)
    (leap : away p + 2 ≤ away (rounded (p + s))) : Leap s p (rounded (p + s)) := by
  obtain ⟨smallest, greatest⟩ := abs_le.mp small
  have start := le_away p
  have finish := away_le (rounded (p + s))
  have leap' : (away p : ℚ) + 2 ≤ away (rounded (p + s)) := by exact_mod_cast leap
  have bound : rounded (p + s) ≤ ((2 ^ 50 + 1 : ℤ) : ℚ) :=
    rounded_le_of_fits (fits_intCast (by norm_num)) (by push_cast; linarith)
  generalize hn : away (rounded (p + s)) = n at leap leap' finish
  have low : p ≤ n - 3 / 2 := by linarith
  have size : n.natAbs < 2 ^ 51 := by
    have above : (-2 ^ 51 : ℚ) < n := by linarith
    have below : (n : ℚ) < 2 ^ 51 := by push_cast at bound; linarith
    have : -2 ^ 51 < n := by exact_mod_cast above
    have : n < 2 ^ 51 := by exact_mod_cast below
    omega
  have half : rounded (p + s) = n - 1 / 2 :=
    le_antisymm (rounded_le_of_fits (fits_half size) (by linarith)) (by linarith)
  have pos : 1 ≤ n := by
    by_contra nonpositive
    have down := away_half_of_nonpos (K := ℚ) (n := n) (by omega)
    rw [← half, hn] at down
    omega
  have one : s = 1 := by
    refine le_antisymm short (not_lt.mp fun lt => half.not_lt ?_)
    refine rounded_add_lt hp hs lt pos (by omega) low fun more => low.lt_of_ne fun edge => ?_
    have up := away_half_of_pos (K := ℚ) (n := n - 1) (by omega)
    have same : ((n - 1 : ℤ) : ℚ) - 1 / 2 = p := by push_cast; linarith
    rw [same] at up
    omega
  have two : away (rounded (p + s)) - away p = 2 := by
    have above : ((n - 1 : ℤ) : ℚ) < p + s :=
      le_of_lt_rounded (by omega) (by rw [half]; push_cast; linarith)
    have near : ((n - 2 : ℤ) : ℚ) ≤ p := by
      push_cast at above ⊢
      linarith
    have := away_mono near
    rw [away_intCast] at this
    omega
  have halfway : (n : ℚ) - 1 / 2 = (n - 1 : ℤ) + 1 / 2 := by
    push_cast
    ring
  exact ⟨by rw [one, abs_one], isHalfway_iff.mpr ⟨n - 1, half.trans halfway⟩,
    by rw [two, abs_two]⟩

/-- Leaps up and down are each other's mirror images. -/
theorem Leap.neg (h : Leap (-s) (-p) (-q)) : Leap s p q where
  step := by
    rw [← abs_neg]
    exact h.step
  halfway := by
    rw [← neg_neg q]
    exact h.halfway.neg
  two := by
    rw [abs_sub_comm, ← h.two, away_neg, away_neg]
    congr 1
    ring

/-- **A stride goes on by one at most, or it is a leap.** -/
theorem stride (hp : Fits p) (hs : Fits s) (short : |s| ≤ 1) (small : |p| ≤ 2 ^ 50) :
    |away (rounded (p + s)) - away p| ≤ 1 ∨ Leap s p (rounded (p + s)) := by
  obtain ⟨down, up⟩ := abs_le.mp short
  have mirrored : rounded (-p + -s) = -rounded (p + s) := by
    rw [← rounded_neg]
    congr 1
    ring
  by_cases high : away p + 2 ≤ away (rounded (p + s))
  · exact .inr (leap_up hp hs up small high)
  by_cases low : away (rounded (p + s)) + 2 ≤ away p
  · have leap := leap_up hp.neg hs.neg (by linarith) (by rwa [abs_neg])
      (by rw [mirrored, away_neg, away_neg]; omega)
    rw [mirrored] at leap
    exact .inr leap.neg
  · exact .inl (abs_le.mpr ⟨by omega, by omega⟩)

end Relief.Double
