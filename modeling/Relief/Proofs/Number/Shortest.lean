import Mathlib
import Relief.Number.Decimal

/-!
# Shortest decimals

The decimal that is chosen for a number lies in the interval of all numbers that are rounded to it,
and these intervals are disjoint. So the decimal determines the number.

* `Target.Holds`, `isIn_iff`: the interval, and what is tested of a decimal;
* `holds_neighbours`: a grid finer than half a place of the mantissa has a point in the interval;
* `holds_shortest`: **the search ends with one of those points**, and trimming keeps its value;
* `eq_of_holds`: **no number belongs to two intervals**.
-/

namespace Relief.Decimal

/-! ## 1. Values and intervals -/

/-- The number that a decimal stands for. -/
def value (d : Decimal) : ℚ :=
  d.digits * 10 ^ d.exponent

/-- Whether a number lies in the interval. -/
def Target.Holds (t : Target) (q : ℚ) : Prop :=
  if t.closed then t.lower ≤ q * t.unit ∧ q * t.unit ≤ t.upper
  else t.lower < q * t.unit ∧ q * t.unit < t.upper

theorem zpow_eq_div (b : ℚ) (hb : b ≠ 0) (e : ℤ) : b ^ e = b ^ e.toNat / b ^ (-e).toNat := by
  rw [← zpow_natCast, ← zpow_natCast, ← zpow_sub₀ hb]
  congr 1
  omega

theorem value_eq_ratio (d : Decimal) : d.value = (d.ratio.1 : ℚ) / d.ratio.2 := by
  unfold value ratio
  rw [zpow_eq_div 10 (by norm_num)]
  push_cast
  ring

/-- **What is tested of a decimal** is whether its value lies in the interval. -/
theorem isIn_iff (d : Decimal) (t : Target) : d.isIn t = true ↔ t.Holds d.value := by
  have den : (0 : ℚ) < d.ratio.2 := by
    unfold ratio
    positivity
  have le : ∀ a b : ℕ, (a : ℚ) ≤ (b : ℚ) / d.ratio.2 * t.unit ↔ a * d.ratio.2 ≤ b * t.unit := by
    intro a b
    rw [div_mul_eq_mul_div, le_div_iff₀ den]
    exact_mod_cast Iff.rfl
  have ge : ∀ a b : ℕ, (b : ℚ) / d.ratio.2 * t.unit ≤ (a : ℚ) ↔ b * t.unit ≤ a * d.ratio.2 := by
    intro a b
    rw [div_mul_eq_mul_div, div_le_iff₀ den]
    exact_mod_cast Iff.rfl
  unfold isIn Target.contains Target.Holds
  rw [value_eq_ratio]
  cases t.closed with
  | true =>
    simp only [if_true, Bool.and_eq_true, decide_eq_true_eq, le, ge]
  | false =>
    simp only [Bool.false_eq_true, if_false, Bool.and_eq_true, decide_eq_true_eq, ← not_le, le, ge]

/-! ## 2. The search -/

section Search

variable {t : Target}

/-- The search ends in the interval if a grid that it tries has a point there. -/
theorem isIn_search {fuel k : ℕ} {q : ℤ} (hk : k < fuel)
    (h : (neighbours t (q - k)).2.isIn t = true) : (search t fuel q).isIn t = true := by
  induction fuel generalizing q k with
  | zero => omega
  | succ fuel ih =>
    unfold search
    cases low : (neighbours t q).1.isIn t <;> cases high : (neighbours t q).2.isIn t
    · -- neither: the grid that has a point is a finer one
      have later : k ≠ 0 := by
        rintro rfl
        rw [Nat.cast_zero, sub_zero, high] at h
        cases h
      have same : q - (k : ℤ) = q - 1 - ((k - 1 : ℕ) : ℤ) := by omega
      rw [same] at h
      simp only [low, high]
      exact ih (by omega) h
    · simp only [low, high]
    · simp only [low, high]
    · simp only [low, high]
      split
      · exact high
      · exact low

/-- The upper neighbour of the value on a grid is above it, by no more than the grid is wide. -/
theorem lt_neighbours (hu : 0 < t.unit) (q : ℤ) :
    (t.value : ℚ) < (neighbours t q).2.value * t.unit ∧
      (neighbours t q).2.value * t.unit ≤ t.value + 10 ^ q * t.unit := by
  have grid : 0 < t.unit * 10 ^ q.toNat := by positivity
  have down : (0 : ℚ) < 10 ^ (-q).toNat := by positivity
  have up : (0 : ℚ) < 10 ^ q.toNat := by positivity
  have low := Nat.div_mul_le_self (t.value * 10 ^ (-q).toNat) (t.unit * 10 ^ q.toNat)
  have high := Nat.lt_div_mul_add (a := t.value * 10 ^ (-q).toNat) grid
  have power := zpow_eq_div 10 (by norm_num) q
  have value : (neighbours t q).2.value * t.unit * 10 ^ (-q).toNat
      = ((t.value * 10 ^ (-q).toNat / (t.unit * 10 ^ q.toNat) : ℕ) + 1) * (t.unit * 10 ^ q.toNat) := by
    simp only [Decimal.value, neighbours, power]
    push_cast
    field_simp
  generalize t.value * 10 ^ (-q).toNat / (t.unit * 10 ^ q.toNat) = n at low high value
  have low' : (n : ℚ) * (t.unit * 10 ^ q.toNat) ≤ t.value * 10 ^ (-q).toNat := by exact_mod_cast low
  have high' : (t.value : ℚ) * 10 ^ (-q).toNat
      < n * (t.unit * 10 ^ q.toNat) + t.unit * 10 ^ q.toNat := by exact_mod_cast high
  constructor
  · refine lt_of_mul_lt_mul_right ?_ down.le
    rw [value]
    linarith
  · refine le_of_mul_le_mul_right ?_ down
    have cancel : (10 : ℚ) ^ q.toNat / 10 ^ (-q).toNat * t.unit * 10 ^ (-q).toNat
        = t.unit * 10 ^ q.toNat := by
      field_simp
    rw [value, power, add_mul (t.value : ℚ), cancel]
    linarith

/-- **A grid that is finer than the interval has a point in it.** -/
theorem holds_neighbours (hu : 0 < t.unit) (hl : t.lower ≤ t.value) {q : ℤ}
    (h : (t.value : ℚ) + 10 ^ q * t.unit < t.upper) : t.Holds (neighbours t q).2.value := by
  obtain ⟨above, below⟩ := lt_neighbours hu q
  have hl' : (t.lower : ℚ) ≤ t.value := by exact_mod_cast hl
  unfold Target.Holds
  split
  · exact ⟨by linarith, by linarith⟩
  · exact ⟨by linarith, by linarith⟩

/-- The power of ten from which the search starts is less than a hundred times the value. -/
theorem topExponent_lt (hv : 0 < t.value) :
    (10 : ℚ) ^ (topExponent t.value t.unit - 2) * t.unit < t.value := by
  have lv := Nat.length_toDigits_pos (b := 10) (n := t.value)
  have lu := Nat.length_toDigits_pos (b := 10) (n := t.unit)
  generalize hdv : (Nat.toDigits 10 t.value).length = dv at lv
  generalize hdu : (Nat.toDigits 10 t.unit).length = du at lu
  have unit : t.unit < 10 ^ du := (Nat.length_toDigits_le_iff (by norm_num) lu).mp hdu.le
  have value : 10 ^ (dv - 1) ≤ t.value := by
    rcases Nat.eq_zero_or_pos (dv - 1) with zero | pos
    · rw [zero]
      exact hv
    · by_contra less
      have := (Nat.length_toDigits_le_iff (b := 10) (by norm_num) pos).mpr (not_le.mp less)
      omega
  have exponent : topExponent t.value t.unit - 2 = ((dv - 1 : ℕ) : ℤ) - du := by
    unfold topExponent
    omega
  rw [exponent, zpow_sub₀ (by norm_num), zpow_natCast, zpow_natCast, div_mul_eq_mul_div,
    div_lt_iff₀ (by positivity)]
  have unit' : (t.unit : ℚ) < 10 ^ du := by exact_mod_cast unit
  have value' : (10 : ℚ) ^ (dv - 1) ≤ t.value := by exact_mod_cast value
  have positive : (0 : ℚ) < 10 ^ (dv - 1) := by positivity
  calc (10 : ℚ) ^ (dv - 1) * t.unit < 10 ^ (dv - 1) * 10 ^ du :=
        mul_lt_mul_of_pos_left unit' positive
    _ ≤ t.value * 10 ^ du := mul_le_mul_of_nonneg_right value' (by positivity)

end Search

/-- Taking zeros off the end keeps the value. -/
theorem value_trimmed (fuel : ℕ) (d : Decimal) : (trimmed fuel d).value = d.value := by
  induction fuel generalizing d with
  | zero => rfl
  | succ fuel ih =>
    unfold trimmed
    split
    · rename_i h
      rw [ih]
      have digits : (d.digits : ℚ) = (d.digits / 10 : ℕ) * 10 := by
        exact_mod_cast (Nat.div_mul_cancel (Nat.dvd_of_mod_eq_zero h)).symm
      unfold value
      rw [digits, zpow_add₀ (by norm_num), zpow_one]
      ring
    · rfl

/-! ## 3. The intervals of a format -/

/-- A mantissa and an exponent as a format keeps them that has so many bits, and a least exponent. -/
structure IsCanonical (precision : ℕ) (least : ℤ) (m : ℕ) (e : ℤ) : Prop where
  pos : 0 < m
  lt : m < 2 ^ precision
  le : least ≤ e
  full : 2 ^ (precision - 1) ≤ m ∨ e = least

section Format

variable {precision : ℕ} {least : ℤ} {m : ℕ} {e : ℤ}

/-- How far the interval reaches below the number, in places of the mantissa. -/
def gap (precision : ℕ) (least : ℤ) (m : ℕ) (e : ℤ) : ℚ :=
  if m = 2 ^ (precision - 1) ∧ least < e then 1 / 4 else 1 / 2

theorem gap_le (precision : ℕ) (least : ℤ) (m : ℕ) (e : ℤ) :
    gap precision least m e ≤ 1 / 2 := by
  unfold gap
  split <;> norm_num

theorem unit_ofExact : ((Target.ofExact precision least m e).unit : ℚ) = 4 * 2 ^ (-e).toNat := by
  simp [Target.ofExact]

/-- A quarter of a place of the mantissa, in units of the interval. -/
theorem scale_ofExact (precision : ℕ) (least : ℤ) (m : ℕ) (e : ℤ) : (2 : ℚ) ^ e.toNat
    = 2 ^ e / 4 * (Target.ofExact precision least m e).unit := by
  rw [unit_ofExact, zpow_eq_div 2 (by norm_num)]
  field_simp

/-- **The interval of a number**: half a place of the mantissa on both sides, but for the shorter
    side below a power of two. -/
theorem holds_iff (hm : 0 < m) (q : ℚ) :
    (Target.ofExact precision least m e).Holds q ↔
      if m % 2 = 0 then (m - gap precision least m e) * 2 ^ e ≤ q ∧ q ≤ (m + 1 / 2) * 2 ^ e
      else (m - gap precision least m e) * 2 ^ e < q ∧ q < (m + 1 / 2) * 2 ^ e := by
  have unit : (0 : ℚ) < (Target.ofExact precision least m e).unit := by
    rw [unit_ofExact]
    positivity
  have lower : ((Target.ofExact precision least m e).lower : ℚ)
      = (m - gap precision least m e) * 2 ^ e * (Target.ofExact precision least m e).unit := by
    have cast : ((Target.ofExact precision least m e).lower : ℚ)
        = (4 * m - 4 * gap precision least m e) * 2 ^ e.toNat := by
      have below : (if m = 2 ^ (precision - 1) ∧ least < e then 1 else 2) ≤ 4 * m := by
        split <;> omega
      simp only [Target.ofExact, Bool.and_eq_true, decide_eq_true_eq]
      rw [Nat.cast_mul, Nat.cast_sub below, gap]
      push_cast
      split <;> norm_num
    rw [cast, scale_ofExact precision least m e]
    ring
  have upper : ((Target.ofExact precision least m e).upper : ℚ)
      = (m + 1 / 2) * 2 ^ e * (Target.ofExact precision least m e).unit := by
    have cast : ((Target.ofExact precision least m e).upper : ℚ)
        = (4 * m + 2) * 2 ^ e.toNat := by
      simp [Target.ofExact]
    rw [cast, scale_ofExact precision least m e]
    ring
  have closed : (Target.ofExact precision least m e).closed = decide (m % 2 = 0) := rfl
  unfold Target.Holds
  rw [closed, lower, upper]
  simp only [decide_eq_true_eq, mul_le_mul_iff_of_pos_right unit, mul_lt_mul_iff_of_pos_right unit]

/-- A power of ten that outgrows a mantissa. -/
theorem two_pow_le_ten_pow (hp : 2 ≤ precision) : 2 * 2 ^ precision ≤ 10 ^ (precision - 1) := by
  obtain ⟨k, rfl⟩ := Nat.exists_eq_add_of_le hp
  have power : 2 ^ k ≤ 10 ^ k := Nat.pow_le_pow_left (by norm_num) k
  calc 2 * 2 ^ (2 + k) = 8 * 2 ^ k := by ring
    _ ≤ 10 * 10 ^ k := Nat.mul_le_mul (by norm_num) power
    _ = 10 ^ (2 + k - 1) := by rw [show 2 + k - 1 = k + 1 by omega]; ring

/-- **The shortest decimal of a number lies in its interval.** -/
theorem holds_shortest (hp : 2 ≤ precision) (hm : 0 < m) (hlt : m < 2 ^ precision) :
    (Target.ofExact precision least m e).Holds (shortest precision least m e).value := by
  unfold shortest
  generalize ht : Target.ofExact precision least m e = t
  have unit : 0 < t.unit := by
    rw [← ht]
    simp [Target.ofExact]
  have value : t.value = 4 * m * 2 ^ e.toNat := by rw [← ht]; rfl
  have upper : t.upper = (4 * m + 2) * 2 ^ e.toNat := by rw [← ht]; rfl
  have lower : t.lower ≤ t.value := by
    rw [← ht]
    exact Nat.mul_le_mul_right _ (Nat.sub_le _ _)
  rw [value_trimmed, ← isIn_iff]
  refine isIn_search (k := precision + 1) (by omega)
    ((isIn_iff _ _).mpr (holds_neighbours unit lower ?_))
  -- the last grid is so much finer than the value that it is finer than half a place of the mantissa
  have top := topExponent_lt (t := t) (by rw [value]; positivity)
  have exponent : topExponent t.value t.unit - ((precision + 1 : ℕ) : ℤ)
      = topExponent t.value t.unit - 2 - ((precision - 1 : ℕ) : ℤ) := by omega
  rw [exponent, zpow_sub₀ (by norm_num), zpow_natCast, div_mul_eq_mul_div]
  have fine : (10 : ℚ) ^ (topExponent t.value t.unit - 2) * t.unit / 10 ^ (precision - 1)
      < 2 * 2 ^ e.toNat := by
    rw [div_lt_iff₀ (by positivity)]
    refine lt_of_lt_of_le top ?_
    have mantissa : 2 * m ≤ 10 ^ (precision - 1) :=
      le_trans (Nat.mul_le_mul_left 2 hlt.le) (two_pow_le_ten_pow hp)
    have whole : t.value ≤ 2 * 2 ^ e.toNat * 10 ^ (precision - 1) := by
      rw [value]
      calc 4 * m * 2 ^ e.toNat = 2 * 2 ^ e.toNat * (2 * m) := by ring
        _ ≤ _ := Nat.mul_le_mul_left _ mantissa
    exact_mod_cast whole
  rw [value, upper]
  push_cast
  rw [value] at fine
  linarith

/-- What the interval of a number is bounded by. -/
theorem Target.Holds.between {q : ℚ} (hm : 0 < m)
    (h : (Target.ofExact precision least m e).Holds q) :
    (m - gap precision least m e) * 2 ^ e ≤ q ∧ q ≤ (m + 1 / 2) * 2 ^ e := by
  rw [holds_iff hm] at h
  split at h
  · exact h
  · exact ⟨h.1.le, h.2.le⟩

/-- An odd mantissa does not have the ends of its interval. -/
theorem Target.Holds.inside {q : ℚ} (hm : 0 < m) (odd : m % 2 ≠ 0)
    (h : (Target.ofExact precision least m e).Holds q) :
    (m - gap precision least m e) * 2 ^ e < q ∧ q < (m + 1 / 2) * 2 ^ e := by
  rwa [holds_iff hm, if_neg odd] at h

variable {m' : ℕ} {e' : ℤ}

/-- The intervals of two mantissas with one exponent are disjoint: the end that two neighbours have
    in common belongs to the even one. -/
theorem not_holds_of_lt (hm : 0 < m) (hlt : m < m') {q : ℚ}
    (h : (Target.ofExact precision least m e).Holds q) :
    ¬ (Target.ofExact precision least m' e).Holds q := by
  intro h'
  have hm' : 0 < m' := by omega
  have place : (0 : ℚ) < 2 ^ e := by positivity
  have gap := gap_le precision least m' e
  have next : (m : ℚ) + 1 ≤ m' := by exact_mod_cast hlt
  have ends : (m + 1 / 2 : ℚ) * 2 ^ e ≤ (m' - Decimal.gap precision least m' e) * 2 ^ e :=
    mul_le_mul_of_nonneg_right (by linarith) place.le
  by_cases odd : m % 2 = 0
  · by_cases odd' : m' % 2 = 0
    · -- two even mantissas are not neighbours
      have far : (m : ℚ) + 2 ≤ m' := by exact_mod_cast (show m + 2 ≤ m' by omega)
      have apart : (m + 1 / 2 : ℚ) * 2 ^ e < (m' - Decimal.gap precision least m' e) * 2 ^ e :=
        mul_lt_mul_of_pos_right (by linarith) place
      linarith [(h.between hm).2, (h'.between hm').1]
    · linarith [(h.between hm).2, (h'.inside hm' odd').1]
  · linarith [(h.inside hm odd).2, (h'.between hm').1]

/-- The interval of a number ends before that of the greatest mantissa would, which is odd. -/
theorem lt_of_holds (c : IsCanonical precision least m e) (hp : 2 ≤ precision) {q : ℚ}
    (h : (Target.ofExact precision least m e).Holds q) :
    q < ((2 : ℚ) ^ precision - 1 / 2) * 2 ^ e := by
  have place : (0 : ℚ) < 2 ^ e := by positivity
  by_cases last : m + 1 = 2 ^ precision
  · have even : 2 ^ precision = 2 * 2 ^ (precision - 1) := by
      rw [← pow_succ']
      congr 1
      omega
    have inside := (h.inside c.pos (by omega)).2
    have same : (m : ℚ) + 1 / 2 = 2 ^ precision - 1 / 2 := by
      have cast : (m : ℚ) + 1 = 2 ^ precision := by exact_mod_cast last
      linarith
    rwa [same] at inside
  · have less : (m : ℚ) + 2 ≤ 2 ^ precision := by
      exact_mod_cast (show m + 2 ≤ 2 ^ precision by have := c.lt; omega)
    have below : ((m : ℚ) + 1 / 2) * 2 ^ e < (2 ^ precision - 1 / 2) * 2 ^ e :=
      mul_lt_mul_of_pos_right (by linarith) place
    linarith [(h.between c.pos).2]

/-- The interval of a number with a full mantissa starts a quarter below the least of these at
    most. -/
theorem le_sub_gap (full : 2 ^ (precision - 1) ≤ m) (he : least < e) :
    (2 ^ (precision - 1) : ℚ) - 1 / 4 ≤ m - gap precision least m e := by
  rcases full.eq_or_lt with same | more
  · have narrow : gap precision least m e = 1 / 4 := if_pos ⟨same.symm, he⟩
    rw [narrow, ← same]
    push_cast
    exact le_refl _
  · have step : (2 ^ (precision - 1) : ℚ) + 1 ≤ m := by exact_mod_cast more
    linarith [gap_le precision least m e]

/-- The intervals of two numbers with different exponents are disjoint: the one with the greater
    exponent has a full mantissa. -/
theorem not_holds_of_exponent_lt (c : IsCanonical precision least m e)
    (c' : IsCanonical precision least m' e') (hp : 2 ≤ precision) (he : e < e') {q : ℚ}
    (h : (Target.ofExact precision least m e).Holds q) :
    ¬ (Target.ofExact precision least m' e').Holds q := by
  intro h'
  have above : least < e' := lt_of_le_of_lt c.le he
  have reach := le_sub_gap (c'.full.resolve_right above.ne') above
  have twice : 2 * (2 : ℚ) ^ e ≤ 2 ^ e' := by
    rw [← zpow_one_add₀ two_ne_zero]
    exact zpow_le_zpow_right₀ (by norm_num) (by omega)
  have large : (0 : ℚ) ≤ 2 ^ (precision - 1) - 1 / 4 := by
    have one : (1 : ℚ) ≤ 2 ^ (precision - 1) := one_le_pow₀ (by norm_num)
    linarith
  have powers : (2 : ℚ) ^ precision = 2 * 2 ^ (precision - 1) := by
    rw [← pow_succ']
    congr 1
    omega
  have lower : ((2 : ℚ) ^ precision - 1 / 2) * 2 ^ e ≤ q :=
    calc ((2 : ℚ) ^ precision - 1 / 2) * 2 ^ e
        = (2 ^ (precision - 1) - 1 / 4) * (2 * 2 ^ e) := by rw [powers]; ring
      _ ≤ (2 ^ (precision - 1) - 1 / 4) * 2 ^ e' := mul_le_mul_of_nonneg_left twice large
      _ ≤ (m' - gap precision least m' e') * 2 ^ e' :=
          mul_le_mul_of_nonneg_right reach (by positivity)
      _ ≤ q := (h'.between c'.pos).1
  exact absurd lower (not_le_of_gt (lt_of_holds c hp h))

/-- **No number belongs to the intervals of two.** -/
theorem eq_of_holds (hp : 2 ≤ precision) (c : IsCanonical precision least m e)
    (c' : IsCanonical precision least m' e') {q : ℚ}
    (h : (Target.ofExact precision least m e).Holds q)
    (h' : (Target.ofExact precision least m' e').Holds q) : m = m' ∧ e = e' := by
  rcases lt_trichotomy e e' with he | rfl | he
  · exact absurd h' (not_holds_of_exponent_lt c c' hp he h)
  · rcases lt_trichotomy m m' with hm | rfl | hm
    · exact absurd h' (not_holds_of_lt c.pos hm h)
    · exact ⟨rfl, rfl⟩
    · exact absurd h (not_holds_of_lt c'.pos hm h')
  · exact absurd h (not_holds_of_exponent_lt c' c hp he h')

/-- **The shortest decimals of two numbers have two values.** -/
theorem eq_of_value_eq (hp : 2 ≤ precision) (c : IsCanonical precision least m e)
    (c' : IsCanonical precision least m' e')
    (h : (shortest precision least m e).value = (shortest precision least m' e').value) :
    m = m' ∧ e = e' :=
  eq_of_holds hp c c' (holds_shortest hp c.pos c.lt) (h ▸ holds_shortest hp c'.pos c'.lt)

end Format

end Relief.Decimal
