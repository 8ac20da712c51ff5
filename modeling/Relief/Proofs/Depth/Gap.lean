import Mathlib.Analysis.Real.Pi.Bounds
import Mathlib.NumberTheory.Niven
import Relief.Proofs.Depth.Leaving

/-!
# The gap in the circle

Every sweep has the two headings along the `x` axis. In exact arithmetic, the rays of these two come
to every pixel of the image, but for one: a ray whose positions are halfway between two columns goes
from the column right of the first to the one left of it, because halves go away from zero.

* `mem_cells_iff`: a pixel is on the trail of a ray if it is among the cells of the ray at all;
* `exists_right`, `exists_left`: in every row there are a launch point of the circle right of the
  image and one left of it;
* `corner_of_isHalfway`: **only on the middle of the circle a launch point in a row of the image is
  halfway between two columns**;
* `axis_meets_iff`: **the rays along the axis come to all pixels but the gap.**
-/

namespace Relief

open Int (away IsHalfway)
open Real (pi cos sin arcsin)

namespace Trail

open Ray (Cell)

variable {e : Extent} {start step : Spot ℝ}

/-! ## 1. The pixels that a ray comes to -/

theorem mem_fresh {c : Cell} {last : Option Cell} {cells : List Cell} (h : c ∈ cells)
    (hlast : last ≠ some c) : c ∈ fresh last cells := by
  induction cells generalizing last with
  | nil => exact h
  | cons d rest ih =>
    rw [fresh]
    split
    · rename_i repeated
      rcases List.mem_cons.mp h with rfl | h
      · exact absurd (Cell.isLast_iff.mp repeated) hlast
      · exact ih h hlast
    · by_cases here : c = d
      · exact here ▸ List.mem_cons_self
      · have later := (List.mem_cons.mp h).resolve_left here
        exact List.mem_cons_of_mem d (ih later fun same => here (Option.some.inj same).symm)

/-- **A pixel is on the trail of a ray if it is among the cells of the ray at all.** -/
theorem mem_cells_iff {layout : Layout} (h : start ∈ (points layout e : List (Spot ℝ)))
    (long : 1 - 1e-10 ≤ step.length) {c : Cell} (hc : covers e c = true) :
    c ∈ cells layout e step start ↔ ∃ k, endless start step k = c := by
  have filtered {n : ℕ} (hn : maxSteps ℝ layout e ≤ n) :
      c ∈ cells layout e step start ↔ c ∈ (List.range n).map (endless start step) := by
    have same := filter_cells (leaves layout h long) (fun k j hj => stays_out layout h long hj) hn
    rw [← fresh_none] at same
    have kept {l : List Cell} : c ∈ l ↔ c ∈ l.filter (covers e) := by
      rw [List.mem_filter, and_iff_left hc]
    rw [kept, same, ← kept]
    exact ⟨mem_of_mem_fresh, fun h => mem_fresh h (Option.some_ne_none _).symm⟩
  constructor
  · intro on
    obtain ⟨k, -, hk⟩ := List.mem_map.mp ((filtered (le_refl _)).mp on)
    exact ⟨k, hk⟩
  · rintro ⟨k, hk⟩
    have taken : k < max (maxSteps ℝ layout e) (k + 1) := le_max_right _ (k + 1)
    exact (filtered (le_max_left _ _)).mpr (List.mem_map.mpr ⟨k, List.mem_range.mpr taken, hk⟩)

theorem long_leftward : 1 - 1e-10 ≤ (leftward ℝ).length := by
  rw [leftward, Spot.length]
  norm_num

theorem long_rightward : 1 - 1e-10 ≤ (rightward ℝ).length := by
  rw [rightward, Spot.length]
  norm_num

theorem endless_leftward (start : Spot ℝ) (k : ℕ) :
    endless start (leftward ℝ) k = ⟨away (start.x - k), away start.y⟩ := by
  rw [endless, Spot.cell_round, Spot.after, leftward]
  congr 2 <;> ring

theorem endless_rightward (start : Spot ℝ) (k : ℕ) :
    endless start (rightward ℝ) k = ⟨away (start.x + k), away start.y⟩ := by
  rw [endless, Spot.cell_round, Spot.after, rightward]
  congr 2 <;> ring

theorem covers_natCast {x y : ℕ} (hx : x < e.width.toNat) (hy : y < e.height.toNat) :
    covers e ⟨x, y⟩ = true :=
  covers_iff.mpr ⟨⟨Int.natCast_nonneg x, Int.ofNat_lt.mpr hx⟩,
    Int.natCast_nonneg y, Int.ofNat_lt.mpr hy⟩

/-- A ray to the left comes to all columns, but for the first if it is halfway. -/
theorem isMet_of_right {layout : Layout} {x y : ℕ} (hx : x < e.width.toNat)
    (hy : y < e.height.toNat) (h : start ∈ (points layout e : List (Spot ℝ)))
    (row : away start.y = y) (right : (x : ℝ) - 1 / 2 ≤ start.x)
    (hzero : x = 0 → ¬ IsHalfway start.x) : IsMet ℝ layout e ⟨x, y⟩ := by
  obtain ⟨k, hk⟩ := Int.exists_away_sub (Int.natCast_nonneg x) (by exact_mod_cast right)
    fun zero => hzero (by exact_mod_cast zero)
  refine ⟨start, h, .inl ((mem_cells_iff h long_leftward (covers_natCast hx hy)).mpr ⟨k, ?_⟩)⟩
  rw [endless_leftward, hk, row]

/-- A ray to the right comes to the first column if it is not halfway. -/
theorem isMet_of_left {layout : Layout} {y : ℕ} (hx : 0 < e.width.toNat)
    (hy : y < e.height.toNat) (h : start ∈ (points layout e : List (Spot ℝ)))
    (row : away start.y = y) (left : start.x ≤ 1 / 2) (hzero : ¬ IsHalfway start.x) :
    IsMet ℝ layout e ⟨(0 : ℕ), y⟩ := by
  obtain ⟨k, hk⟩ := Int.exists_away_sub (x := -start.x) (le_refl 0) (by push_cast; linarith)
    fun _ half => hzero (by simpa using half.neg)
  refine ⟨start, h, .inr ((mem_cells_iff h long_rightward (covers_natCast hx hy)).mpr ⟨k, ?_⟩)⟩
  have opposite : start.x + k = -(-start.x - k) := by ring
  rw [endless_rightward, opposite, Int.away_neg, hk, row, neg_zero]
  rfl

/-! ## 2. Launch points on the circle -/

theorem length_points_circular (e : Extent) :
    (points .circular e : List (Spot ℝ)).length = launches e := by
  rw [points_circular, List.length_map, List.length_range]

theorem le_launches (e : Extent) : 2 * pi * reach e ≤ launches e :=
  Nat.le_ceil _

section Rows

variable {y : ℕ} {j : ℤ} {θ : ℝ}

theorem launches_pos (hr : 0 < reach e) : (0 : ℝ) < launches e := by
  have : (0 : ℝ) < reach e := Nat.cast_pos.mpr hr
  exact lt_of_lt_of_le (by positivity) (le_launches e)

/-- Launch points can be counted by any whole numbers, round and round the circle. -/
theorem rim_mem (hr : 0 < reach e) (j : ℤ) :
    rim e (angle e j) ∈ (points .circular e : List (Spot ℝ)) := by
  have launched : (0 : ℝ) < launches e := launches_pos hr
  have many : (0 : ℤ) < launches e := by exact_mod_cast launched
  obtain ⟨i, hi⟩ := Int.eq_ofNat_of_zero_le (Int.emod_nonneg j many.ne')
  have round : angle e j = angle e i + (j / launches e : ℤ) * (2 * pi) := by
    have split : (j : ℝ) = (i : ℤ) + launches e * (j / launches e : ℤ) := by
      have := Int.emod_add_mul_ediv j (launches e)
      rw [hi] at this
      exact_mod_cast this.symm
    rw [angle, angle, split]
    field_simp
  have same : rim e (angle e j) = rim e (angle e i) := by
    rw [rim, rim, round, Real.cos_add_int_mul_two_pi, Real.sin_add_int_mul_two_pi]
  rw [points_circular, same]
  refine List.mem_map.mpr ⟨i, List.mem_range.mpr ?_, rfl⟩
  have := Int.emod_lt_of_pos j many
  omega

/-- Two launch points are not further apart than a pixel. -/
theorem exists_angle (hr : 0 < reach e) {a b : ℝ} (h : 1 / (reach e : ℝ) < b - a) :
    ∃ j, a < angle e j ∧ angle e j < b := by
  have pos : (0 : ℝ) < reach e := Nat.cast_pos.mpr hr
  have launched := launches_pos hr
  have near : 2 * pi / launches e ≤ 1 / reach e := by
    rw [div_le_div_iff₀ launched pos, one_mul]
    exact le_launches e
  have apart : 0 < 2 * pi / launches e := by positivity
  unfold angle
  generalize 2 * pi / (launches e : ℝ) = s at near apart
  have next := Int.lt_floor_add_one (a / s)
  have floor := Int.floor_le (a / s)
  rw [div_lt_iff₀ apart] at next
  rw [le_div_iff₀ apart] at floor
  -- the first launch point behind `a`
  refine ⟨⌊a / s⌋ + 1, ?_, ?_⟩ <;> push_cast <;> linarith

/-! ## 3. The rows of the circle -/

/-- Angles are further apart than their sines. -/
theorem sub_lt_arcsin_sub {a b : ℝ} (ha : -1 ≤ a) (hb : b ≤ 1) (h : a < b) :
    b - a < arcsin b - arcsin a := by
  have apart : 0 < (arcsin b - arcsin a) / 2 := by
    have := Real.strictMonoOn_arcsin ⟨ha, by linarith⟩ ⟨by linarith, hb⟩ h
    linarith
  have low := Real.neg_pi_div_two_le_arcsin a
  have high := Real.arcsin_le_pi_div_two b
  calc b - a = sin (arcsin b) - sin (arcsin a) := by
        rw [Real.sin_arcsin (by linarith) hb, Real.sin_arcsin ha (by linarith)]
    _ = 2 * sin ((arcsin b - arcsin a) / 2) * cos ((arcsin b + arcsin a) / 2) :=
        Real.sin_sub_sin _ _
    _ ≤ 2 * sin ((arcsin b - arcsin a) / 2) := by
        refine mul_le_of_le_one_right ?_ (Real.cos_le_one _)
        have := Real.sin_nonneg_of_nonneg_of_le_pi apart.le (by linarith)
        linarith
    _ < arcsin b - arcsin a := by
        have := Real.sin_lt apart
        linarith

theorem away_rim (row : |(rim e θ).y - y| < 1 / 2) : away (rim e θ).y = y := by
  obtain ⟨low, high⟩ := abs_lt.mp row
  exact Int.away_eq_of_lt (by push_cast; linarith) (by push_cast; linarith)

theorem rim_pi_sub_y (e : Extent) (θ : ℝ) : (rim e (pi - θ)).y = (rim e θ).y := by
  rw [rim, rim, Real.sin_pi_sub]

theorem reach_pos (hx : 0 < e.width.toNat) : 0 < reach e :=
  hx.trans_le (le_max_left _ _)

/-- The points of the circle right of a row. -/
theorem exists_row (hy : y < e.height.toNat) :
    ∃ a b, 1 / (reach e : ℝ) < b - a ∧
      ∀ θ, a < θ → θ < b → |(rim e θ).y - y| < 1 / 2 ∧ 0 < cos θ := by
  have tall : (e.height.toNat : ℝ) ≤ reach e := (sides_le e).2
  have inside : (y : ℝ) + 1 ≤ e.height.toNat := by exact_mod_cast hy
  have above : (0 : ℝ) ≤ y := Nat.cast_nonneg y
  have pos : (0 : ℝ) < reach e := by linarith
  generalize hh : (e.height.toNat : ℝ) = h at tall inside
  -- the sines at which the circle enters the row and leaves it
  let top : ℝ := (y - 1 / 2 - h / 2) / reach e
  let bottom : ℝ := (y + 1 / 2 - h / 2) / reach e
  have low : -1 ≤ top := by
    rw [le_div_iff₀ pos]
    linarith
  have high : bottom ≤ 1 := by
    rw [div_le_iff₀ pos]
    linarith
  have apart : bottom - top = 1 / reach e := by
    rw [← sub_div]
    congr 1
    ring
  have order : top < bottom := by
    have : 0 < 1 / (reach e : ℝ) := by positivity
    linarith
  refine ⟨arcsin top, arcsin bottom, apart ▸ sub_lt_arcsin_sub low high order, fun θ h₁ h₂ => ?_⟩
  have right₁ : -(pi / 2) < θ := (Real.neg_pi_div_two_le_arcsin _).trans_lt h₁
  have right₂ : θ < pi / 2 := h₂.trans_le (Real.arcsin_le_pi_div_two _)
  have below : top < sin θ :=
    (Real.arcsin_lt_iff_lt_sin ⟨low, by linarith⟩ ⟨right₁.le, right₂.le⟩).mp h₁
  have under : sin θ < bottom :=
    (Real.lt_arcsin_iff_sin_lt ⟨right₁.le, right₂.le⟩ ⟨by linarith, high⟩).mp h₂
  rw [div_lt_iff₀ pos] at below
  rw [lt_div_iff₀ pos] at under
  refine ⟨abs_lt.mpr ⟨?_, ?_⟩, Real.cos_pos_of_mem_Ioo ⟨right₁, right₂⟩⟩ <;>
    simp only [rim, hh] <;> linarith

/-- **Every row has a launch point on its right.** -/
theorem exists_right (hr : 0 < reach e) (hy : y < e.height.toNat) :
    ∃ j, |(rim e (angle e j)).y - y| < 1 / 2 ∧ 0 < cos (angle e j) := by
  obtain ⟨a, b, wide, row⟩ := exists_row hy
  obtain ⟨j, h₁, h₂⟩ := exists_angle hr wide
  exact ⟨j, row _ h₁ h₂⟩

/-- **Every row has a launch point on its left.** -/
theorem exists_left (hr : 0 < reach e) (hy : y < e.height.toNat) :
    ∃ j, |(rim e (angle e j)).y - y| < 1 / 2 ∧ cos (angle e j) < 0 := by
  obtain ⟨a, b, wide, row⟩ := exists_row hy
  obtain ⟨j, h₁, h₂⟩ := exists_angle hr (a := pi - b) (b := pi - a) (by linarith)
  obtain ⟨mirrored, right⟩ := row (pi - angle e j) (by linarith) (by linarith)
  rw [rim_pi_sub_y] at mirrored
  rw [Real.cos_pi_sub] at right
  exact ⟨j, mirrored, by linarith⟩

/-- The point is not far above or below the middle of the circle. -/
theorem sq_sin_le (row : |(rim e θ).y - y| < 1 / 2) (hy : y < e.height.toNat) :
    (sin θ * reach e) ^ 2 ≤ ((e.height.toNat + 1) / 2) ^ 2 := by
  have inside : (y : ℝ) + 1 ≤ e.height.toNat := by exact_mod_cast hy
  have above : (0 : ℝ) ≤ y := Nat.cast_nonneg y
  obtain ⟨low, high⟩ := abs_lt.mp row
  simp only [rim] at low high
  exact sq_le_sq' (by linarith) (by linarith)

/-- **It is at least as far from the middle of the image as the outermost columns are.** -/
theorem le_abs_cos (row : |(rim e θ).y - y| < 1 / 2) (hx : 0 < e.width.toNat)
    (hy : y < e.height.toNat) :
    (e.width.toNat - 1) / 2 ≤ |cos θ * reach e| := by
  have near := sq_sin_le row hy
  obtain ⟨wide, tall⟩ := sides_le e
  have one : (1 : ℝ) ≤ e.width.toNat := by exact_mod_cast hx
  have square : ((e.width.toNat - 1) / 2) ^ 2 ≤ (cos θ * reach e) ^ 2 := by
    have circle : (cos θ * reach e) ^ 2 = (reach e : ℝ) ^ 2 - (sin θ * reach e) ^ 2 := by
      linear_combination (reach e : ℝ) ^ 2 * Real.sin_sq_add_cos_sq θ
    have : (0 : ℝ) ≤ e.height.toNat := Nat.cast_nonneg _
    rw [circle]
    nlinarith
  exact (le_abs_self _).trans (sq_le_sq.mp square)

/-! ## 4. Launch points halfway between two columns -/

/-- **The cosine of a launch point halfway between two columns is a half or a whole number.** It is
    rational, and so is its angle as a part of the turn. -/
theorem exists_cos_eq (half : IsHalfway (rim e (angle e j)).x) (hr : 0 < reach e)
    (aside : cos (angle e j) ≠ 0) :
    ∃ t : ℤ, cos (angle e j) = t / 2 ∧ (t ^ 2 = 1 ∨ t ^ 2 = 4) := by
  have pos : (0 : ℝ) < reach e := Nat.cast_pos.mpr hr
  have turned : ∃ q : ℚ, angle e j = q * pi := by
    refine ⟨2 * j / launches e, ?_⟩
    rw [angle]
    push_cast
    ring
  have rational : ∃ q : ℚ, cos (angle e j) = q := by
    obtain ⟨m, hm⟩ := half
    simp only [rim] at hm
    refine ⟨(m + 1 / 2 - e.width.toNat / 2) / reach e, ?_⟩
    push_cast
    rw [eq_div_iff pos.ne']
    linarith
  rcases niven turned rational with c | c | c | c | c
  · exact ⟨-2, by rw [c]; norm_num, .inr rfl⟩
  · exact ⟨-1, by rw [c]; norm_num, .inl rfl⟩
  · exact absurd c aside
  · exact ⟨1, by rw [c]; norm_num, .inl rfl⟩
  · exact ⟨2, by rw [c]; norm_num, .inr rfl⟩

/-- The row through the middle of the circle has as many rows above as below. -/
theorem height_eq (row : |(rim e θ).y - y| < 1 / 2) (level : sin θ = 0) :
    e.height.toNat = 2 * y := by
  obtain ⟨low, high⟩ := abs_lt.mp row
  simp only [rim, level] at low high
  have below : ((2 * y : ℕ) : ℝ) < (e.height.toNat + 1 : ℕ) := by
    push_cast
    linarith
  have above : (e.height.toNat : ℝ) < (2 * y + 1 : ℕ) := by
    push_cast
    linarith
  have := Nat.cast_lt.mp below
  have := Nat.cast_lt.mp above
  omega

/-- **A launch point in a row of the image that is halfway between two columns is on the middle of
    the circle.** -/
theorem corner_of_isHalfway (row : |(rim e (angle e j)).y - y| < 1 / 2) (hx : 0 < e.width.toNat)
    (hy : y < e.height.toNat) (half : IsHalfway (rim e (angle e j)).x)
    (aside : cos (angle e j) ≠ 0) :
    cos (angle e j) ^ 2 = 1 ∧ Odd e.width.toNat ∧ e.height.toNat = 2 * y := by
  obtain ⟨t, cosine, ht⟩ := exists_cos_eq half (reach_pos hx) aside
  have odd : Odd ((e.width.toNat : ℤ) + t * reach e) := by
    obtain ⟨m, hm⟩ := half
    simp only [rim, cosine] at hm
    have twice : (e.width.toNat : ℝ) + t * reach e = 2 * m + 1 := by linarith
    exact ⟨m, by exact_mod_cast twice⟩
  have sine := Real.sin_sq_add_cos_sq (angle e j)
  rw [cosine, div_pow] at sine
  rcases ht with one | four
  · -- only a circle around a single pixel has such a point so far up or down
    have near := sq_sin_le row hy
    have square : (t : ℝ) ^ 2 = 1 := by exact_mod_cast one
    have small : 3 * (reach e : ℝ) ^ 2 ≤ (reach e + 1) ^ 2 := by
      have tall := (sides_le e).2
      have : (0 : ℝ) ≤ e.height.toNat := Nat.cast_nonneg _
      rw [mul_pow, show sin (angle e j) ^ 2 = 3 / 4 by linarith] at near
      nlinarith
    have single : 3 * reach e ^ 2 ≤ (reach e + 1) ^ 2 := by exact_mod_cast small
    have wide : e.width.toNat ≤ reach e := le_max_left _ _
    have reach : reach e = 1 := by nlinarith
    have width : e.width.toNat = 1 := by omega
    have other : Odd t := Int.odd_pow' two_ne_zero |>.mp (one ▸ odd_one)
    rw [reach, width, Nat.cast_one, mul_one, add_comm, Int.odd_add] at odd
    exact absurd (odd.mp other) (by decide)
  · have square : (t : ℝ) ^ 2 = 4 := by exact_mod_cast four
    have level : sin (angle e j) = 0 := by
      refine pow_eq_zero_iff two_ne_zero |>.mp ?_
      linarith
    refine ⟨by rw [cosine, div_pow, square]; norm_num, ?_, ?_⟩
    · have even : Even t := (Int.even_pow' two_ne_zero).mp (four ▸ by decide)
      exact (Int.odd_coe_nat _).mp ((Int.odd_add.mp odd).mpr (even.mul_right _))
    · exact height_eq row level

/-- **There is a launch point on the far side of the circle only if their number is even.** -/
theorem even_launches (hr : 0 < reach e) (h : cos (angle e j) = -1) : Even (launches e) := by
  obtain ⟨k, hk⟩ := Real.cos_eq_neg_one_iff.mp h
  have launched : (0 : ℝ) < launches e := launches_pos hr
  rw [angle] at hk
  field_simp at hk
  have turned : (launches e : ℤ) * (1 + 2 * k) = 2 * j := by
    have : (launches e : ℝ) * (1 + 2 * k) = 2 * j := by linarith
    exact_mod_cast this
  have even : Even ((launches e : ℤ) * (1 + 2 * k)) := turned ▸ even_two_mul j
  refine (Int.even_coe_nat _).mp ((Int.even_mul.mp even).resolve_right ?_)
  rw [Int.not_even_iff_odd, add_comm]
  exact odd_two_mul_add_one k

/-- Parts of a half turn that are not whole half turns are not small. -/
theorem sin_mul_pi_div (q i : ℕ) :
    sin (i * (pi / q)) = 0 ∨ 2 / (q : ℝ) ≤ |sin (i * (pi / q))| := by
  rcases Nat.eq_zero_or_pos q with rfl | hq
  · exact .inl (by simp)
  have pos : (0 : ℝ) < q := Nat.cast_pos.mpr hq
  -- half turns change the sign of the sine only
  have turned : |sin (i * (pi / q))| = |sin ((i % q : ℕ) * (pi / q))| := by
    have split : (i : ℝ) = (i % q : ℕ) + q * (i / q : ℕ) := by
      exact_mod_cast (Nat.mod_add_div i q).symm
    have angle : (i : ℝ) * (pi / q) = (i % q : ℕ) * (pi / q) + (i / q : ℕ) * pi := by
      nth_rewrite 1 [split]
      field_simp
    rw [angle, Real.sin_add_nat_mul_pi, abs_mul, abs_neg_one_pow, one_mul]
  have steep {r : ℕ} (hr : 0 < r) (hr' : 2 * r ≤ q) : 2 / (q : ℝ) ≤ sin (r * (pi / q)) := by
    have one : (1 : ℝ) ≤ r := by exact_mod_cast hr
    have half : (2 * r : ℝ) ≤ q := by exact_mod_cast hr'
    calc 2 / (q : ℝ) ≤ 2 / pi * (r * (pi / q)) := by
          rw [show 2 / pi * (r * (pi / q)) = 2 * r / q by field_simp]
          gcongr
          linarith
      _ ≤ sin (r * (pi / q)) := by
          refine Real.mul_le_sin (by positivity) ?_
          rw [mul_div_assoc', div_le_div_iff₀ pos two_pos]
          nlinarith [Real.pi_pos]
  rcases Nat.eq_zero_or_pos (i % q) with upright | inside
  · refine .inl (abs_eq_zero.mp ?_)
    rw [turned, upright, Nat.cast_zero, zero_mul, Real.sin_zero, abs_zero]
  refine .inr (turned ▸ le_trans ?_ (le_abs_self _))
  have less := Nat.mod_lt i hq
  rcases Nat.le_total (2 * (i % q)) q with low | high
  · exact steep inside low
  · have other := steep (r := q - i % q) (by omega) (by omega)
    rw [Nat.cast_sub less.le, sub_mul, mul_div_cancel₀ pi pos.ne', Real.sin_pi_sub] at other
    exact other

/-- **The row through the middle of the circle has no launch points but the first and the last**, if
    their number is even. -/
theorem sin_eq_zero (hr : 0 < reach e) (heven : Even (launches e)) {i : ℕ}
    (near : |sin (angle e i) * reach e| ≤ 1 / 2) : sin (angle e i) = 0 := by
  obtain ⟨q, hq⟩ := heven
  have one : (1 : ℝ) ≤ reach e := by exact_mod_cast hr
  have launched : (0 : ℝ) < launches e := launches_pos hr
  have two : (launches e : ℝ) = q + q := by exact_mod_cast hq
  have turned : angle e i = i * (pi / q) := by
    rw [angle, two, ← two_mul, mul_div_mul_left _ _ two_ne_zero, Int.cast_natCast]
  rw [turned] at near ⊢
  refine (sin_mul_pi_div q i).resolve_right fun far => ?_
  have few : (launches e : ℝ) < 2 * pi * reach e + 1 := Nat.ceil_lt_add_one (by positivity)
  have apart : 2 / (q : ℝ) * reach e ≤ 1 / 2 := by
    rw [abs_mul, abs_of_pos (by linarith : (0 : ℝ) < reach e)] at near
    exact (mul_le_mul_of_nonneg_right far (by linarith)).trans near
  rw [div_mul_eq_mul_div, div_le_div_iff₀ (by linarith) two_pos] at apart
  have := Real.pi_lt_d2
  nlinarith

end Rows

/-! ## 5. The gap -/

/-- Rays from the border come to every pixel. -/
theorem isMet_rectangular {x y : ℕ} (hx : x < e.width.toNat) (hy : y < e.height.toNat) :
    IsMet ℝ .rectangular e ⟨x, y⟩ := by
  have launched : (⟨(e.width.toNat : ℕ), (y : ℕ)⟩ : Spot ℝ) ∈ points .rectangular e :=
    List.mem_append_left _ <| List.mem_flatMap.mpr
      ⟨y, List.mem_range.mpr hy, List.mem_cons_of_mem _ List.mem_cons_self⟩
  have inside : (x : ℝ) ≤ e.width.toNat := by exact_mod_cast hx.le
  exact isMet_of_right hx hy launched (by exact_mod_cast Int.away_intCast (K := ℝ) y)
    (by linarith) fun _ => Int.not_isHalfway_natCast _

/-- Rays from the circle come to every pixel but the gap. -/
theorem isMet_circular {x y : ℕ} (hx : x < e.width.toNat) (hy : y < e.height.toNat)
    (hgap : ¬ IsGap ℝ .circular e ⟨x, y⟩) : IsMet ℝ .circular e ⟨x, y⟩ := by
  have wide : 0 < e.width.toNat := Nat.zero_lt_of_lt hx
  have hr := reach_pos wide
  have pos : (0 : ℝ) < reach e := Nat.cast_pos.mpr hr
  obtain ⟨j, row, right⟩ := exists_right hr hy
  have beyond : (x : ℝ) - 1 / 2 ≤ (rim e (angle e j)).x := by
    have far := le_abs_cos row wide hy
    have column : (x : ℝ) + 1 ≤ e.width.toNat := by exact_mod_cast hx
    rw [abs_of_pos (mul_pos right pos)] at far
    simp only [rim]
    linarith
  by_cases half : x = 0 ∧ IsHalfway (rim e (angle e j)).x
  · -- the launch point on the left does what that on the right does not
    obtain ⟨rfl, half⟩ := half
    obtain ⟨l, row', left⟩ := exists_left hr hy
    have beside : (rim e (angle e l)).x ≤ 1 / 2 := by
      have far := le_abs_cos row' wide hy
      rw [abs_of_neg (mul_neg_of_neg_of_pos left pos)] at far
      simp only [rim]
      linarith
    refine isMet_of_left wide hy (rim_mem hr l) (away_rim row') beside fun half' => hgap ?_
    obtain ⟨-, odd, tall⟩ := corner_of_isHalfway row wide hy half right.ne'
    obtain ⟨last, -⟩ := corner_of_isHalfway row' wide hy half' left.ne
    refine ⟨rfl, odd, ⟨y, by omega⟩, ?_, ?_⟩
    · rw [length_points_circular]
      exact even_launches hr ((sq_eq_one_iff.mp last).resolve_left (by linarith))
    · rw [tall, Nat.mul_div_cancel_left y two_pos]
      rfl
  · exact isMet_of_right hx hy (rim_mem hr j) (away_rim row) beyond fun zero h => half ⟨zero, h⟩

/-- No ray along the axis comes to the gap. -/
theorem not_isMet_gap {y : ℕ} (hw : Odd e.width.toNat) (hh : e.height.toNat = 2 * y) (hy : 0 < y)
    (heven : Even (launches e)) : ¬ IsMet ℝ .circular e ⟨(0 : ℕ), y⟩ := by
  rintro ⟨start, launched, on⟩
  have wide : 0 < e.width.toNat := hw.pos
  have hr := reach_pos wide
  have pixel : covers e ⟨(0 : ℕ), y⟩ = true := covers_natCast wide (by omega)
  rw [mem_cells_iff launched long_leftward pixel, mem_cells_iff launched long_rightward pixel] at on
  simp only [endless_leftward, endless_rightward, Cell.mk.injEq] at on
  have row : away start.y = y := by
    rcases on with ⟨k, -, row⟩ | ⟨k, -, row⟩ <;> exact row
  rw [points_circular] at launched
  obtain ⟨i, -, rfl⟩ := List.mem_map.mp launched
  have half : IsHalfway (rim e (angle e i)).x := by
    have low := Int.le_away (rim e (angle e i)).y
    have high := Int.away_le (rim e (angle e i)).y
    rw [row] at low high
    simp only [rim, hh] at low high
    push_cast at low high
    have near : |sin (angle e i) * reach e| ≤ 1 / 2 := abs_le.mpr ⟨by linarith, by linarith⟩
    have level := sin_eq_zero hr heven near
    have ends := Real.sin_sq_add_cos_sq (angle e i)
    rw [level, zero_pow two_ne_zero, zero_add] at ends
    obtain ⟨m, hm⟩ := hw
    rcases sq_eq_one_iff.mp ends with cosine | cosine
    · exact ⟨m + reach e, by simp only [rim, cosine, hm]; push_cast; ring⟩
    · exact ⟨m - reach e, by simp only [rim, cosine, hm]; push_cast; ring⟩
  rcases on with ⟨k, column, -⟩ | ⟨k, column, -⟩
  · refine (half.add_intCast (-k)).away_ne_zero ?_
    push_cast
    rw [← sub_eq_add_neg]
    exact_mod_cast column
  · refine (half.add_intCast k).away_ne_zero ?_
    exact_mod_cast column

/-- **The rays along the axis come to all pixels but the gap.** From the border they come to every
    pixel. From the circle they miss the first pixel of the middle row if the width is odd and
    height and number of launch points are even, and no other. -/
theorem axis_meets_iff (layout : Layout) {x y : ℕ} (hx : x < e.width.toNat)
    (hy : y < e.height.toNat) : IsMet ℝ layout e ⟨x, y⟩ ↔ ¬ IsGap ℝ layout e ⟨x, y⟩ := by
  constructor
  · rintro met ⟨rfl, odd, ⟨m, hm⟩, even, same⟩
    injection same with column row
    obtain rfl : x = 0 := by exact_mod_cast column
    have middle : y = e.height.toNat / 2 := by exact_mod_cast row
    rw [length_points_circular] at even
    exact not_isMet_gap odd (by omega) (by omega) even met
  · intro hgap
    cases layout with
    | circular => exact isMet_circular hx hy hgap
    | rectangular => exact isMet_rectangular hx hy

end Trail

end Relief
