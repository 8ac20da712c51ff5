import Mathlib.Analysis.SpecialFunctions.Trigonometric.Basic
import Mathlib.Data.List.Destutter
import Relief.Proofs.Depth.Trail
import Relief.Proofs.Number.Away

/-!
# Rays that leave

In exact arithmetic, a ray that has left its region does not come back to the image, and it leaves
before it has taken all the steps that it may take. So neither of the two conditions that end a
march loses a pixel.

* `Trail.fresh`: a list of cells without the repetitions of the cell before;
* `march_exact`: the trail of a ray is what is fresh among its cells, as far as the region goes;
* `rectangular_leaves`, `circular_leaves`: **a ray is outside the region before its last step**;
* `rectangular_stays_out`, `circular_stays_out`: **what is outside the region once is beside the
  image from then on**;
* `march_loses_no_pixel`: **a ray meets the pixels that it would meet without end.**
-/

namespace Relief

open Int (away)

/-! ## 1. Exact arithmetic -/

/-- The numbers of exact arithmetic. -/
noncomputable instance : Numbers ℝ where
  ofWord n := n.toNat
  ofCount n := n
  turn := 2 * Real.pi
  sinCos x := (Real.sin x, Real.cos x)
  sqrt := Real.sqrt
  ceil x := ⌈x⌉₊
  round x := away x
  truncate x := if x < 0 then -⌊-x⌋ else ⌊x⌋
  atMost a b := decide (a ≤ b)

theorem truncate_intCast (n : ℤ) : Numbers.truncate (n : ℝ) = n := by
  show (if (n : ℝ) < 0 then -⌊-(n : ℝ)⌋ else ⌊(n : ℝ)⌋) = n
  rw [← Int.cast_neg, Int.floor_intCast, Int.floor_intCast, neg_neg, ite_self]

/-! ## 2. The cells of a ray -/

/-- The middle of a cell. -/
def Ray.Cell.middle (c : Ray.Cell) : Spot ℝ :=
  ⟨c.x, c.y⟩

theorem Ray.Cell.isLast_iff {c : Ray.Cell} {last : Option Ray.Cell} :
    c.isLast last = true ↔ last = some c := by
  rcases last with _ | ⟨x, y⟩
  · exact ⟨nofun, nofun⟩
  · obtain ⟨x', y'⟩ := c
    simp [Ray.Cell.isLast]

namespace Spot

/-- The point so many steps further. -/
def after (p step : Spot ℝ) (k : ℕ) : Spot ℝ :=
  ⟨p.x + k * step.x, p.y + k * step.y⟩

theorem after_zero (p step : Spot ℝ) : p.after step 0 = p := by
  ext <;> simp [after]

theorem advance_after (p step : Spot ℝ) (k : ℕ) :
    (p.after step k).advance step = p.after step (k + 1) := by
  ext <;> simp only [after, advance] <;> push_cast <;> ring

/-- The length of a step. -/
noncomputable def length (step : Spot ℝ) : ℝ :=
  √(step.x ^ 2 + step.y ^ 2)

theorem length_sq (step : Spot ℝ) : step.length ^ 2 = step.x ^ 2 + step.y ^ 2 :=
  Real.sq_sqrt (by positivity)

/-- A point as a complex number. -/
def complex (p : Spot ℝ) : ℂ :=
  ⟨p.x, p.y⟩

theorem distance_eq (p q : Spot ℝ) : p.distance q = ‖p.complex - q.complex‖ := by
  rw [Complex.norm_def, Complex.normSq_apply]
  rfl

theorem norm_sub_sq (p q : Spot ℝ) :
    ‖p.complex - q.complex‖ ^ 2 = (p.x - q.x) ^ 2 + (p.y - q.y) ^ 2 := by
  rw [← Complex.normSq_eq_norm_sq, Complex.normSq_apply, sq, sq]
  rfl

theorem length_eq (step : Spot ℝ) : step.length = ‖step.complex‖ := by
  rw [Complex.norm_def, Complex.normSq_apply, length, sq, sq]
  rfl

theorem complex_after (p step : Spot ℝ) (k : ℕ) :
    (p.after step k).complex = p.complex + k * step.complex := by
  apply Complex.ext <;> simp [complex, after]

/-- The middle of a cell is near to all of its points. -/
theorem norm_round_sub_le (p : Spot ℝ) : ‖p.round.complex - p.complex‖ ≤ 3 / 4 := by
  have across := sq_le_sq' (by linarith [Int.le_away p.x]) (by linarith [Int.away_le p.x] :
    (away p.x : ℝ) - p.x ≤ 1 / 2)
  have down := sq_le_sq' (by linarith [Int.le_away p.y]) (by linarith [Int.away_le p.y] :
    (away p.y : ℝ) - p.y ≤ 1 / 2)
  rw [← distance_eq]
  refine Real.sqrt_le_iff.mpr ⟨by norm_num, ?_⟩
  show ((away p.x : ℝ) - p.x) * (away p.x - p.x) + (away p.y - p.y) * (away p.y - p.y) ≤ _
  linarith

theorem cell_round (p : Spot ℝ) : p.round.cell = ⟨away p.x, away p.y⟩ := by
  show Ray.Cell.mk (Numbers.truncate (away p.x : ℝ)) (Numbers.truncate (away p.y : ℝ)) = _
  rw [truncate_intCast, truncate_intCast]

theorem middle_cell_round (p : Spot ℝ) : p.round.cell.middle = p.round := by
  rw [cell_round]
  rfl

end Spot

namespace Trail

open Ray (Cell)

/-- The cells of a list without those that repeat the one before; `last` comes before the first. -/
def fresh : (last : Option Cell) → List Cell → List Cell
  | _, [] => []
  | last, c :: rest => if c.isLast last then fresh last rest else c :: fresh (some c) rest

theorem destutter'_eq_cons_fresh (c : Cell) (cells : List Cell) :
    cells.destutter' (· ≠ ·) c = c :: fresh (some c) cells := by
  induction cells generalizing c with
  | nil => rfl
  | cons d rest ih =>
    rw [fresh, List.destutter'_cons]
    by_cases same : c = d
    · subst same
      rw [if_neg (fun ne => ne rfl), if_pos (Cell.isLast_iff.mpr rfl), ih]
    · have other : ¬ d.isLast (some c) = true := fun h =>
        same (Option.some.inj (Cell.isLast_iff.mp h))
      rw [if_pos same, if_neg other, ih]

theorem fresh_none (cells : List Cell) : fresh none cells = cells.destutter (· ≠ ·) := by
  cases cells with
  | nil => rfl
  | cons c rest =>
    rw [List.destutter_cons', destutter'_eq_cons_fresh, fresh]
    exact if_neg Bool.false_ne_true

theorem mem_of_mem_fresh {c : Cell} {last : Option Cell} {cells : List Cell}
    (h : c ∈ fresh last cells) : c ∈ cells := by
  induction cells generalizing last with
  | nil => exact h
  | cons d rest ih =>
    rw [fresh] at h
    split at h
    · exact List.mem_cons_of_mem d (ih h)
    · rcases List.mem_cons.mp h with rfl | h
      · exact List.mem_cons_self
      · exact List.mem_cons_of_mem d (ih h)

/-- What is not to be found behind a list is not to be found among what is fresh there. -/
theorem filter_fresh_append {p : Cell → Bool} {behind : List Cell} (hb : ∀ c ∈ behind, p c = false)
    (last : Option Cell) (cells : List Cell) :
    (fresh last (cells ++ behind)).filter p = (fresh last cells).filter p := by
  induction cells generalizing last with
  | nil =>
    refine List.filter_eq_nil_iff.mpr fun c hc => ?_
    rw [hb c (mem_of_mem_fresh hc)]
    exact Bool.false_ne_true
  | cons c rest ih =>
    rw [List.cons_append, fresh, fresh]
    split
    · exact ih last
    · rw [List.filter_cons, List.filter_cons, ih]

/-- The cells of a ray that nobody ends. -/
noncomputable def endless (start step : Spot ℝ) (k : ℕ) : Cell :=
  (start.after step k).round.cell

/-- Whether a cell is in the region through which rays march. -/
noncomputable def region (layout : Layout) (e : Extent) (c : Cell) : Bool :=
  contains layout e c.middle

/-- **The march in exact arithmetic**: what is fresh among the cells of the ray, as far as the
    region goes. -/
theorem march_exact (layout : Layout) (e : Extent) (start step : Spot ℝ) (fuel k : ℕ)
    (last : Option Cell) :
    march layout e step fuel (start.after step k) last
      = fresh last (((List.range' k fuel).map (endless start step)).takeWhile (region layout e)) := by
  induction fuel generalizing k last with
  | zero => rfl
  | succ fuel ih =>
    rw [List.range'_succ, List.map_cons, List.takeWhile_cons, region, endless,
      Spot.middle_cell_round, march, Spot.advance_after]
    by_cases inside : contains layout e (start.after step k).round = true
    · rw [if_pos inside, if_pos inside, fresh, ← ih, ← ih]
    · rw [if_neg inside, if_neg inside]
      rfl

/-- Whether a cell is a pixel of the image. -/
def covers (e : Extent) (c : Cell) : Bool :=
  (slot? e c).isSome

theorem covers_iff {e : Extent} {c : Cell} :
    covers e c = true ↔ (0 ≤ c.x ∧ c.x < e.width.toNat) ∧ 0 ≤ c.y ∧ c.y < e.height.toNat := by
  unfold covers slot? Extent.slot?
  split <;> simp_all

section Leaves

variable {layout : Layout} {e : Extent} {start step : Spot ℝ}

theorem takeWhile_range {p : Cell → Bool} {f : ℕ → Cell} {m n : ℕ} (hm : m < n)
    (inside : ∀ k < m, p (f k) = true) (outside : p (f m) = false) :
    ((List.range n).map f).takeWhile p = (List.range m).map f := by
  obtain ⟨d, rfl⟩ := Nat.exists_eq_add_of_lt hm
  rw [Nat.add_assoc, List.range_add, List.map_append, List.takeWhile_append_of_pos]
  · rw [List.range_succ_eq_map, List.map_cons, List.map_cons, List.takeWhile_cons_of_neg,
      List.append_nil]
    rw [Nat.add_zero, outside]
    exact Bool.false_ne_true
  · intro c hc
    obtain ⟨k, hk, rfl⟩ := List.mem_map.mp hc
    exact inside k (List.mem_range.mp hk)

/-- **A march loses no pixel** if the ray is outside the region before its last step, and what is
    outside once is beside the image from then on. -/
theorem filter_cells
    (leaves : ∃ k < maxSteps ℝ layout e, region layout e (endless start step k) = false)
    (out : ∀ k j, k ≤ j → region layout e (endless start step k) = false →
      covers e (endless start step j) = false) {n : ℕ} (hn : maxSteps ℝ layout e ≤ n) :
    (cells layout e step start).filter (covers e)
      = (((List.range n).map (endless start step)).destutter (· ≠ ·)).filter (covers e) := by
  classical
  obtain ⟨k, hk, outside⟩ := leaves
  -- the first cell outside the region
  have exits : ∃ k, region layout e (endless start step k) = false := ⟨k, outside⟩
  let m := Nat.find exits
  have gone : region layout e (endless start step m) = false := Nat.find_spec exits
  have before : ∀ k < m, region layout e (endless start step k) = true := fun k hk =>
    Bool.eq_true_of_not_eq_false (Nat.find_min exits hk)
  have sooner : m ≤ k := Nat.find_min' exits outside
  have marched : cells layout e step start
      = fresh none ((List.range m).map (endless start step)) := by
    rw [cells]
    nth_rewrite 1 [← start.after_zero step]
    rw [march_exact, ← List.range_eq_range', takeWhile_range (by omega) before gone]
  obtain ⟨d, rfl⟩ := Nat.exists_eq_add_of_le (show m ≤ n by omega)
  rw [marched, ← fresh_none, List.range_add, List.map_append, filter_fresh_append]
  intro c hc
  obtain ⟨j, hj, rfl⟩ := List.mem_map.mp hc
  obtain ⟨i, -, rfl⟩ := List.mem_map.mp hj
  exact out m (m + i) (by omega) gone

end Leaves

/-! ## 3. Rays from the border -/

section Border

variable {e : Extent} {start step : Spot ℝ}

theorem region_rectangular {c : Cell} :
    region .rectangular e c = true ↔
      (-1 ≤ c.x ∧ c.x ≤ e.width.toNat) ∧ -1 ≤ c.y ∧ c.y ≤ e.height.toNat := by
  have low (n : ℤ) : ((-1 : ℝ) ≤ n) ↔ -1 ≤ n := by
    rw [← Int.cast_one, ← Int.cast_neg, Int.cast_le]
  have high (n : ℤ) (m : ℕ) : ((n : ℝ) ≤ m) ↔ n ≤ m := by
    rw [← Int.cast_natCast, Int.cast_le]
  show (((decide _ && decide _) && decide _) && decide _) = true ↔ _
  simp only [Bool.and_eq_true, decide_eq_true_eq]
  show ((((-1 : ℝ) ≤ c.x ∧ (-1 : ℝ) ≤ c.y) ∧ (c.x : ℝ) ≤ (e.width.toNat : ℝ)) ∧
    (c.y : ℝ) ≤ (e.height.toNat : ℝ)) ↔ _
  rw [low, low, high, high]
  tauto

/-- A launch point on the border is in the region. -/
theorem mem_border (h : start ∈ (border e : List (Spot ℝ))) :
    (-1 ≤ start.x ∧ start.x ≤ e.width.toNat) ∧ -1 ≤ start.y ∧ start.y ≤ e.height.toNat := by
  have natural (n : ℕ) : (-1 : ℝ) ≤ n := by linarith [n.cast_nonneg (α := ℝ)]
  have below {i n : ℕ} (hi : i < n) : (i : ℝ) ≤ n := Nat.cast_le.mpr hi.le
  rcases List.mem_append.mp h with h | h
  · obtain ⟨y, hy, h⟩ := List.mem_flatMap.mp h
    have hy := List.mem_range.mp hy
    rcases List.mem_pair.mp h with rfl | rfl
    · exact ⟨⟨le_refl _, natural _⟩, natural y, below hy⟩
    · exact ⟨⟨natural _, le_refl _⟩, natural y, below hy⟩
  · obtain ⟨x, hx, h⟩ := List.mem_flatMap.mp h
    have hx := List.mem_range.mp hx
    rcases List.mem_pair.mp h with rfl | rfl
    · exact ⟨⟨natural x, below hx⟩, le_refl _, natural _⟩
    · exact ⟨⟨natural x, below hx⟩, natural _, le_refl _⟩

/-- What has come above a bound from below stays above it. -/
theorem stays_above {a s : ℝ} {k j : ℕ} {b : ℤ} (start : away a ≤ b) (above : b < away (a + k * s))
    (hj : k ≤ j) : b < away (a + j * s) := by
  have rises : a < a + k * s := by
    by_contra falls
    have := Int.away_mono (not_lt.mp falls)
    omega
  have positive : 0 < s := by
    by_contra negative
    have : (k : ℝ) * s ≤ 0 := mul_nonpos_of_nonneg_of_nonpos k.cast_nonneg (not_lt.mp negative)
    linarith
  have further : (k : ℝ) * s ≤ j * s :=
    mul_le_mul_of_nonneg_right (Nat.cast_le.mpr hj) positive.le
  have := Int.away_mono (add_le_add_right further a)
  omega

/-- What has come below a bound from above stays below it. -/
theorem stays_below {a s : ℝ} {k j : ℕ} {b : ℤ} (start : b ≤ away a) (below : away (a + k * s) < b)
    (hj : k ≤ j) : away (a + j * s) < b := by
  have falls : a + k * s < a := by
    by_contra rises
    have := Int.away_mono (not_lt.mp rises)
    omega
  have negative : s < 0 := by
    by_contra positive
    have : 0 ≤ (k : ℝ) * s := mul_nonneg k.cast_nonneg (not_lt.mp positive)
    linarith
  have further : (j : ℝ) * s ≤ k * s :=
    mul_le_mul_of_nonpos_right (Nat.cast_le.mpr hj) negative.le
  have := Int.away_mono (add_le_add_right further a)
  omega

/-- **What has left the border behind is beside the image from then on.** -/
theorem rectangular_stays_out (h : start ∈ (border e : List (Spot ℝ))) {k j : ℕ} (hj : k ≤ j)
    (gone : region .rectangular e (endless start step k) = false) :
    covers e (endless start step j) = false := by
  obtain ⟨⟨left, right⟩, top, bottom⟩ := mem_border h
  have low {x : ℝ} (hx : -1 ≤ x) : -1 ≤ away x := by
    have := Int.away_mono hx
    rwa [show (-1 : ℝ) = ((-1 : ℤ) : ℝ) by norm_num, Int.away_intCast] at this
  have high {x : ℝ} {n : ℕ} (hx : x ≤ n) : away x ≤ n := by
    have := Int.away_mono hx
    rwa [← Int.cast_natCast, Int.away_intCast] at this
  rw [← Bool.not_eq_true, covers_iff]
  rw [← Bool.not_eq_true, region_rectangular] at gone
  simp only [endless, Spot.cell_round, Spot.after] at gone ⊢
  rintro ⟨⟨hx, hx'⟩, hy, hy'⟩
  refine gone ⟨⟨?_, ?_⟩, ?_, ?_⟩ <;> by_contra beyond <;> rw [not_le] at beyond
  · have := stays_below (low left) beyond hj
    omega
  · have := stays_above (high right) beyond hj
    omega
  · have := stays_below (low top) beyond hj
    omega
  · have := stays_above (high bottom) beyond hj
    omega

theorem maxSteps_rectangular (e : Extent) :
    maxSteps ℝ .rectangular e = e.width.toNat + e.height.toNat + 8 := by
  have span : ⌈(e.width.toNat : ℝ) + e.height.toNat + 4⌉₊ = e.width.toNat + e.height.toNat + 4 := by
    exact_mod_cast Nat.ceil_natCast (R := ℝ) (e.width.toNat + e.height.toNat + 4)
  show ⌈(e.width.toNat : ℝ) + e.height.toNat + 4⌉₊ + 4 = _
  rw [span]

/-- The extent of an image is two words. -/
theorem toNat_le (n : UInt32) : (n.toNat : ℝ) ≤ 4294967296 := by
  exact_mod_cast n.toNat_lt.le

/-- **A ray from the border is outside the region before its last step**: the way that it has gone
    is longer than the region is wide. -/
theorem rectangular_leaves (h : start ∈ (border e : List (Spot ℝ)))
    (long : 1 - 1e-10 ≤ step.length) :
    ∃ k < maxSteps ℝ .rectangular e, region .rectangular e (endless start step k) = false := by
  obtain ⟨⟨left, right⟩, top, bottom⟩ := mem_border h
  let w : ℝ := e.width.toNat
  let h : ℝ := e.height.toNat
  refine ⟨e.width.toNat + e.height.toNat + 7, by rw [maxSteps_rectangular]; omega, ?_⟩
  rw [← Bool.not_eq_true, region_rectangular]
  simp only [endless, Spot.cell_round, Spot.after]
  generalize hk : ((e.width.toNat + e.height.toNat + 7 : ℕ) : ℝ) = k
  rintro ⟨⟨hx, hx'⟩, hy, hy'⟩
  have count : w + h + 7 = k := by rw [← hk]; push_cast; rfl
  have within {a d : ℝ} {n : ℕ} (ha : -1 ≤ a) (ha' : a ≤ n) (hd : -1 ≤ away (a + d))
      (hd' : away (a + d) ≤ n) : d ^ 2 ≤ (n + 3 / 2) ^ 2 := by
    have low : (-1 : ℝ) ≤ away (a + d) := by exact_mod_cast hd
    have high : (away (a + d) : ℝ) ≤ n := by exact_mod_cast hd'
    have := Int.away_le (a + d)
    have := Int.le_away (a + d)
    exact sq_le_sq' (by linarith) (by linarith)
  have across := within left right hx hx'
  have down := within top bottom hy hy'
  have way : (k * step.length) ^ 2 ≤ (w + h + 3) ^ 2 :=
    calc (k * step.length) ^ 2 = (k * step.x) ^ 2 + (k * step.y) ^ 2 := by
          rw [mul_pow, step.length_sq]
          ring
      _ ≤ (w + 3 / 2) ^ 2 + (h + 3 / 2) ^ 2 := add_le_add across down
      _ ≤ (w + h + 3) ^ 2 := by
          have : 0 ≤ w := Nat.cast_nonneg _
          have : 0 ≤ h := Nat.cast_nonneg _
          nlinarith
  have : 0 ≤ w := Nat.cast_nonneg _
  have : 0 ≤ h := Nat.cast_nonneg _
  have short := abs_le_of_sq_le_sq' way (by linarith)
  have wide : w ≤ 4294967296 := toNat_le e.width
  have tall : h ≤ 4294967296 := toNat_le e.height
  have gone : k * (1 - 1e-10) ≤ k * step.length :=
    mul_le_mul_of_nonneg_left long (by linarith)
  linarith

end Border

/-! ## 4. Rays from the circle -/

section Circle

variable {e : Extent} {start step : Spot ℝ}

/-- The larger side of an image. -/
def reach (e : Extent) : ℕ :=
  max e.width.toNat e.height.toNat

theorem radius_exact (e : Extent) : (radius e : ℝ) = reach e := by
  show (if e.width < e.height then ((e.height.toNat : ℕ) : ℝ) else (e.width.toNat : ℝ)) = reach e
  unfold reach
  by_cases taller : e.width < e.height
  · rw [if_pos taller, max_eq_right (UInt32.lt_iff_toNat_lt.mp taller).le]
  · rw [if_neg taller, max_eq_left (not_lt.mp fun h => taller (UInt32.lt_iff_toNat_lt.mpr h))]

theorem region_circular {c : Cell} :
    region .circular e c = true ↔ ‖c.middle.complex - (center e).complex‖ ≤ reach e + 1 := by
  rw [← Spot.distance_eq, ← radius_exact]
  exact decide_eq_true_iff

/-- How many rays start on the circle. -/
noncomputable def launches (e : Extent) : ℕ :=
  ⌈2 * Real.pi * reach e⌉₊

/-- The angle of a launch point on the circle. -/
noncomputable def angle (e : Extent) (j : ℤ) : ℝ :=
  j * (2 * Real.pi / launches e)

/-- The point of the circle at an angle. -/
noncomputable def rim (e : Extent) (θ : ℝ) : Spot ℝ :=
  ⟨e.width.toNat / 2 + Real.cos θ * reach e, e.height.toNat / 2 + Real.sin θ * reach e⟩

theorem points_circular (e : Extent) :
    (points .circular e : List (Spot ℝ))
      = (List.range (launches e)).map fun i => rim e (angle e (i : ℕ)) := by
  show circle (center e) (radius e : ℝ) = _
  rw [radius_exact]
  refine List.map_congr_left fun i _ => ?_
  have turned : 2 * Real.pi * i / launches e = angle e (i : ℕ) := by
    rw [angle, Int.cast_natCast]
    ring
  show (⟨_ + Real.cos (2 * Real.pi * i / launches e) * _,
    _ + Real.sin (2 * Real.pi * i / launches e) * _⟩ : Spot ℝ) = _
  rw [turned]
  rfl

theorem center_exact (e : Extent) :
    (center e : Spot ℝ) = ⟨e.width.toNat / 2, e.height.toNat / 2⟩ := rfl

/-- The points of the circle are as far from the middle of the image as the larger side is long. -/
theorem norm_rim_sub (e : Extent) (θ : ℝ) :
    ‖(rim e θ).complex - (center e).complex‖ = reach e := by
  refine (sq_eq_sq₀ (norm_nonneg _) (Nat.cast_nonneg _)).mp ?_
  rw [Spot.norm_sub_sq, center_exact, rim]
  linear_combination (reach e : ℝ) ^ 2 * Real.sin_sq_add_cos_sq θ

theorem mem_circle (h : start ∈ circle (center e) (radius e : ℝ)) :
    ‖start.complex - (center e).complex‖ = reach e := by
  change start ∈ points .circular e at h
  rw [points_circular] at h
  obtain ⟨i, -, rfl⟩ := List.mem_map.mp h
  exact norm_rim_sub e _

theorem maxSteps_circular (e : Extent) : maxSteps ℝ .circular e = 2 * reach e + 8 := by
  have span : ⌈2 * ((reach e : ℝ) + 2)⌉₊ = 2 * (reach e + 2) := by
    exact_mod_cast Nat.ceil_natCast (R := ℝ) (2 * (reach e + 2))
  show ⌈2 * ((radius e : ℝ) + 2)⌉₊ + 4 = _
  rw [radius_exact, span]
  ring

theorem reach_le (e : Extent) : (reach e : ℝ) ≤ 4294967296 := by
  rw [reach, Nat.cast_max]
  exact max_le (toNat_le _) (toNat_le _)

/-- **A ray from the circle is outside the region before its last step**: the way that it has gone
    is longer than the region is wide. -/
theorem circular_leaves (h : start ∈ circle (center e) (radius e : ℝ))
    (long : 1 - 1e-10 ≤ step.length) :
    ∃ k < maxSteps ℝ .circular e, region .circular e (endless start step k) = false := by
  refine ⟨2 * reach e + 7, by rw [maxSteps_circular]; omega, ?_⟩
  rw [← Bool.not_eq_true, region_circular, endless, Spot.middle_cell_round]
  intro inside
  have near := (start.after step (2 * reach e + 7)).norm_round_sub_le
  rw [norm_sub_rev] at near
  have begun := mem_circle h
  rw [norm_sub_rev] at begun
  have way : (2 * reach e + 7 : ℝ) * step.length
      = ‖(start.after step (2 * reach e + 7)).complex - start.complex‖ := by
    rw [Spot.complex_after, add_sub_cancel_left, norm_mul, Complex.norm_natCast, Spot.length_eq]
    push_cast
    rfl
  have short : (2 * reach e + 7 : ℝ) * step.length ≤ 3 / 4 + (reach e + 1) + reach e :=
    calc _ ≤ ‖(start.after step (2 * reach e + 7)).complex
              - (start.after step (2 * reach e + 7)).round.complex‖
            + ‖(start.after step (2 * reach e + 7)).round.complex - (center e).complex‖
            + ‖(center e).complex - start.complex‖ := by
          rw [way]
          exact (norm_sub_le_norm_sub_add_norm_sub _ _ _).trans
            (add_le_add_left (norm_sub_le_norm_sub_add_norm_sub _ _ _) _)
      _ ≤ _ := add_le_add (add_le_add near inside) begun.le
  have wide := reach_le e
  have : (0 : ℝ) ≤ reach e := Nat.cast_nonneg _
  have gone : (2 * reach e + 7 : ℝ) * (1 - 1e-10) ≤ (2 * reach e + 7) * step.length :=
    mul_le_mul_of_nonneg_left long (by linarith)
  linarith

/-- **A ray that is away from the circle moves on away from it.** The squares of its distances from
    the middle are those of a point that moves along a line. -/
theorem farther {r b σ : ℝ} {k j : ℕ} (hk : 0 < k) (hj : k < j) (hσ : 0 ≤ σ)
    (gone : 0 < 2 * k * b + k ^ 2 * σ) :
    r ^ 2 + (2 * k * b + k ^ 2 * σ) + 2 * σ ≤ r ^ 2 + (2 * j * b + j ^ 2 * σ) := by
  have one : (1 : ℝ) ≤ k := by exact_mod_cast hk
  have next : (k : ℝ) + 1 ≤ j := by exact_mod_cast hj
  have two : (2 : ℝ) ≤ j * (j - k) := by nlinarith
  have scaled : 0 ≤ (k : ℝ) * ((2 * j * b + j ^ 2 * σ) - (2 * k * b + k ^ 2 * σ) - 2 * σ) :=
    calc (0 : ℝ) ≤ (j - k) * (2 * k * b + k ^ 2 * σ) + k * ((j * (j - k) - 2) * σ) := by
          have : 0 ≤ (j - k) * (2 * k * b + k ^ 2 * σ) := mul_nonneg (by linarith) gone.le
          have : 0 ≤ (j * (j - k) - 2) * σ := mul_nonneg (by linarith) hσ
          have := mul_nonneg k.cast_nonneg this
          linarith
      _ = _ := by ring
  have := nonneg_of_mul_nonneg_right scaled (by linarith)
  linarith

/-- The square of the distance that a ray has from a point after some steps. -/
theorem norm_after_sub_sq (p : Spot ℝ) (k : ℕ) :
    ‖(start.after step k).complex - p.complex‖ ^ 2
      = ‖start.complex - p.complex‖ ^ 2
        + (2 * k * ((start.x - p.x) * step.x + (start.y - p.y) * step.y)
          + k ^ 2 * step.length ^ 2) := by
  rw [Spot.norm_sub_sq, Spot.norm_sub_sq, Spot.length_sq, Spot.after]
  ring

theorem sides_le (e : Extent) : (e.width.toNat : ℝ) ≤ reach e ∧ (e.height.toNat : ℝ) ≤ reach e :=
  ⟨Nat.cast_le.mpr (le_max_left _ _), Nat.cast_le.mpr (le_max_right _ _)⟩

/-- The pixels of the image are in the region. -/
theorem region_of_covers {c : Cell} (h : covers e c = true) : region .circular e c = true := by
  obtain ⟨⟨hx, hx'⟩, hy, hy'⟩ := covers_iff.mp h
  have offset {n : ℤ} {m : ℕ} (hn : 0 ≤ n) (hm : n < m) : ((n : ℝ) - m / 2) ^ 2 ≤ (m / 2) ^ 2 := by
    have low : (0 : ℝ) ≤ n := by exact_mod_cast hn
    have high : (n : ℝ) ≤ m := by exact_mod_cast hm.le
    exact sq_le_sq' (by linarith) (by linarith)
  have across := offset hx hx'
  have down := offset hy hy'
  obtain ⟨wide, tall⟩ := sides_le e
  rw [region_circular]
  refine abs_le_of_sq_le_sq' ?_ (by positivity) |>.2
  rw [Spot.norm_sub_sq, center_exact]
  show ((c.x : ℝ) - e.width.toNat / 2) ^ 2 + ((c.y : ℝ) - e.height.toNat / 2) ^ 2 ≤ _
  have : (0 : ℝ) ≤ e.width.toNat := Nat.cast_nonneg _
  have : (0 : ℝ) ≤ e.height.toNat := Nat.cast_nonneg _
  nlinarith

/-- A point in a pixel of the image is not far from the middle of the image. -/
theorem norm_sub_center_le {p : Spot ℝ} (h : covers e p.round.cell = true) :
    ‖p.complex - (center e).complex‖ ^ 2 ≤ (reach e + 1) ^ 2 / 2 := by
  rw [Spot.cell_round, covers_iff] at h
  obtain ⟨⟨hx, hx'⟩, hy, hy'⟩ := h
  have offset {x : ℝ} {m : ℕ} (hx : 0 ≤ away x) (hm : away x < m) :
      (x - m / 2) ^ 2 ≤ ((m + 1) / 2) ^ 2 := by
    have low : (0 : ℝ) ≤ away x := by exact_mod_cast hx
    have high : (away x : ℝ) ≤ m := by exact_mod_cast hm.le
    have last : (away x : ℝ) + 1 ≤ m := by exact_mod_cast hm
    have := Int.away_le x
    have := Int.le_away x
    exact sq_le_sq' (by linarith) (by linarith)
  have across := offset hx hx'
  have down := offset hy hy'
  obtain ⟨wide, tall⟩ := sides_le e
  rw [Spot.norm_sub_sq, center_exact]
  have : (0 : ℝ) ≤ e.width.toNat := Nat.cast_nonneg _
  have : (0 : ℝ) ≤ e.height.toNat := Nat.cast_nonneg _
  nlinarith

/-- **What has left the circle behind is beside the image from then on.** -/
theorem circular_stays_out (h : start ∈ circle (center e) (radius e : ℝ))
    (long : 1 - 1e-10 ≤ step.length) {k j : ℕ} (hj : k ≤ j)
    (gone : region .circular e (endless start step k) = false) :
    covers e (endless start step j) = false := by
  rw [← Bool.not_eq_true]
  intro inside
  rw [← Bool.not_eq_true] at gone
  have later : k < j := hj.lt_of_ne fun same => gone (region_of_covers (same ▸ inside))
  rw [region_circular, endless, Spot.middle_cell_round, not_le] at gone
  have begun := mem_circle h
  have near := (start.after step k).norm_round_sub_le
  have away : (reach e : ℝ) + 1 / 4 < ‖(start.after step k).complex - (center e).complex‖ := by
    have := norm_sub_le_norm_sub_add_norm_sub (start.after step k).round.complex
      (start.after step k).complex (center e).complex
    linarith
  have still : 0 < k := by
    refine Nat.pos_of_ne_zero fun zero => ?_
    rw [zero, start.after_zero step, begun] at away
    linarith
  have positive : (0 : ℝ) ≤ reach e := Nat.cast_nonneg _
  have square := pow_lt_pow_left₀ away (by linarith) two_ne_zero
  have close := norm_sub_center_le inside
  rw [norm_after_sub_sq, begun] at square close
  generalize (start.x - (center e : Spot ℝ).x) * step.x + (start.y - (center e : Spot ℝ).y) * step.y
    = b at square close
  have onward := farther (r := reach e) still later (sq_nonneg step.length) (by linarith : 0 <
    2 * (k : ℝ) * b + k ^ 2 * step.length ^ 2)
  have : (1 - 1e-10) ^ 2 ≤ step.length ^ 2 := pow_le_pow_left₀ (by norm_num) long 2
  nlinarith

end Circle

/-! ## 5. Rays from any launch point -/

section Any

variable {e : Extent} {start step : Spot ℝ}

/-- **A ray is outside the region before its last step.** -/
theorem leaves (layout : Layout) (h : start ∈ (points layout e : List (Spot ℝ)))
    (long : 1 - 1e-10 ≤ step.length) :
    ∃ k < maxSteps ℝ layout e, region layout e (endless start step k) = false :=
  match layout with
  | .circular => circular_leaves h long
  | .rectangular => rectangular_leaves h long

/-- **What is outside the region once is beside the image from then on.** -/
theorem stays_out (layout : Layout) (h : start ∈ (points layout e : List (Spot ℝ)))
    (long : 1 - 1e-10 ≤ step.length) {k j : ℕ} (hj : k ≤ j)
    (gone : region layout e (endless start step k) = false) :
    covers e (endless start step j) = false :=
  match layout with
  | .circular => circular_stays_out h long hj gone
  | .rectangular => rectangular_stays_out h hj gone

end Any

/-- **Neither of the conditions that end a march loses a pixel.** In double precision, launch points
    and visits are those of the rays that are integrated. In exact arithmetic, where the length of a
    step is at least one but for what rounding may take off it, a ray comes to the same pixels in the
    same order as one that takes any greater number of steps without regard to the region; and it is
    outside the region before it has taken all of its steps. -/
theorem march_loses_no_pixel (layout : Layout) (e : Extent) :
    (Launch.plan e layout).points = (points layout e).map Spot.toPoint ∧
    (∀ (slopes : Slopes) (step start : Point), slopes.extent = e →
      (Ray.visits slopes (Launch.plan e layout) step start).map Visit.slot
        = (cells layout e step.toSpot start.toSpot).filterMap (slot? e)) ∧
    ∀ start ∈ (points layout e : List (Spot ℝ)), ∀ step : Spot ℝ, 1 - 1e-10 ≤ step.length →
      (∃ k < maxSteps ℝ layout e, region layout e (endless start step k) = false) ∧
      ∀ n, maxSteps ℝ layout e ≤ n →
        (cells layout e step start).filter (covers e)
          = (((List.range n).map (endless start step)).destutter (· ≠ ·)).filter (covers e) := by
  refine ⟨points_double layout e, ?_, fun start h step long => ⟨leaves layout h long, fun n hn => ?_⟩⟩
  · rintro slopes step start rfl
    exact slots_visits layout slopes.extent slopes step start
  · exact filter_cells (leaves layout h long) (fun k j hj => stays_out layout h long hj) hn

/-- A ray along the row of an image of two pixels meets both. -/
theorem row_is_met :
    (⟨-1, 0⟩ : Spot ℝ) ∈ points .rectangular ⟨2, 1⟩ ∧
    1 - 1e-10 ≤ (⟨1, 0⟩ : Spot ℝ).length ∧
    (cells .rectangular ⟨2, 1⟩ (⟨1, 0⟩ : Spot ℝ) ⟨-1, 0⟩).filter (covers ⟨2, 1⟩)
      = [⟨0, 0⟩, ⟨1, 0⟩] := by
  have launched : (⟨-1, 0⟩ : Spot ℝ) ∈ points .rectangular ⟨2, 1⟩ := by
    refine List.mem_append_left _ (List.mem_flatMap.mpr ⟨0, by decide, List.mem_pair.mpr (.inl ?_)⟩)
    exact congrArg (Spot.mk (-1)) Nat.cast_zero.symm
  have long : 1 - 1e-10 ≤ (⟨1, 0⟩ : Spot ℝ).length := by
    rw [Spot.length]
    norm_num
  have row (k : ℕ) : endless ⟨-1, 0⟩ ⟨1, 0⟩ k = ⟨(k : ℤ) - 1, 0⟩ := by
    have across : (-1 + k * 1 : ℝ) = ((k - 1 : ℤ) : ℝ) := by
      push_cast
      ring
    have down : (0 + k * 0 : ℝ) = ((0 : ℤ) : ℝ) := by simp
    rw [endless, Spot.cell_round, Spot.after, across, down, Int.away_intCast, Int.away_intCast]
  refine ⟨launched, long, ?_⟩
  rw [((march_loses_no_pixel .rectangular ⟨2, 1⟩).2.2 _ launched _ long).2 11
    (maxSteps_rectangular _).le, funext row]
  decide

end Trail

end Relief
