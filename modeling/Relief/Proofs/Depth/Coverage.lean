import Relief.Proofs.Depth.Gap
import Relief.Proofs.Depth.Return
import Relief.Proofs.Depth.Schedule
import Relief.Proofs.Number.Rounding

/-!
# Coverage

Which pixels the rays of an integration visit, and how often that is counted.

* `Sweep.mem_plan`: **every sweep has the heading along the `x` axis and its opposite**;
* `Trail.mem_cells_beside`: **the ray that starts beside the last pixel of a row comes to all pixels
  of the row**, in double precision;
* `Tally.Holds.count`: the count of a slot is the number of its visits, as a word;
* `visitCount_pos`: from the border, every slot is visited;
* `rays_cover_image`: **rays from the border cover the image, and so do rays from the circle, but
  for the gap**;
* `column_has_gap`: an image with the gap.
-/

namespace Relief

open Double

/-! ## 1. The heading that every sweep begins with -/

namespace Sweep

variable {h : Heading}

theorem Draft.mem_addPair {d : Draft} (hd : h ∈ d.reversed) (azimuth : Float) :
    h ∈ (d.addPair azimuth).reversed := by
  unfold addPair
  split
  · exact hd
  · exact List.mem_cons_of_mem _ (List.mem_cons_of_mem _ hd)

theorem Draft.mem_addLevel (target : Nat) (step : Float) (fuel : Nat) (k : UInt32) {d : Draft}
    (hd : h ∈ d.reversed) : h ∈ (d.addLevel target step fuel k).reversed := by
  induction fuel generalizing k d with
  | zero => exact hd
  | succ fuel ih =>
    unfold addLevel
    split
    · exact ih (k + 2) (mem_addPair hd _)
    · exact hd

theorem Draft.mem_refine (target : Nat) (finest : Float) (fuel : Nat) (step : Float) {d : Draft}
    (hd : h ∈ d.reversed) : h ∈ (d.refine target finest fuel step).reversed := by
  induction fuel generalizing step d with
  | zero => exact hd
  | succ fuel ih =>
    unfold refine
    split
    · exact ih (step / 2) (mem_addLevel target (step / 2) target 1 hd)
    · exact hd

/-- **Every sweep has the heading along the `x` axis**, and its opposite. -/
theorem mem_plan (e : Extent) (quality : Float32) :
    Heading.ofDegrees 0 ∈ (plan e quality).headings ∧
      Heading.ofDegrees 180 ∈ (plan e quality).headings := by
  have fresh : Draft.empty.planned.contains (0 : Float).toBits = false := by
    simp [Draft.empty]
  have begun : (Draft.empty.addPair 0).reversed
      = [.ofDegrees 180, .ofDegrees 0] := by
    have opposite : (0 : Float) + 180 = 180 := by decide +kernel
    unfold Draft.addPair
    rw [fresh, opposite]
    rfl
  unfold plan
  refine ⟨List.mem_reverse.mpr (Draft.mem_refine _ _ _ _ ?_),
    List.mem_reverse.mpr (Draft.mem_refine _ _ _ _ ?_)⟩ <;> rw [begun]
  · exact List.mem_cons_of_mem _ List.mem_cons_self
  · exact List.mem_cons_self

end Sweep

theorem Point.eq_mk {p : Point} {x y : Float} (hx : p.x = x) (hy : p.y = y) : p = ⟨x, y⟩ := by
  rw [← hx, ← hy]

/-- Its rays step to the left. -/
theorem Heading.step_opposite_zero : (ofDegrees 0).opposite.step = ⟨-1, 0⟩ :=
  Point.eq_mk (by decide +kernel) (by decide +kernel)

/-! ## 2. Rows in double precision -/

namespace Trail

/-- A point whose coordinates are these whole numbers exactly. -/
structure At (p : Spot Float) (x y : ℤ) : Prop where
  x : Is p.x x
  y : Is p.y y

variable {e : Extent} {p : Spot Float} {x y : ℤ}

theorem At.round (h : At p x y) : At p.round x y := by
  have across := h.x.round
  have down := h.y.round
  rw [Int.away_intCast] at across down
  exact ⟨across, down⟩

theorem At.cell (h : At p x y) (hx : x.natAbs < 2 ^ 53) (hy : y.natAbs < 2 ^ 53) :
    p.cell = ⟨x, y⟩ :=
  congrArg₂ Ray.Cell.mk (h.x.truncate hx) (h.y.truncate hy)

theorem is_neg_one : Is (-1) (-1) :=
  is_one.neg

/-- A step along a row by a whole number. -/
theorem At.advance {s : Point} {k : ℤ} (h : At p x y) (across : Is s.x k)
    (level : s.y = 0) (hx : (x + k).natAbs < 2 ^ 53) (hy : y.natAbs < 2 ^ 53) :
    At (p.advance s.toSpot) (x + k) y := by
  have along : Is (p.x + s.x) ((x + k : ℤ) : ℚ) := by
    have sum := h.x.add across (by exact_mod_cast fits_intCast hx)
    rwa [Int.cast_add]
  have down : Is (p.y + s.y) y := by
    rw [level]
    have sum := h.y.add is_zero (by rw [add_zero]; exact fits_intCast hy)
    rwa [add_zero] at sum
  exact ⟨along, down⟩

theorem At.contains (h : At p x y) (hx : -1 ≤ x ∧ x ≤ e.width.toNat)
    (hy : -1 ≤ y ∧ y ≤ e.height.toNat) : contains .rectangular e p = true := by
  have left : (-1 : Float) ≤ p.x := (is_neg_one.le_iff h.x).mpr (by exact_mod_cast hx.1)
  have top : (-1 : Float) ≤ p.y := (is_neg_one.le_iff h.y).mpr (by exact_mod_cast hy.1)
  have right : p.x ≤ e.width.toFloat := (h.x.le_iff (is_word e.width)).mpr (by exact_mod_cast hx.2)
  have bottom : p.y ≤ e.height.toFloat :=
    (h.y.le_iff (is_word e.height)).mpr (by exact_mod_cast hy.2)
  show (((decide _ && decide _) && decide _) && decide _) = true
  simp only [Bool.and_eq_true, decide_eq_true_eq]
  exact ⟨⟨⟨left, top⟩, right⟩, bottom⟩

/-- A ray to the left comes to the cell that it is in, if it has not just been there. -/
theorem march_left {x y : ℕ} {last : Option Ray.Cell} (h : At p x y) (hx : x ≤ e.width.toNat)
    (hy : y < e.height.toNat) (hlast : last ≠ some ⟨x, y⟩) (fuel : ℕ) :
    march .rectangular e (⟨-1, 0⟩ : Point).toSpot (fuel + 1) p last
      = ⟨x, y⟩ :: march .rectangular e (⟨-1, 0⟩ : Point).toSpot fuel
          (p.advance (⟨-1, 0⟩ : Point).toSpot) (some ⟨x, y⟩) := by
  have := e.width.toNat_lt
  have := e.height.toNat_lt
  have inside : contains .rectangular e p.round = true := h.round.contains (by omega) (by omega)
  have cell : p.round.cell = ⟨x, y⟩ := h.round.cell (by omega) (by omega)
  have other : ¬ (⟨x, y⟩ : Ray.Cell).isLast last = true := fun same =>
    hlast (Ray.Cell.isLast_iff.mp same)
  rw [march, if_pos inside, cell, if_neg other]

/-- **A ray to the left comes to all cells of its row.** -/
theorem mem_march {x y fuel : ℕ} {last : Option Ray.Cell} (h : At p x y)
    (hx : x ≤ e.width.toNat) (hy : y < e.height.toNat) (hf : x < fuel)
    (hlast : last ≠ some ⟨x, y⟩) {c : ℕ} (hc : c ≤ x) :
    ⟨c, y⟩ ∈ march .rectangular e (⟨-1, 0⟩ : Point).toSpot fuel p last := by
  have := e.width.toNat_lt
  have := e.height.toNat_lt
  induction x generalizing p fuel last with
  | zero =>
    obtain ⟨fuel, rfl⟩ := Nat.exists_eq_succ_of_ne_zero (Nat.ne_zero_of_lt hf)
    obtain rfl := Nat.le_zero.mp hc
    rw [march_left h hx hy hlast]
    exact List.mem_cons_self
  | succ x ih =>
    obtain ⟨fuel, rfl⟩ := Nat.exists_eq_succ_of_ne_zero (Nat.ne_zero_of_lt hf)
    rw [march_left h hx hy hlast]
    rcases Nat.le_succ_iff.mp hc with hc | rfl
    · have next : At (p.advance (⟨-1, 0⟩ : Point).toSpot) x y := by
        have left : Is (-1) ((-1 : ℤ) : ℚ) := by exact_mod_cast is_neg_one
        have stepped := h.advance (s := ⟨-1, 0⟩) left rfl (by omega) (by omega)
        rwa [show ((x + 1 : ℕ) : ℤ) + -1 = x by omega] at stepped
      have moved : some (⟨(x + 1 : ℕ), y⟩ : Ray.Cell) ≠ some ⟨x, y⟩ := by
        intro same
        injection same with same
        injection same with same
        omega
      exact List.mem_cons_of_mem _ (ih next (by omega) (by omega) moved hc)
    · exact List.mem_cons_self

theorem maxSteps_rectangular_double (e : Extent) :
    maxSteps Float .rectangular e = e.width.toNat + e.height.toNat + 8 := by
  have := e.width.toNat_lt
  have := e.height.toNat_lt
  have four : Is 4 ((4 : ℕ) : ℚ) := is_literal (n := 4) (by decide +kernel) (by decide)
  have sum {a b : Float} {m n : ℕ} (ha : Is a m) (hb : Is b n) (h : m + n < 2 ^ 53) :
      Is (a + b) ((m + n : ℕ) : ℚ) := by
    have fits : Fits ((m : ℚ) + n) := by
      exact_mod_cast fits_intCast (n := (m : ℤ) + n) (by omega)
    push_cast
    exact ha.add hb fits
  have span := sum (sum (is_word e.width) (is_word e.height) (by omega)) four (by omega)
  show ceilNat (e.width.toFloat + e.height.toFloat + 4) + 4 = _
  rw [span.ceilNat (by omega)]

/-- The launch point beside the last pixel of a row. -/
def beside (e : Extent) (y : ℕ) : Point :=
  ⟨e.width.toFloat, y.toUInt64.toFloat⟩

theorem at_beside {y : ℕ} (hy : y < e.height.toNat) :
    At (beside e y).toSpot e.width.toNat y := by
  have := e.height.toNat_lt
  exact ⟨by exact_mod_cast is_word e.width, by exact_mod_cast is_count (n := y) (by omega)⟩

theorem beside_mem {y : ℕ} (hy : y < e.height.toNat) :
    beside e y ∈ (Launch.plan e .rectangular).points :=
  List.mem_append_left _ <| List.mem_flatMap.mpr
    ⟨y, List.mem_range.mpr hy, List.mem_cons_of_mem _ List.mem_cons_self⟩

/-- The ray from there to the left may meet the image. -/
theorem reaches_beside {y : ℕ} (hy : y < e.height.toNat) :
    (Launch.plan e .rectangular).reaches (beside e y) ⟨-1, 0⟩ = true := by
  have row := (at_beside hy).round.y
  have low : (0 : Float) ≤ Double.round (beside e y).y :=
    (is_zero.le_iff row).mpr (by exact_mod_cast Nat.zero_le y)
  have high : Double.round (beside e y).y < e.height.toFloat :=
    (row.lt_iff (is_word e.height)).mpr (by exact_mod_cast hy)
  have moves : ((-1 : Float) != 0) = true := by decide +kernel
  have inside : Launch.isInside (beside e y).y e.height = true := by
    rw [Launch.isInside, decide_eq_true low, decide_eq_true high]
    rfl
  show (((-1 : Float) != 0 || _) && (_ || Launch.isInside (beside e y).y e.height)) = true
  rw [moves, inside, Bool.true_or, Bool.or_true, Bool.and_true]

/-- **The trail of that ray has the whole row.** -/
theorem mem_cells_beside {x y : ℕ} (hx : x < e.width.toNat) (hy : y < e.height.toNat) :
    ⟨x, y⟩ ∈ cells .rectangular e (⟨-1, 0⟩ : Point).toSpot (beside e y).toSpot :=
  have far : e.width.toNat < maxSteps Float .rectangular e := by
    rw [maxSteps_rectangular_double]
    omega
  mem_march (at_beside hy) (le_refl _) hy far (Option.some_ne_none _).symm hx.le

end Trail

/-! ## 3. How often a slot is visited -/

namespace Integration

/-- How often the rays of a sweep visit a slot. -/
def visitCount (slopes : Slopes) (launch : Launch) (sweep : Sweep) (slot : Nat) : Nat :=
  (sweep.headings.flatMap (headingVisits slopes launch)).countP (·.slot == slot)

end Integration

/-- A tally counts the visits that it holds. -/
theorem Tally.Holds.count {t : Tally} {e : Extent} {visits : List Visit} (h : t.Holds e visits)
    {slot : Nat} (hs : slot < e.area) :
    t.counts[slot]? = some (.ofNat (visits.countP (·.slot == slot))) := by
  rw [h.counts, post_one]
  have zero : (new e).counts[slot]? = some 0 := by
    rw [new, Array.getElem?_replicate, if_pos hs]
  rw [zero, Option.map_some, UInt32.zero_add]

/-- The slot of a pixel inside. -/
theorem Extent.slot?_natCast {e : Extent} {x y : ℕ} (hx : x < e.width.toNat)
    (hy : y < e.height.toNat) : e.slot? x y = some (y * e.width.toNat + x) := by
  unfold slot?
  rw [if_pos ⟨Int.natCast_nonneg x, Int.ofNat_lt.mpr hx, Int.natCast_nonneg y,
    Int.ofNat_lt.mpr hy⟩]
  rfl

namespace Integration

/-- **The rays of every sweep visit every slot**, if they are launched along the border. -/
theorem visitCount_pos (slopes : Slopes) (quality : Float32) {slot : Nat}
    (hs : slot < slopes.extent.area) :
    0 < visitCount slopes (.plan slopes.extent .rectangular) (.plan slopes.extent quality)
      slot := by
  let e := slopes.extent
  have wide : 0 < e.width.toNat := Nat.pos_of_mul_pos_right (Nat.zero_lt_of_lt hs)
  have hx : slot % e.width.toNat < e.width.toNat := Nat.mod_lt slot wide
  have hy : slot / e.width.toNat < e.height.toNat := (Nat.div_lt_iff_lt_mul wide).mpr (by
    rw [Nat.mul_comm]
    exact hs)
  have named : Trail.slot? e ⟨(slot % e.width.toNat : ℕ), (slot / e.width.toNat : ℕ)⟩
      = some slot := by
    rw [Trail.slot?, Extent.slot?_natCast hx hy, Nat.div_add_mod']
  -- the ray from beside the row of the slot
  have trail := Trail.slots_visits .rectangular e slopes ⟨-1, 0⟩
    (Trail.beside e (slot / e.width.toNat))
  have visited : slot ∈ (Ray.visits slopes (.plan e .rectangular) ⟨-1, 0⟩
      (Trail.beside e (slot / e.width.toNat))).map Visit.slot := by
    rw [trail]
    exact List.mem_filterMap.mpr ⟨_, Trail.mem_cells_beside hx hy, named⟩
  obtain ⟨v, hv, here⟩ := List.mem_map.mp visited
  refine List.countP_pos_iff.mpr ⟨v, ?_, beq_iff_eq.mpr here⟩
  refine List.mem_flatMap.mpr ⟨_, (Sweep.mem_plan e quality).1, ?_⟩
  refine List.mem_flatMap.mpr ⟨_, Trail.beside_mem hy, ?_⟩
  rw [Heading.step_opposite_zero, rayVisits, if_pos (Trail.reaches_beside hy)]
  exact hv

end Integration

/-! ## 4. The counts of an integration -/

namespace Integration

/-- An integration that has counted all visits to all slots of its image, and has visits to each. -/
def Reaches (slopes : Slopes) (launch : Launch) (sweep : Sweep) (t : Tally) : Prop :=
  ∀ slot < slopes.extent.area, 0 < visitCount slopes launch sweep slot ∧
    t.counts[slot]? = some (.ofNat (visitCount slopes launch sweep slot))

theorem Complete.reaches {slopes : Slopes} {quality : Float32} {r : Integration}
    (h : Complete slopes (.plan slopes.extent .rectangular) (.plan slopes.extent quality) r) :
    Reaches slopes (.plan slopes.extent .rectangular) (.plan slopes.extent quality) r.tally :=
  fun _ hs => ⟨visitCount_pos slopes quality hs, h.tally.count hs⟩

end Integration

namespace Crew

open Integration

/-- **Rays cover the image.** Every sweep has the two headings along the `x` axis. From the border
    of an image, an integration that nobody withdraws visits every pixel, whether a crew steps
    through it in whatever order or its task lets the workers take turns, as long as the machine
    starts their threads. In exact arithmetic the rays along the axis come to every pixel but the gap
    in the circle. -/
theorem rays_cover_image (slopes : Slopes) (quality : Float32) (threading : Threading)
    (processors : Processors) (hthreads : threading.threads ≠ some 0)
    (manned : ∀ reason,
      ¬ Lacks threading processors (Sweep.plan slopes.extent quality).length reason) :
    let sweep := Sweep.plan slopes.extent quality
    let launch := Launch.plan slopes.extent .rectangular
    (Heading.ofDegrees 0 ∈ sweep.headings ∧ Heading.ofDegrees 180 ∈ sweep.headings) ∧
    (∃ workers, workerCount threading processors.count sweep.length = .ok workers ∧
      ∀ (token : Token) (g : Generations) (trace : List Move) (s : State) (outcome : Outcome),
        let c : Crew :=
          { slopes, sweep, launch, workers, token, shortage? := processors.shortage? workers }
        Run c (fun s => s.isStale c = false) (c.start g) trace s → s.phase = .returned outcome →
          (∃ stats, outcome = .completed stats) ∧ Reaches slopes launch sweep s.tally) ∧
    (∃ r, (task slopes sweep launch threading processors).result = .ok (some r) ∧
      Reaches slopes launch sweep r.tally) ∧
    ∀ (layout : Layout) (x y : Nat),
      x < slopes.extent.width.toNat → y < slopes.extent.height.toNat →
      (Trail.IsMet ℝ layout slopes.extent ⟨x, y⟩ ↔ ¬ Trail.IsGap ℝ layout slopes.extent ⟨x, y⟩) := by
  intro sweep launch
  obtain ⟨workers, count, zero⟩ := exists_workerCount hthreads processors.count sweep.length
  refine ⟨Sweep.mem_plan _ _, ⟨workers, count, ?_⟩, ?_,
    fun layout x y => Trail.axis_meets_iff layout⟩
  · intro token g trace s outcome c run hp
    obtain ⟨stats, rfl, completes⟩ := run.completes_of_calm
      (shortage?_of_manned manned count) (fun hn => List.length_eq_zero_iff.mp (zero.mp hn)) hp
    exact ⟨⟨stats, rfl⟩, completes.toComplete.reaches⟩
  · obtain ⟨r, result, complete⟩ := result_task slopes sweep launch hthreads manned
    exact ⟨r, result, complete.reaches⟩

/-- A column of four flat pixels. -/
def column : Slopes where
  image :=
    { width := 1
      height := 4
      pixels := Array.replicate 4 ⟨128, 128, 0, 255⟩
      size_pixels := rfl }

/-- One worker who marches from the border visits each of them twice. -/
theorem column_is_covered :
    (Threading.mk (some 1) 4).threads ≠ some 0 ∧
    (∀ reason, ¬ Lacks ⟨some 1, 4⟩ 4 (Sweep.plan column.extent 0).length reason) ∧
    ∃ r, (task column (.plan ⟨1, 4⟩ 0) (.plan ⟨1, 4⟩ .rectangular) ⟨some 1, 4⟩ 4).result
        = .ok (some r) ∧ r.tally.counts[2]? = some 2 := by
  have asked : (Threading.mk (some 1) 4).threads ≠ some 0 := by decide
  have manned : ∀ reason, ¬ Lacks ⟨some 1, 4⟩ 4 (Sweep.plan column.extent 0).length reason :=
    not_lacks_plenty _ 4 _
  obtain ⟨r, result, reaches⟩ := (rays_cover_image column 0 ⟨some 1, 4⟩ 4 asked manned).2.2.1
  refine ⟨asked, manned, r, result, ?_⟩
  rw [(reaches 2 (by decide)).2]
  decide +kernel

/-- From the circle it does not visit the third at all. -/
theorem column_has_gap :
    ∃ r, (task column (.plan ⟨1, 4⟩ 0) (.plan ⟨1, 4⟩ .circular) ⟨some 1, 4⟩ 4).result
        = .ok (some r) ∧ r.tally.counts = #[2, 2, 0, 2] := by
  have asked : (Threading.mk (some 1) 4).threads ≠ some 0 := by decide
  obtain ⟨r, result, complete⟩ := result_task column (.plan ⟨1, 4⟩ 0) (.plan ⟨1, 4⟩ .circular)
    asked (not_lacks_plenty _ 4 _)
  refine ⟨r, result, ?_⟩
  rw [(complete.tally.agrees (holds_planned _ _ _)).counts]
  decide +kernel

end Crew

end Relief
