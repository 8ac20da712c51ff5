import Relief.Proofs.Depth.Gathering
import Relief.Proofs.Depth.Keeping
import Relief.Proofs.Depth.Strides
import Relief.Proofs.Shading.Bytes

/-!
# A ray visits a pixel once

A ray remembers no cell but the last, and visits no pixel twice all the same: both coordinates of
its points go one way, rounding keeps that, and so do the cells. Hence a count cannot become greater
than the number of the rays.

* `Double.exists_is`: what is in a pixel is a number;
* `Goes`: two coordinates that follow each other in the direction of a step;
* `nodup_fresh`, `nodup_slots`: **the slots that a ray visits are all different**;
* `Tally.Within`: no count of a tally is greater than a bound;
* `kept_countAt`: each ray adds one to a count at most;
* `prefix_program`: what a worker has done so far is a first part of its program;
* `counts_are_bounded`: **no count is greater than the number of the rays** that there are.
-/

namespace Relief

open Int (away)

/-! ## 1. Points in a pixel -/

namespace Double

open Float.Model (UnpackedFloat)

theorem unpack_infinity (s : UnpackedFloat.Sign) : unpack (pack (.infinity s)) = .infinity s := by
  cases s <;> rfl

theorem natAbs_truncate_infinity (s : UnpackedFloat.Sign) :
    (truncate (round (pack (.infinity s)))).natAbs = 2 ^ 64 - 1 := by
  cases s <;> decide +kernel

theorem Is.abs_le_of_truncate {x : Float} {q : ℚ} {n : ℤ} (hx : Is x q)
    (h : Double.truncate (Double.round x) = n) (small : n.natAbs < 2 ^ 64 - 1) :
    |q| ≤ n.natAbs + 1 := by
  have size : |((away q : ℤ) : ℚ)| = ((away q).natAbs : ℕ) := by rw [Nat.cast_natAbs, Int.cast_abs]
  have whole := hx.round.natAbs_truncate
  rw [h, size, Nat.floor_natCast] at whole
  have same : (away q).natAbs = n.natAbs := by omega
  rw [← same, ← size]
  have low := Int.le_away q
  have high := Int.away_le q
  have := le_abs_self (away q : ℚ)
  have := neg_abs_le (away q : ℚ)
  exact abs_le.mpr ⟨by linarith, by linarith⟩

/-- **What is rounded to a small whole number is a number near it**, unless it is no number at all. -/
theorem exists_is {x : Float} {n : ℤ} (number : x ≠ nan) (h : truncate (round x) = n)
    (small : n.natAbs < 2 ^ 64 - 1) : ∃ q, Is x q ∧ |q| ≤ n.natAbs + 1 := by
  have finite (hx : (unpack x).isFinite = true) : ∃ q, Is x q ∧ |q| ≤ n.natAbs + 1 :=
    have exact : Is x (valueOf (unpack x)) := ⟨exact_unpack hx, rfl⟩
    ⟨_, exact, exact.abs_le_of_truncate h small⟩
  cases hu : unpack x with
  | notANumber => exact absurd (unpack_injective (hu.trans unpack_nan.symm)) number
  | infinity s =>
    obtain rfl : x = pack (.infinity s) := unpack_injective (hu.trans (unpack_infinity s).symm)
    rw [← h, natAbs_truncate_infinity] at small
    exact absurd small (lt_irrefl _)
  | zero s => exact finite (by rw [hu]; rfl)
  | finite s m e hm => exact finite (by rw [hu]; rfl)

end Double

/-! ## 2. One way -/

/-- Two whole numbers that follow each other in the direction of a step. -/
structure Goes (step : ℚ) (m n : ℤ) : Prop where
  up : 0 ≤ step → m ≤ n
  down : step ≤ 0 → n ≤ m

namespace Goes

variable {step : ℚ} {l m n : ℤ}

theorem trans (h : Goes step l m) (h' : Goes step m n) : Goes step l n :=
  ⟨fun up => (h.up up).trans (h'.up up), fun down => (h'.down down).trans (h.down down)⟩

theorem antisymm (h : Goes step m n) (h' : Goes step n m) : m = n := by
  rcases le_total 0 step with up | down
  · exact le_antisymm (h.up up) (h'.up up)
  · exact le_antisymm (h'.down down) (h.down down)

end Goes

namespace Ray

/-- Two cells that follow each other in the direction of a step. -/
structure Cell.Follows (step step' : ℚ) (c d : Cell) : Prop where
  across : Goes step c.x d.x
  along : Goes step' c.y d.y

variable {step step' : ℚ}

instance : Trans (Cell.Follows step step') (Cell.Follows step step') (Cell.Follows step step') where
  trans h h' := ⟨h.across.trans h'.across, h.along.trans h'.along⟩

theorem Cell.Follows.antisymm {c d : Cell} (h : c.Follows step step' d)
    (h' : d.Follows step step' c) : c = d :=
  Cell.mk.injEq .. ▸ ⟨h.across.antisymm h'.across, h.along.antisymm h'.along⟩

end Ray

namespace Trail

open Double

section Axis

variable {s x : Float} {step q : ℚ} {left : ℕ}

/-- **Rounding keeps the direction of a step.** -/
theorem Coordinate.goes {layout : Layout} (h : Coordinate layout step (left + 1) x q) (hs : Is s step)
    (short : |step| ≤ 1) :
    Goes step (truncate (Double.round x)) (truncate (Double.round (x + s))) := by
  have fits := h.value.fits
  rw [h.cell, (h.advance hs short).1.cell]
  exact ⟨fun up => Int.away_mono (le_rounded_of_fits fits (by linarith)),
    fun down => Int.away_mono (rounded_le_of_fits fits (by linarith))⟩

end Axis

/-! ## 3. The slots of a ray -/

/-- Where cells go one way, no cell comes back once repetitions of the last are left out. -/
theorem not_mem_fresh {step step' : ℚ} {c : Ray.Cell} {cells : List Ray.Cell}
    (h : (c :: cells).Pairwise (Ray.Cell.Follows step step')) : c ∉ fresh (some c) cells := by
  induction cells with
  | nil => exact List.not_mem_nil
  | cons d rest ih =>
    obtain ⟨before, hd⟩ := List.pairwise_cons.mp h
    rw [fresh]
    split
    · exact ih (List.pairwise_cons.mpr
        ⟨fun b hb => before b (List.mem_cons_of_mem d hb), hd.of_cons⟩)
    · rename_i other
      intro back
      refine other (Ray.Cell.isLast_iff.mpr (congrArg some ?_))
      rcases List.mem_cons.mp back with same | back
      · exact same
      · exact (before d List.mem_cons_self).antisymm
          (List.rel_of_pairwise_cons hd (mem_of_mem_fresh back))

/-- **Where cells go one way, they are all different** once repetitions of the last are left out. -/
theorem nodup_fresh {step step' : ℚ} {cells : List Ray.Cell}
    (h : cells.Pairwise (Ray.Cell.Follows step step')) (last : Option Ray.Cell) :
    (fresh last cells).Nodup := by
  induction cells generalizing last with
  | nil => exact List.nodup_nil
  | cons c rest ih =>
    have rest := ih h.of_cons
    rw [fresh]
    split
    · exact rest last
    · exact List.nodup_cons.mpr ⟨not_mem_fresh h, rest (some c)⟩

section March

variable {layout : Layout} {e image : Extent} {heading : Heading} {p : Spot Float}

theorem not_nan_of_contains (inside : contains layout e p.round = true) :
    p.x ≠ nan ∧ p.y ≠ nan := by
  refine ⟨fun nowhere => ?_, fun nowhere => ?_⟩
  · rw [contains_nan (.inl nowhere)] at inside
    cases inside
  · rw [contains_nan (.inr nowhere)] at inside
    cases inside

/-- A number that is rounded to a column or a row is a coordinate with many steps left. -/
theorem coordinate_of_lt {x : Float} {size : UInt32} {fuel : ℕ} (number : x ≠ nan)
    (low : 0 ≤ truncate (Double.round x)) (high : truncate (Double.round x) < size.toNat)
    (enough : fuel ≤ 2 ^ 34) (step : ℚ) : ∃ q, Coordinate .circular step fuel x q := by
  have := size.toNat_lt
  obtain ⟨q, value, bound⟩ := exists_is number rfl (by omega)
  have near : (((truncate (Double.round x)).natAbs + 1 : ℕ) : ℤ) ≤ 2 ^ 40 - fuel := by omega
  refine ⟨q, value, bound.trans ?_, nofun⟩
  rw [← Nat.cast_add_one, ← Int.cast_natCast]
  exact Int.cast_le.mpr near

/-- **From a pixel of the image on, the cells of a ray go one way.** -/
theorem pairwise_cells (heading : Heading) (inside : contains layout e p.round = true)
    (pixel : covers image p.round.cell = true) {fuel : ℕ} (enough : fuel ≤ 2 ^ 34) :
    ∃ step step' : ℚ, ((passed layout e heading.step.toSpot fuel p).map (·.round.cell)).Pairwise
      (Ray.Cell.Follows step step') := by
  obtain ⟨numberX, numberY⟩ := not_nan_of_contains inside
  obtain ⟨⟨lowX, highX⟩, lowY, highY⟩ := covers_iff.mp pixel
  rcases heading.step_bounded with nowhere | ⟨⟨σ, hσ, across⟩, τ, hτ, down⟩
  · exact ⟨0, 0, List.isChain_iff_pairwise.mp
      ((List.isChain_map _).mpr (isChain_of_nan nowhere fuel p))⟩
  · refine ⟨σ, τ, List.isChain_iff_pairwise.mp ((List.isChain_map _).mpr ?_)⟩
    refine isChain_passed (P := fun n p => (∃ q, Coordinate .circular σ n p.x q) ∧
      ∃ q, Coordinate .circular τ n p.y q) (fun n p kept _ => ?_)
      ⟨coordinate_of_lt numberX lowX highX enough σ, coordinate_of_lt numberY lowY highY enough τ⟩
    obtain ⟨⟨q, x⟩, q', y⟩ := kept
    exact ⟨⟨⟨_, (x.advance hσ across).1⟩, _, (y.advance hτ down).1⟩,
      x.goes hσ across, y.goes hτ down⟩

/-- Two pixels of an image have two slots. -/
theorem slot?_injective {c d : Ray.Cell} {slot : ℕ} (hc : slot? image c = some slot)
    (hd : slot? image d = some slot) : c = d := by
  obtain ⟨⟨lowX, highX⟩, lowY, highY⟩ := covers_iff.mp (Option.isSome_of_eq_some hc)
  obtain ⟨⟨lowX', highX'⟩, lowY', highY'⟩ := covers_iff.mp (Option.isSome_of_eq_some hd)
  obtain ⟨x, y⟩ := c
  obtain ⟨x', y'⟩ := d
  rw [slot?, Extent.slot?, if_pos ⟨lowX, highX, lowY, highY⟩] at hc
  rw [slot?, Extent.slot?, if_pos ⟨lowX', highX', lowY', highY'⟩] at hd
  dsimp only at *
  obtain ⟨column, row⟩ := place_injective (by omega) (by omega)
    (Option.some.inj (hc.trans hd.symm))
  obtain rfl : x = x' := by omega
  obtain rfl : y = y' := by omega
  rfl

/-- **The slots that a ray comes to are all different.** -/
theorem nodup_march {fuel : ℕ} (enough : fuel ≤ 2 ^ 34) (last : Option Ray.Cell) :
    ((march layout e heading.step.toSpot fuel p last).filterMap (slot? image)).Nodup := by
  induction fuel generalizing p last with
  | zero => exact List.nodup_nil
  | succ fuel ih =>
    have rest := fun p last => ih (p := p) (by omega) last
    by_cases inside : contains layout e p.round = true
    · cases pixel : slot? image p.round.cell with
      | some slot =>
        -- from here on the cells are all different
        obtain ⟨step, step', oneWay⟩ := pairwise_cells heading inside
          (Option.isSome_of_eq_some pixel) enough
        rw [march_eq_fresh]
        exact (nodup_fresh oneWay last).filterMap fun c d slot => slot?_injective
      | none =>
        rw [march, if_pos inside]
        dsimp only
        split
        · exact rest _ last
        · rw [List.filterMap_cons_none pixel]
          exact rest _ (some p.round.cell)
    · rw [march, if_neg inside]
      exact List.nodup_nil

end March

end Trail

/-- **A ray visits no slot twice.** -/
theorem Ray.nodup_visits (slopes : Slopes) (e : Extent) (layout : Layout) (heading : Heading)
    (start : Point) :
    ((visits slopes (Launch.plan e layout) heading.step start).map Visit.slot).Nodup := by
  rw [Trail.slots_visits]
  exact Trail.nodup_march (Trail.maxSteps_le layout e) none

/-! ## 4. Counts -/

namespace Tally

variable {t : Tally} {slot : ℕ}

/-- The count of a slot as a number, none for a slot that there is not. -/
def countAt (t : Tally) (slot : ℕ) : ℕ :=
  (t.counts[slot]?.getD 0).toNat

/-- No count is greater than a bound. -/
def Within (t : Tally) (bound : ℕ) : Prop :=
  ∀ n ∈ t.counts, n.toNat ≤ bound

theorem within_of_countAt {bound : ℕ} (h : ∀ slot, t.countAt slot ≤ bound) : t.Within bound := by
  intro n hn
  obtain ⟨slot, _, rfl⟩ := Array.mem_iff_getElem.mp hn
  have here := h slot
  rwa [countAt, Array.getElem?_eq_getElem, Option.getD_some] at here

theorem countAt_new (e : Extent) (slot : ℕ) : (new e).countAt slot = 0 := by
  unfold countAt new
  rw [Array.getElem?_replicate]
  split <;> rfl

/-- The counts that visits post are at most their numbers. -/
theorem countAt_post_le (visits : List Visit) (e : Extent) (slot : ℕ) :
    ((post (fun _ => 1) visits (new e).counts)[slot]?.getD 0).toNat
      ≤ visits.countP (·.slot == slot) := by
  rw [post_one, new, Array.getElem?_replicate]
  split
  · show (0 + UInt32.ofNat (visits.countP (·.slot == slot))).toNat ≤ _
    rw [UInt32.zero_add, UInt32.toNat_ofNat']
    exact Nat.mod_le _ _
  · exact Nat.zero_le _

/-- A count goes up by one at most, where the visit is. -/
theorem countAt_add_le (t : Tally) (v : Visit) (h : v.slot < t.extent.area) (slot : ℕ) :
    (t.add v h).countAt slot ≤ t.countAt slot + if v.slot == slot then 1 else 0 := by
  unfold countAt
  rw [counts_add, Array.getElem?_modify]
  by_cases here : v.slot = slot
  · rw [if_pos here, if_pos (beq_iff_eq.mpr here)]
    cases t.counts[slot]? with
    | none => exact Nat.zero_le _
    | some n =>
      show (n + 1).toNat ≤ n.toNat + 1
      rw [UInt32.toNat_add]
      exact Nat.mod_le _ _
  · rw [if_neg here]
    exact Nat.le_add_right _ _

/-- **The count of a slot goes up by the number of its visits at most.** -/
theorem countAt_absorb_le (t : Tally) (visits : List Visit) (slot : ℕ) :
    (t.absorb visits).1.countAt slot ≤ t.countAt slot + visits.countP (·.slot == slot) := by
  induction visits generalizing t with
  | nil => exact Nat.le_add_right _ _
  | cons v rest ih =>
    rw [absorb, List.countP_cons]
    split
    · rename_i hv
      have := ih (t.add v hv)
      have := t.countAt_add_le v hv slot
      omega
    · exact Nat.le_add_right _ _

end Tally

theorem countP_slot_le {visits : List Visit} (h : (visits.map Visit.slot).Nodup) (slot : ℕ) :
    visits.countP (·.slot == slot) ≤ 1 := by
  have one := List.nodup_iff_count_le_one.mp h slot
  rwa [List.count, List.countP_map] at one

namespace Integration

open Course

section Marching

variable (slopes : Slopes) (e : Extent) (layout : Layout) {σ : Type} (o : Observer σ) (slot : ℕ)

/-- **Each ray adds one at most.** -/
theorem kept_countAt : Kept slopes (.plan e layout) fun n t => t.countAt slot ≤ n where
  mono le count := count.trans le
  ray {_ t} heading start count := by
    have ray := t.countAt_absorb_le (Ray.visits slopes (.plan e layout) heading.step start) slot
    have once := countP_slot_le (Ray.nodup_visits slopes e layout heading start) slot
    omega

/-- So each heading adds one for each launch point at most, before every observer. -/
theorem countAt_inOrder_le (headings : List Heading) (t : Tally) (s : σ) :
    ((inOrder slopes (.plan e layout) headings t).follow o s).1.1.countAt slot
      ≤ t.countAt slot + headings.length * (Launch.plan e layout).points.length :=
  (kept_countAt slopes e layout slot).inOrder o headings (Nat.le_refl _) s

/-- So does the whole integration, if it has a result. -/
theorem countAt_task_le {sweep : Sweep} {threading : Threading} {processors : Processors} {s : σ}
    {r : Integration}
    (h : ((task slopes sweep (.plan e layout) threading processors).follow o s).1 = .ok (some r)) :
    r.tally.countAt slot ≤ sweep.length * (Launch.plan e layout).points.length :=
  (kept_countAt slopes e layout slot).task o (Tally.countAt_new slopes.extent slot).le h

end Marching

end Integration

/-! ## 5. Crews -/

namespace Crew

open Contributions Integration

variable {c : Crew} {trace : List Move} {s : State}

/-- **What a worker has done is a first part of its program**, whoever has been stopped. -/
theorem prefix_program {kind : State → Prop} {g : Generations}
    (h : Run c kind (c.start g) trace s) (i : ℕ) : own i (deeds trace) <+: c.program i := by
  induction h with
  | rest hk => exact List.nil_prefix
  | @step s' s'' trace m run hs hk ih =>
    have idle (hm : own i m.deed?.toList = []) : own i (deeds (trace ++ [m])) <+: c.program i := by
      rw [deeds_append, own_append, hm, List.append_nil]
      exact ih
    cases hs with
    | work j m w t hj works =>
      have act {a : Act} {rest : List Act} (hm : m = .act j a)
          (todo : (s'.workers j).todo = a :: rest) : own i (deeds (trace ++ [m])) <+: c.program i := by
        subst hm
        by_cases here : j = i
        · subst here
          exact ⟨rest, ((inv_run run).workers j).next todo⟩
        · exact idle (own_singleton_of_ne here a)
      cases works with
      | goOn _ todo _ => exact act rfl todo
      | launch _ _ _ todo _ => exact act rfl todo
      | sum _ _ todo _ => exact act rfl todo
      | count _ _ todo _ => exact act rfl todo
      | report _ todo => exact act rfl todo
      | _ => exact idle rfl
    | lead s' m hl => exact idle (by cases hl <;> rfl)
    | cancel => exact idle rfl

theorem countP_flatMap_le {α β : Type} {l : List α} {f : α → List β} {p : β → Bool} {k : ℕ}
    (h : ∀ a ∈ l, (f a).countP p ≤ k) : (l.flatMap f).countP p ≤ l.length * k := by
  rw [List.countP_flatMap, ← smul_eq_mul, ← List.length_map]
  refine List.sum_le_card_nsmul _ k fun n hn => ?_
  obtain ⟨a, ha, rfl⟩ := List.mem_map.mp hn
  exact h a ha

/-- The rays of a heading visit a slot once for each launch point at most. -/
theorem countP_headingVisits_le (slopes : Slopes) (e : Extent) (layout : Layout) (heading : Heading)
    (slot : ℕ) :
    (headingVisits slopes (.plan e layout) heading).countP (·.slot == slot)
      ≤ (Launch.plan e layout).points.length := by
  rw [← Nat.mul_one (Launch.plan e layout).points.length]
  refine countP_flatMap_le fun start _ => ?_
  unfold rayVisits
  split
  · exact countP_slot_le (Ray.nodup_visits slopes e layout heading.opposite start) slot
  · exact Nat.zero_le 1

section Seen

variable {seen : Act → Option Visit}
  (hseen : ∀ i, (c.program i).filterMap seen = (c.share i).flatMap (headingVisits c.slopes c.launch))
include hseen

/-- What is seen of a visit in what a crew has done is a visit of one of the headings. -/
theorem exists_heading_of_mem_deeds {kind : State → Prop} {g : Generations}
    (h : Run c kind (c.start g) trace s) {v : Visit}
    (hv : v ∈ (deeds trace).filterMap fun d => seen d.2) :
    ∃ heading, v ∈ headingVisits c.slopes c.launch heading := by
  obtain ⟨⟨i, a⟩, hd, ha⟩ := List.mem_filterMap.mp hv
  have mine : a ∈ own i (deeds trace) := List.mem_filterMap.mpr ⟨(i, a), hd, if_pos rfl⟩
  have todo : v ∈ (c.program i).filterMap seen :=
    List.mem_filterMap.mpr ⟨a, (prefix_program h i).subset mine, ha⟩
  rw [hseen] at todo
  obtain ⟨heading, -, visited⟩ := List.mem_flatMap.mp todo
  exact ⟨heading, visited⟩

/-- **Whatever a crew has done, no slot has been seen more often than there are rays.** -/
theorem countP_deeds_le {e : Extent} {layout : Layout} (hlaunch : c.launch = .plan e layout)
    {kind : State → Prop} {g : Generations} (h : Run c kind (c.start g) trace s) (slot : ℕ) :
    ((deeds trace).filterMap fun d => seen d.2).countP (·.slot == slot)
      ≤ c.sweep.length * c.launch.points.length := by
  let here (a : Act) : Bool := ((seen a).map (·.slot == slot)).getD false
  have share (i : ℕ) : (own i (deeds trace)).countP here
      ≤ (c.share i).length * c.launch.points.length := by
    have visits : (c.program i).countP here
        = ((c.program i).filterMap seen).countP (·.slot == slot) :=
      List.countP_filterMap.symm
    refine (prefix_program h i).sublist.countP_le.trans ?_
    rw [visits, hseen]
    refine countP_flatMap_le fun heading _ => ?_
    rw [hlaunch]
    exact countP_headingVisits_le c.slopes e layout heading slot
  have shares : ((List.range c.workers).map fun i => (c.share i).length).sum ≤ c.sweep.length := by
    rcases Nat.eq_zero_or_pos c.workers with nobody | manned
    · rw [nobody]
      exact Nat.zero_le _
    · exact (sum_length_share manned).le
  calc ((deeds trace).filterMap fun d => seen d.2).countP (·.slot == slot)
      = (deeds trace).countP fun d => here d.2 := List.countP_filterMap
    _ = ((List.range c.workers).map fun i => (own i (deeds trace)).countP here).sum :=
        countP_own (inv_run h).deedsBy here
    _ ≤ ((List.range c.workers).map fun i => (c.share i).length * c.launch.points.length).sum :=
        List.sum_le_sum fun i _ => share i
    _ = ((List.range c.workers).map fun i => (c.share i).length).sum * c.launch.points.length :=
        List.sum_map_mul_right _ _ _
    _ ≤ c.sweep.length * c.launch.points.length := Nat.mul_le_mul_right _ shares

end Seen

theorem countAt_run_le {e : Extent} {layout : Layout} (hlaunch : c.launch = .plan e layout)
    {kind : State → Prop} {g : Generations} (h : Run c kind (c.start g) trace s) (slot : ℕ) :
    s.tally.countAt slot ≤ c.sweep.length * c.launch.points.length := by
  refine le_trans ?_ (countP_deeds_le c.counted_program hlaunch h slot)
  rw [Tally.countAt, (inv_run h).counts]
  exact Tally.countAt_post_le _ _ slot

end Crew

/-! ## 6. All runs -/

/-- **A ray visits no slot twice**, from wherever and along whatever heading it goes, and whatever the
    sizes of the frame and of the field are. **So no count is greater than the number of rays**:
    neither where the headings are marched one after the other into a fresh tally, before whatever
    observer, nor in a result of the whole integration, nor at any time while a crew works. -/
theorem counts_are_bounded (slopes : Slopes) (sweep : Sweep) (e : Extent) (layout : Layout) :
    let launch := Launch.plan e layout
    let rays := sweep.length * launch.points.length
    (∀ (heading : Heading) (start : Point),
      ((Ray.visits slopes launch heading.step start).map Visit.slot).Nodup) ∧
    (∀ {σ : Type} (o : Course.Observer σ) (s : σ) (fresh : Extent),
      ((Integration.inOrder slopes launch sweep.headings (.new fresh)).follow o s).1.1.Within rays) ∧
    (∀ {σ : Type} (o : Course.Observer σ) (s : σ) (threading : Threading)
      (processors : Processors) (r : Integration),
      ((Integration.task slopes sweep launch threading processors).follow o s).1 = .ok (some r) →
      r.tally.Within rays) ∧
    ∀ (workers : ℕ) (token : Token) (shortage? : Option String) (g : Generations)
      (kind : Crew.State → Prop) (trace : List Crew.Move) (s : Crew.State),
      let c : Crew := { slopes, sweep, launch, workers, token, shortage? }
      Crew.Run c kind (c.start g) trace s → s.tally.Within rays := by
  intro launch rays
  refine ⟨Ray.nodup_visits slopes e layout, fun o s fresh => ?_,
    fun o s threading processors r h => ?_,
    fun workers token shortage? g kind trace s run => ?_⟩
  · refine Tally.within_of_countAt fun slot => ?_
    have added := Integration.countAt_inOrder_le slopes e layout o slot sweep.headings (.new fresh) s
    rwa [Tally.countAt_new, Nat.zero_add] at added
  · exact Tally.within_of_countAt fun slot =>
      Integration.countAt_task_le slopes e layout o slot h
  · exact Tally.within_of_countAt fun slot => Crew.countAt_run_le rfl run slot

/-- The two headings and twenty-six launch points around a column of four pixels leave no count
    above fifty-two. -/
theorem column_counts_are_bounded :
    ∃ r, ((Integration.task Crew.column (.plan ⟨1, 4⟩ 0) (.plan ⟨1, 4⟩ .circular) ⟨some 1, 4⟩
        4).follow Course.patient ()).1 = .ok (some r) ∧ r.tally.Within 52 := by
  have asked : (Threading.mk (some 1) 4).threads ≠ some 0 := by decide
  have headings : (Sweep.plan ⟨1, 4⟩ 0).length = 2 := by decide +kernel
  have points : (Launch.plan ⟨1, 4⟩ .circular).points.length = 26 := by decide +kernel
  obtain ⟨-, -, bounded, -⟩ := counts_are_bounded Crew.column (.plan ⟨1, 4⟩ 0) ⟨1, 4⟩ .circular
  rw [headings, points] at bounded
  obtain ⟨r, result, -⟩ := Integration.result_task Crew.column (.plan ⟨1, 4⟩ 0)
    (.plan ⟨1, 4⟩ .circular) asked (Integration.not_lacks_plenty _ 4 _)
  exact ⟨r, result, bounded Course.patient () _ _ r result⟩

end Relief
