import Relief.Proofs.Depth.Once
import Relief.Proofs.Depth.Opposite
import Relief.Proofs.Depth.Remembering

/-!
# The margin of a tally

How great a sum can become is bounded by three numbers: how much a ray can climb in a pixel, how
many pixels it can come to, and how many rays there are. Where their product is in the range of the
words, nothing overflows, whatever the field holds and whoever adds what when.

* `Ray.integrals`: the running integrals of a ray, `values_march`: which its visits are made of;
* `Ray.IsTallied`: what the range of the words does not hold back, and `isTallied_integrals`: **no
  running integral is held back**;
* `Tally.Sparse`: small visits, few of them in each slot; `Sparse.not_overruns`: **they do not
  overrun**;
* `Integration.kept_calm`: what each ray keeps of a fresh tally, `Crew.sparse_summed`: what a crew
  has added so far;
* `small_sizes_rule_out_overflow`: **so no run overflows.**
-/

namespace Relief

open Double (Is Fits Opposed nan)

/-! ## 1. Running integrals -/

/-- What a ray takes off its running integral in a slot. -/
def Slopes.climbAt (slopes : Slopes) (step : Point) (slot : ℕ) : Float :=
  match slopes.image.pixels[slot]? with
  | none => 0
  | some p => climb p step.x step.y

theorem Slopes.climbAt_opposed (slopes : Slopes) (heading : Heading) (slot : ℕ) :
    ∃ y, Opposed 255 (slopes.climbAt heading.step slot) y := by
  unfold climbAt
  split
  · exact ⟨0, Double.opposed_zero.mono (by norm_num)⟩
  · exact ⟨_, climb_opposed heading.step_bounded _⟩

namespace Ray

variable {slopes : Slopes} {launch : Launch} {step : Point}

/-- The running integrals of a ray in the slots that it visits, one after the other. -/
def integrals (slopes : Slopes) (step : Point) : (integral : Float) → (slots : List ℕ) → List Float
  | _, [] => []
  | integral, slot :: rest =>
    let next := integral - slopes.climbAt step slot
    next :: integrals slopes step next rest

/-- **What a ray tallies are its running integrals**, in the slots that it visits. -/
theorem values_march (fuel : ℕ) (position : Point) (last : Option Cell) (integral : Float) :
    (march slopes launch step fuel position last integral).map Visit.value
      = (integrals slopes step integral
          ((march slopes launch step fuel position last integral).map Visit.slot)).map quantize := by
  induction fuel generalizing position last integral with
  | zero => rfl
  | succ fuel ih =>
    unfold march
    dsimp only
    split
    · split
      · exact ih _ _ _
      · cases slopes.extent.slot? _ _ with
        | none => exact ih _ _ _
        | some slot =>
          dsimp only
          cases here : slopes.image.pixels[slot]? with
          | none => exact ih _ _ _
          | some p =>
            have climbs : slopes.climbAt step slot = Slopes.climb p step.x step.y := by
              rw [Slopes.climbAt, here]
            simp only [List.map_cons, integrals, climbs]
            rw [ih]
    · rfl

theorem length_march_le (fuel : ℕ) (position : Point) (last : Option Cell) (integral : Float) :
    (march slopes launch step fuel position last integral).length ≤ fuel := by
  induction fuel generalizing position last integral with
  | zero => exact Nat.le_refl 0
  | succ fuel ih =>
    have rest := fun last integral => Nat.le_succ_of_le (ih (position.advance step) last integral)
    unfold march
    dsimp only
    split
    · split
      · exact rest _ _
      · cases slopes.extent.slot? _ _ with
        | none => exact rest _ _
        | some slot =>
          dsimp only
          cases slopes.image.pixels[slot]? with
          | none => exact rest _ _
          | some p => exact Nat.succ_le_succ (ih _ _ _)
    · exact Nat.zero_le _

/-- A running integral that the range of the words does not hold back. It is tallied as the whole
    number that it is rounded to, or as nothing if it is no number. -/
def IsTallied (bound : ℕ) (integral : Float) : Prop :=
  (integral = nan ∧ quantize integral = 0) ∨
    ∃ q, Is integral q ∧ |q| ≤ bound ∧ (quantize integral).toInt = Int.away q

section IsTallied

variable {bound : ℕ} {x y : Float}

theorem isTallied_of_opposed (h : Opposed bound x y) (small : bound < 2 ^ 31) :
    IsTallied bound x := by
  rcases h with ⟨rfl, -⟩ | ⟨q, hx, -, near⟩
  · exact .inl ⟨rfl, quantize_nan⟩
  · have whole := abs_le.mp (Int.abs_away_le near)
    refine .inr ⟨q, hx, near, ?_⟩
    rw [quantize_eq hx near small]
    exact Int32.toInt_ofInt_of_le (by omega) (by omega)

theorem IsTallied.abs_quantize_le (h : IsTallied bound x) : |(quantize x).toInt| ≤ bound := by
  rcases h with ⟨-, zero⟩ | ⟨q, -, near, whole⟩
  · rw [zero]
    exact Int.natCast_nonneg bound
  · rw [whole]
    exact Int.abs_away_le near

/-- **No running integral is held back**: in each pixel that a ray comes to, it changes by 255 at
    most. -/
theorem isTallied_integrals_from (heading : Heading) {most done : ℕ} (small : 255 * most < 2 ^ 31)
    {slots : List ℕ} (few : done + slots.length ≤ most) (held : Opposed (255 * done : ℕ) x y) :
    ∀ z ∈ integrals slopes heading.step x slots, IsTallied (255 * most) z := by
  induction slots generalizing done x y with
  | nil => exact fun z hz => absurd hz List.not_mem_nil
  | cons slot rest ih =>
    rw [List.length_cons] at few
    obtain ⟨w, climbs⟩ := slopes.climbAt_opposed heading slot
    have sum : ((255 * done : ℕ) : ℚ) + 255 = (255 * (done + 1) : ℕ) := by
      push_cast
      ring
    have fits : Fits (((255 * done : ℕ) : ℚ) + 255) := by
      rw [sum]
      exact Double.fits_intCast (n := (255 * (done + 1) : ℕ)) (by omega)
    have next := held.sub climbs fits
    rw [sum] at next
    have below : ((255 * (done + 1) : ℕ) : ℚ) ≤ (255 * most : ℕ) := Nat.cast_le.mpr (by omega)
    exact List.forall_mem_cons.mpr
      ⟨isTallied_of_opposed (next.mono below) small, ih (by omega) next⟩

end IsTallied

section Visits

variable (small : 255 * launch.maxSteps < 2 ^ 31) (heading : Heading) (start : Point)
include small

theorem isTallied_integrals :
    ∀ x ∈ integrals slopes heading.step 0
        ((visits slopes launch heading.step start).map Visit.slot),
      IsTallied (255 * launch.maxSteps) x := by
  have zero : Opposed ((255 * 0 : ℕ) : ℚ) 0 0 := by
    rw [Nat.mul_zero, Nat.cast_zero]
    exact Double.opposed_zero
  refine isTallied_integrals_from heading small ?_ zero
  rw [Nat.zero_add, List.length_map]
  exact length_march_le _ _ _ _

/-- So the visits of a ray are small. -/
theorem abs_value_le {v : Visit} (hv : v ∈ visits slopes launch heading.step start) :
    |v.value.toInt| ≤ ((255 * launch.maxSteps : ℕ) : ℤ) := by
  have value := List.mem_map_of_mem (f := Visit.value) hv
  rw [visits, values_march] at value
  obtain ⟨x, hx, same⟩ := List.mem_map.mp value
  rw [← same]
  exact (isTallied_integrals small heading start x hx).abs_quantize_le

end Visits

end Ray

/-! ## 2. Sparse visits -/

namespace Tally

/-- Visits that are small, and few in each slot. -/
structure Sparse (bound most : ℕ) (visits : List Visit) : Prop where
  small : ∀ v ∈ visits, |v.value.toInt| ≤ bound
  few : ∀ slot, visits.countP (·.slot == slot) ≤ most

section Sparse

variable {bound m n : ℕ} {visits others : List Visit}

theorem sparse_nil (bound most : ℕ) : Sparse bound most [] where
  small _ hv := absurd hv List.not_mem_nil
  few _ := Nat.zero_le most

theorem Sparse.append (h : Sparse bound m visits) (h' : Sparse bound n others) :
    Sparse bound (m + n) (visits ++ others) where
  small v hv := (List.mem_append.mp hv).elim (h.small v) (h'.small v)
  few slot := by
    rw [List.countP_append]
    exact Nat.add_le_add (h.few slot) (h'.few slot)

theorem Sparse.sublist (h : Sparse bound n visits) (part : others.Sublist visits) :
    Sparse bound n others where
  small v hv := h.small v (part.subset hv)
  few slot := part.countP_le.trans (h.few slot)

theorem Sparse.mono (h : Sparse bound m visits) (le : m ≤ n) : Sparse bound n visits :=
  ⟨h.small, fun slot => (h.few slot).trans le⟩

/-- What small visits add up to in a slot is bounded by their number there. -/
theorem abs_balance_le (small : ∀ v ∈ visits, |v.value.toInt| ≤ bound) (slot : ℕ) :
    |balance slot visits| ≤ (visits.countP (·.slot == slot) * bound : ℕ) := by
  induction visits with
  | nil => exact Int.natCast_nonneg _
  | cons v rest ih =>
    obtain ⟨first, others⟩ := List.forall_mem_cons.mp small
    have later := ih others
    rw [← List.singleton_append, balance_append, balance_singleton, List.countP_append,
      List.countP_singleton, Visit.amount, Nat.add_mul, Nat.cast_add]
    refine (abs_add_le _ _).trans (add_le_add ?_ later)
    by_cases here : v.slot = slot
    · rw [if_pos here, if_pos (beq_iff_eq.mpr here), Nat.one_mul]
      exact first
    · rw [if_neg here]
      exact Int.natCast_nonneg _

/-- **Sparse visits do not overrun**, in whatever order they come. -/
theorem Sparse.not_overruns (h : Sparse bound n visits) (fits : n * bound < 2 ^ 31) :
    ¬ Overruns visits := by
  rintro ⟨slot, part, first, leaves⟩
  have sparse := h.sublist first.sublist
  have le : part.countP (·.slot == slot) * bound ≤ n * bound :=
    Nat.mul_le_mul_right bound (sparse.few slot)
  have between := abs_le.mp (abs_balance_le sparse.small slot)
  rw [leavesRange_eq_true] at leaves
  omega

/-- **The visits of a ray are sparse.** -/
theorem sparse_visits (slopes : Slopes) {e : Extent} {layout : Layout}
    (small : 255 * (Launch.plan e layout).maxSteps < 2 ^ 31) (heading : Heading) (start : Point) :
    Sparse (255 * (Launch.plan e layout).maxSteps) 1
      (Ray.visits slopes (.plan e layout) heading.step start) where
  small _ hv := Ray.abs_value_le small heading start hv
  few slot := countP_slot_le (Ray.nodup_visits slopes e layout heading start) slot

end Sparse

/-! ## 3. One after the other -/

/-- Of some visits, those up to the first that names no slot are absorbed. -/
theorem exists_absorbed (t : Tally) (visits : List Visit) :
    ∃ part, part.Sublist visits ∧ (∀ v ∈ part, v.slot < t.extent.area) ∧
      (t.absorb part).1 = (t.absorb visits).1 := by
  induction visits generalizing t with
  | nil => exact ⟨[], .slnil, fun v hv => absurd hv List.not_mem_nil, rfl⟩
  | cons v rest ih =>
    by_cases named : v.slot < t.extent.area
    · obtain ⟨part, sublist, others, same⟩ := ih (t.add v named)
      rw [extent_add] at others
      refine ⟨v :: part, sublist.cons_cons v, List.forall_mem_cons.mpr ⟨named, others⟩, ?_⟩
      rw [absorb, absorb, dif_pos named, dif_pos named, same]
    · refine ⟨[], List.nil_sublist _, fun v hv => absurd hv List.not_mem_nil, ?_⟩
      rw [absorb, absorb, dif_neg named]

/-- A tally that holds sparse visits, and remembers whether they overran. -/
def IsCalm (fresh : Extent) (bound most : ℕ) (t : Tally) : Prop :=
  ∃ visits, t.Holds fresh visits ∧ (t.overflowed = true ↔ Overruns visits) ∧
    Sparse bound most visits

variable {fresh : Extent} {bound m n : ℕ} {t : Tally}

theorem isCalm_new (fresh : Extent) (bound : ℕ) : (new fresh).IsCalm fresh bound 0 :=
  ⟨[], holds_new fresh, ⟨fun h => absurd h Bool.false_ne_true, fun h => absurd h not_overruns_nil⟩,
    sparse_nil bound 0⟩

theorem IsCalm.mono (h : t.IsCalm fresh bound m) (le : m ≤ n) : t.IsCalm fresh bound n :=
  h.imp fun _ ⟨holds, remembers, sparse⟩ => ⟨holds, remembers, sparse.mono le⟩

theorem IsCalm.absorb (h : t.IsCalm fresh bound m) {more : List Visit}
    (sparse : Sparse bound n more) : (t.absorb more).1.IsCalm fresh bound (m + n) := by
  obtain ⟨visits, holds, remembers, before⟩ := h
  obtain ⟨part, sublist, named, same⟩ := t.exists_absorbed more
  rw [holds.extent] at named
  rw [← same]
  exact ⟨_, holds.absorb named, holds.overflowed_absorb remembers named,
    before.append (sparse.sublist sublist)⟩

theorem IsCalm.overflowed (h : t.IsCalm fresh bound n) (fits : n * bound < 2 ^ 31) :
    t.overflowed = false := by
  obtain ⟨visits, -, remembers, sparse⟩ := h
  exact Bool.eq_false_iff.mpr fun wrapped => sparse.not_overruns fits (remembers.mp wrapped)

end Tally

namespace Integration

/-- **Each ray leaves a tally calm**, as long as all of them are in range. -/
theorem kept_calm (slopes : Slopes) (e : Extent) (layout : Layout) (fresh : Extent) :
    let bound := 255 * (Launch.plan e layout).maxSteps
    Kept slopes (.plan e layout) fun n t => n * bound < 2 ^ 31 → t.IsCalm fresh bound n where
  mono le h fits := (h ((Nat.mul_le_mul_right _ le).trans_lt fits)).mono le
  ray {n _} heading start h fits := by
    rw [Nat.succ_mul] at fits
    exact (h (by omega)).absorb (Tally.sparse_visits slopes (by omega) heading start)

end Integration

/-! ## 4. Crews -/

namespace Crew

open Contributions Integration Tally

variable {c : Crew} {trace : List Move} {s : State} {e : Extent} {layout : Layout}

/-- **What a crew has added so far is sparse**, whoever has been stopped. -/
theorem sparse_summed (hlaunch : c.launch = .plan e layout)
    {kind : State → Prop} {g : Generations} (h : Run c kind (c.start g) trace s)
    (fits : c.sweep.length * c.launch.points.length * (255 * c.launch.maxSteps) < 2 ^ 31) :
    Sparse (255 * c.launch.maxSteps) (c.sweep.length * c.launch.points.length) (summed trace) where
  few := countP_deeds_le c.summed_program hlaunch h
  small v hv := by
    have counted : 0 < (summed trace).countP (·.slot == v.slot) :=
      List.countP_pos_iff.mpr ⟨v, hv, beq_self_eq_true _⟩
    have rays := counted.trans_le (countP_deeds_le c.summed_program hlaunch h v.slot)
    have small : 255 * c.launch.maxSteps < 2 ^ 31 :=
      (Nat.le_mul_of_pos_left _ rays).trans_lt fits
    obtain ⟨heading, visited⟩ := exists_heading_of_mem_deeds c.summed_program h hv
    obtain ⟨start, -, visited⟩ := List.mem_flatMap.mp visited
    unfold rayVisits at visited
    split at visited
    · exact Ray.abs_value_le small heading.opposite start visited
    · cases visited

theorem overflowed_run (hlaunch : c.launch = .plan e layout)
    {kind : State → Prop} {g : Generations} (h : Run c kind (c.start g) trace s)
    (fits : c.sweep.length * c.launch.points.length * (255 * c.launch.maxSteps) < 2 ^ 31) :
    s.tally.overflowed = false := by
  have remembers := (remembers_run h).wrapped
  refine Bool.eq_false_iff.mpr fun wrapped => ?_
  exact (sparse_summed hlaunch h fits).not_overruns fits (remembers.mp (.inl wrapped))

end Crew

/-! ## 5. All runs -/

/-- **Small sizes rule out overflow.** If the number of rays times 255 times the most steps of each is
    in the range of the words, then no running integral of these rays is held back by that range, and
    no sum of a fresh tally leaves it: neither where the headings are marched one after the other,
    before whatever observer, nor in a result of the whole integration, nor at any time while a crew
    works, whatever its workers do when, and whether they are stopped or not. -/
theorem small_sizes_rule_out_overflow (slopes : Slopes) (sweep : Sweep) (e : Extent)
    (layout : Layout)
    (small : sweep.length * (Launch.plan e layout).points.length * 255
      * (Launch.plan e layout).maxSteps ≤ 2 ^ 31 - 1) :
    let launch := Launch.plan e layout
    (∀ heading ∈ sweep.headings, ∀ start ∈ launch.points,
      let visits := Ray.visits slopes launch heading.opposite.step start
      let integrals := Ray.integrals slopes heading.opposite.step 0 (visits.map Visit.slot)
      visits.map Visit.value = integrals.map Ray.quantize ∧
        ∀ integral ∈ integrals, Ray.IsTallied (255 * launch.maxSteps) integral) ∧
    (∀ {σ : Type} (o : Course.Observer σ) (s : σ) (fresh : Extent),
      ((Integration.inOrder slopes launch sweep.headings (.new fresh)).follow o s).1.1.overflowed
        = false) ∧
    (∀ {σ : Type} (o : Course.Observer σ) (s : σ) (threading : Threading)
      (processors : Processors) (r : Integration),
      ((Integration.task slopes sweep launch threading processors).follow o s).1 = .ok (some r) →
      r.tally.overflowed = false) ∧
    ∀ (workers : ℕ) (token : Token) (shortage? : Option String) (g : Generations)
      (kind : Crew.State → Prop) (trace : List Crew.Move) (s : Crew.State),
      let c : Crew := { slopes, sweep, launch, workers, token, shortage? }
      Crew.Run c kind (c.start g) trace s → s.tally.overflowed = false := by
  intro launch
  have fits : sweep.length * launch.points.length * (255 * launch.maxSteps) < 2 ^ 31 := by
    rw [← Nat.mul_assoc]
    exact Nat.lt_of_le_pred (by norm_num) small
  refine ⟨fun heading hh start hs => ⟨Ray.values_march _ _ _ _, ?_⟩, fun o s fresh => ?_,
    fun o s threading processors r h => ?_,
    fun workers token shortage? g kind trace s run => ?_⟩
  · have rays : 0 < sweep.length * launch.points.length :=
      Nat.mul_pos (List.length_pos_of_mem hh) (List.length_pos_of_mem hs)
    exact Ray.isTallied_integrals ((Nat.le_mul_of_pos_left _ rays).trans_lt fits) heading.opposite
      start
  · have calm := (Integration.kept_calm slopes e layout fresh).inOrder o (n := 0) sweep.headings
      (fun _ => Tally.isCalm_new fresh _) s
    rw [Nat.zero_add] at calm
    exact (calm fits).overflowed fits
  · have calm := (Integration.kept_calm slopes e layout slopes.extent).task o
      (fun _ => Tally.isCalm_new slopes.extent _) h
    exact (calm fits).overflowed fits
  · exact Crew.overflowed_run rfl run fits

/-- The two headings, twenty-six launch points and sixteen steps around a column of four pixels are far
    from an overflow. -/
theorem column_has_margin :
    (Sweep.plan ⟨1, 4⟩ 0).length * (Launch.plan ⟨1, 4⟩ .circular).points.length * 255
        * (Launch.plan ⟨1, 4⟩ .circular).maxSteps ≤ 2 ^ 31 - 1 ∧
      ((Integration.inOrder Crew.column (.plan ⟨1, 4⟩ .circular) (Sweep.plan ⟨1, 4⟩ 0).headings
        (.new ⟨1, 4⟩)).follow Course.patient ()).1.1.overflowed = false := by
  have headings : (Sweep.plan ⟨1, 4⟩ 0).length = 2 := by decide +kernel
  have points : (Launch.plan ⟨1, 4⟩ .circular).points.length = 26 := by decide +kernel
  have steps : (Launch.plan ⟨1, 4⟩ .circular).maxSteps = 16 := by decide +kernel
  have small : (Sweep.plan ⟨1, 4⟩ 0).length * (Launch.plan ⟨1, 4⟩ .circular).points.length * 255
      * (Launch.plan ⟨1, 4⟩ .circular).maxSteps ≤ 2 ^ 31 - 1 := by
    rw [headings, points, steps]
    norm_num
  obtain ⟨-, calm, -⟩ := small_sizes_rule_out_overflow Crew.column _ ⟨1, 4⟩ .circular small
  exact ⟨small, calm Course.patient () ⟨1, 4⟩⟩

end Relief
