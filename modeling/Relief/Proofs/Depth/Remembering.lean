import Relief.Proofs.Depth.Overflow
import Relief.Proofs.Depth.Parallel

/-!
# What a crew remembers of an overflow

Who takes which step when decides in which order the sums are added, and so whether one of them
wraps on the way. A worker whose sum has wrapped tells the tally of it before it does anything else.

* `Paired`: in a program, every sum is followed by its count;
* `Remembers`: a sum has wrapped, whether the tally has been told of it yet or not, if and only if
  the visits overran in the order in which their sums have been added; it holds after every run;
* `overflow_is_that_of_an_order`: **a completed integration remembers what the visits of the sweep
  leave in some order**, which is the same for all orders where they end out of range, or where what
  comes in and what goes out fit in the range one by one.
-/

namespace Relief.Crew

open Contributions Integration Tally

variable {c : Crew} {trace : List Move} {s : State}

/-! ## 1. A sum and its count -/

/-- Accesses in which every sum is followed by its count. -/
inductive Paired : List Act → Prop where
  | nil : Paired []
  | pair (v : Visit) {rest : List Act} (h : Paired rest) : Paired (.sum v :: .count v :: rest)
  | single (a : Act) (ha : a.summed? = none) {rest : List Act} (h : Paired rest) :
    Paired (a :: rest)

namespace Paired

theorem tail {a : Act} {rest : List Act} (h : Paired (a :: rest)) : Paired rest := by
  cases h with
  | pair v h => exact .single (.count v) rfl h
  | single _ _ h => exact h

theorem append {acts later : List Act} (h : Paired acts) (hl : Paired later) :
    Paired (acts ++ later) := by
  induction h with
  | nil => exact hl
  | pair v _ ih => exact .pair v ih
  | single a ha _ ih => exact .single a ha ih

theorem flatMap {α : Type} {f : α → List Act} (l : List α) (h : ∀ x, Paired (f x)) :
    Paired (l.flatMap f) := by
  induction l with
  | nil => exact .nil
  | cons x rest ih =>
    rw [List.flatMap_cons]
    exact (h x).append ih

end Paired

/-- **In a worker's program, every sum is followed by its count.** -/
theorem paired_program (c : Crew) (i : Nat) : Paired (c.program i) := by
  have ray : ∀ heading start, Paired (c.rayActs heading start) := fun heading start =>
    .single _ rfl (.single _ rfl (.flatMap _ fun v => .pair v .nil))
  exact .flatMap _ fun heading =>
    (Paired.flatMap _ (ray heading)).append (.single .report rfl .nil)

/-! ## 2. One worker -/

/-- A worker that has a wrapped sum to tell of has the count of it to do next. -/
structure Worker.IsPaired (w : Worker) : Prop where
  todo : Paired w.todo
  wrapped : w.wrapped = true → ∃ v rest, w.todo = .count v :: rest

/-- The visits whose sums have been added, in that order. -/
def summed (trace : List Move) : List Visit :=
  (deeds trace).filterMap fun d => d.2.summed?

theorem summed_append (trace : List Move) (m : Move) :
    summed (trace ++ [m]) = summed trace ++ m.deed?.toList.filterMap fun d => d.2.summed? := by
  rw [summed, deeds_append, List.filterMap_append]
  rfl

section Works

variable {g : Generations} {flag : Bool} {i : Nat} {w w' : Worker} {t t' : Tally} {m : Move}

/-- A worker that has nothing to count next has no wrapped sum to tell of. -/
theorem Worker.IsPaired.told (h : w.IsPaired) {a : Act} {rest : List Act} (ht : w.todo = a :: rest)
    (ha : a.counted? = none) : w.wrapped = false := by
  cases hw : w.wrapped with
  | false => rfl
  | true =>
    obtain ⟨v, rest', e⟩ := h.wrapped hw
    rw [ht] at e
    cases e
    cases ha

/-- After an act that is no sum, a worker that has nothing to tell of goes on. -/
theorem Worker.IsPaired.next (h : w.IsPaired) {a : Act} {rest : List Act} (ht : w.todo = a :: rest)
    (hw : w.wrapped = false) (htodo : w'.todo = rest) (hwrapped : w'.wrapped = w.wrapped) :
    w'.IsPaired where
  todo := htodo ▸ (ht ▸ h.todo).tail
  wrapped h' := by
    rw [hwrapped, hw] at h'
    cases h'

/-- A worker that gives up the rest has no wrapped sum to tell of. -/
theorem Worker.isPaired_nil (htodo : w.todo = []) (hw : w.wrapped = false) : w.IsPaired where
  todo := htodo ▸ .nil
  wrapped h := by
    rw [hw] at h
    cases h

/-- **A step of a worker keeps every sum before its count.** -/
theorem Worker.IsPaired.works (h : w.IsPaired) (hw : Works c g flag i w t m w' t') :
    w'.IsPaired := by
  cases hw with
  | goOn rest htodo hf => exact h.next htodo (h.told htodo rfl) rfl rfl
  | halt rest htodo hf => exact Worker.isPaired_nil rfl (h.told htodo rfl)
  | launch heading start rest htodo hs => exact h.next htodo (h.told htodo rfl) rfl rfl
  | withdraw heading start rest htodo hs => exact Worker.isPaired_nil rfl (h.told htodo rfl)
  | sum v rest htodo hv =>
    have paired := h.todo
    rw [htodo] at paired
    cases paired with
    | pair _ paired => exact ⟨.single (.count v) rfl paired, fun _ => ⟨v, _, rfl⟩⟩
    | single _ ha _ => cases ha
  | panic v rest htodo hv => exact Worker.isPaired_nil rfl (h.told htodo rfl)
  | raise hwrapped => exact ⟨h.todo, fun h' => by cases h'⟩
  | count v rest htodo hw => exact h.next htodo hw rfl rfl
  | report rest htodo => exact h.next htodo (h.told htodo rfl) rfl rfl
  | close htodo ho hw => exact Worker.isPaired_nil htodo hw

/-- **A step of a worker either is silent on overflows, or tells the tally of one, or adds a sum that
    wraps or does not.** -/
theorem Works.overflow (h : w.IsPaired) (hw : Works c g flag i w t m w' t') :
    (t'.overflowed = t.overflowed ∧ w'.wrapped = w.wrapped ∧
      (m.deed?.toList.filterMap fun d => d.2.summed?) = []) ∨
    (t'.overflowed = true ∧ w.wrapped = true ∧
      (m.deed?.toList.filterMap fun d => d.2.summed?) = []) ∨
    ∃ v, v.slot < t.extent.area ∧ t'.overflowed = t.overflowed ∧ w.wrapped = false ∧
      w'.wrapped = t.wraps v ∧ (m.deed?.toList.filterMap fun d => d.2.summed?) = [v] := by
  cases hw with
  | sum v rest htodo hv => exact .inr (.inr ⟨v, hv, rfl, h.told htodo rfl, rfl, rfl⟩)
  | raise hwrapped => exact .inr (.inl ⟨rfl, hwrapped, rfl⟩)
  | _ => exact .inl ⟨rfl, rfl, rfl⟩

end Works

/-! ## 3. The crew -/

/-- Whether a sum has wrapped, and the tally has been told of it or will be. -/
def State.HasWrapped (s : State) (c : Crew) : Prop :=
  s.tally.overflowed = true ∨ ∃ i < c.workers, (s.workers i).wrapped = true

/-- **What is known of overflows after some steps.** -/
structure Remembers (c : Crew) (trace : List Move) (s : State) : Prop where
  workers : ∀ i, (s.workers i).IsPaired
  wrapped : s.HasWrapped c ↔ Overruns (summed trace)

theorem remembers_start (g : Generations) : Remembers c [] (c.start g) where
  workers i := ⟨paired_program c i, fun h => by cases h⟩
  wrapped := by
    refine ⟨?_, fun h => absurd h not_overruns_nil⟩
    rintro (h | ⟨i, _, h⟩) <;> cases h

/-- After a step of one worker, the others have to tell what they had to tell. -/
theorem exists_wrapped_update {workers : Nat → Worker} {n i : Nat} (hi : i < n) (w : Worker) :
    (∃ j < n, (Function.update workers i w j).wrapped = true) ↔
      w.wrapped = true ∨ ∃ j < n, j ≠ i ∧ (workers j).wrapped = true :=
  exists_update hi workers w fun w => w.wrapped = true

theorem exists_wrapped {workers : Nat → Worker} {n i : Nat} (hi : i < n) :
    (∃ j < n, (workers j).wrapped = true) ↔
      (workers i).wrapped = true ∨ ∃ j < n, j ≠ i ∧ (workers j).wrapped = true :=
  exists_split hi workers fun w => w.wrapped = true

theorem Remembers.work (h : Remembers c trace s) (inv : Inv c trace s) {i : Nat} {m : Move}
    {w : Worker} {t : Tally} (hi : i < s.started)
    (hw : Works c s.generations s.flag i (s.workers i) s.tally m w t) :
    Remembers c (trace ++ [m])
      { s with workers := Function.update s.workers i w, tally := t } where
  workers j := by
    by_cases hj : j = i
    · subst hj
      simp only [Function.update_self]
      exact (h.workers j).works hw
    · simp only [Function.update_of_ne hj]
      exact h.workers j
  wrapped := by
    have hn : i < c.workers := Nat.lt_of_lt_of_le hi inv.started
    have before := h.wrapped
    rw [State.HasWrapped, exists_wrapped hn] at before
    simp only [State.HasWrapped, exists_wrapped_update hn, summed_append]
    rcases hw.overflow (h.workers i) with ⟨ht, hwr, hs⟩ | ⟨ht, hwr, hs⟩ | ⟨v, hv, ht, hno, hwr, hs⟩
    · rw [ht, hwr, hs, List.append_nil]
      exact before
    · rw [hwr] at before
      rw [ht, hs, List.append_nil, ← before]
      simp only [true_or, or_true]
    · have sums : s.tally.sums = post Visit.value (summed trace) (new c.slopes.extent).sums :=
        inv.sums
      rw [hno] at before
      rw [inv.extent] at hv
      rw [ht, hwr, hs, overruns_iff_wraps sums hv, ← before, or_left_comm, or_comm]
      simp only [Bool.false_eq_true, false_or]

/-- Steps of the coordinator take nothing from what workers have to tell. -/
theorem Leads.unchanged {s' : State} {m : Move} (h : Leads c s m s') :
    s'.tally = s.tally ∧ (∀ i, (s'.workers i).todo = (s.workers i).todo) ∧
      ∀ i, (s'.workers i).wrapped = (s.workers i).wrapped := by
  cases h with
  | hear i signal rest hphase hi ho =>
    have heard : (s.hear i signal).tally = s.tally := by cases signal <;> rfl
    refine ⟨heard, fun j => ?_, fun j => ?_⟩ <;>
    · by_cases hj : j = i
      · subst hj
        simp only [Function.update_self]
      · simp only [Function.update_of_ne hj]
  | _ => exact ⟨rfl, fun _ => rfl, fun _ => rfl⟩

/-- A step in which no sum is added and no worker acts keeps what is known. -/
theorem Remembers.silent {s' : State} {m : Move} (h : Remembers c trace s)
    (hd : m.deed? = none) (htally : s'.tally = s.tally)
    (htodo : ∀ i, (s'.workers i).todo = (s.workers i).todo)
    (hwrapped : ∀ i, (s'.workers i).wrapped = (s.workers i).wrapped) :
    Remembers c (trace ++ [m]) s' where
  workers i := ⟨htodo i ▸ (h.workers i).todo, fun hw => by
    rw [htodo i]
    exact (h.workers i).wrapped (hwrapped i ▸ hw)⟩
  wrapped := by
    rw [summed_append, hd, Option.toList_none, List.filterMap_nil, List.append_nil, ← h.wrapped,
      State.HasWrapped, htally]
    simp only [hwrapped]
    rfl

/-- **It holds after every run.** -/
theorem remembers_run {kind : State → Prop} {g : Generations}
    (h : Run c kind (c.start g) trace s) : Remembers c trace s := by
  induction h with
  | rest hk => exact remembers_start g
  | @step s' s'' trace m hr hs hk ih =>
    cases hs with
    | work i m w t hi hw => exact ih.work (inv_run hr) hi hw
    | lead s'' m hl =>
      obtain ⟨tally, todo, wrapped⟩ := hl.unchanged
      exact ih.silent (by cases hl <;> rfl) tally todo wrapped
    | cancel => exact ih.silent rfl rfl (fun _ => rfl) fun _ => rfl

/-! ## 4. Completed integrations -/

/-- A crew whose workers are all quiet has told the tally of every sum that wrapped. -/
theorem Remembers.overflowed (h : Remembers c trace s) (inv : Inv c trace s)
    (hq : ∀ i < c.workers, (s.workers i).isOpen = false) :
    s.tally.overflowed = true ↔ Overruns (summed trace) := by
  have unwrapped : ¬ ∃ i < c.workers, (s.workers i).wrapped = true := by
    rintro ⟨i, hi, hw⟩
    rw [((inv.workers i).quiet (hq i hi)).2] at hw
    cases hw
  rw [← h.wrapped, State.HasWrapped, or_iff_left unwrapped]

section Completed

variable {issued : Generations} {gen : Generation} {before : Nat} {kind : State → Prop}
variable {stats : Stats}
variable (ht : c.token = issued.issue gen)
variable (h : Run c kind (c.start (issued.advanceBy gen before)) trace s)
variable (hnobody : c.workers = 0 → c.sweep.headings = [])
variable (hlt : before + cancels trace < 2 ^ 64) (hp : s.phase = .returned (.completed stats))
include ht h hnobody hlt hp

/-- **A completed integration has added the sums of all visits of the sweep**, in some order. -/
theorem Run.perm_summed :
    (summed trace).Perm (c.sweep.headings.flatMap (headingVisits c.slopes c.launch)) := by
  have deedsBy := (inv_run h).deedsBy
  rcases Nat.eq_zero_or_pos c.workers with hn | hn
  · have idle : deeds trace = [] := by
      rw [List.eq_nil_iff_forall_not_mem]
      intro d hd
      have := deedsBy d hd
      omega
    rw [summed, idle, hnobody hn]
    exact .refl _
  · have completes := Run.completes_of_few ht h hnobody hlt hp
    exact perm_visits hn _ c.summed_program deedsBy completes.deeds

/-- **It remembers what they leave in that order.** -/
theorem Run.overflowed :
    ∃ order, order.Perm (c.sweep.headings.flatMap (headingVisits c.slopes c.launch)) ∧
      stats.overflowed = ((Tally.new c.slopes.extent).absorb order).1.overflowed := by
  have perm := Run.perm_summed ht h hnobody hlt hp
  have named : ∀ v ∈ summed trace, v.slot < c.slopes.extent.area := fun v hv => by
    obtain ⟨heading, _, hv⟩ := List.mem_flatMap.mp (perm.mem_iff.mp hv)
    obtain ⟨start, _, hv⟩ := List.mem_flatMap.mp hv
    exact slot_lt_of_mem_rayVisits hv
  refine ⟨summed trace, perm, ?_⟩
  rw [Bool.eq_iff_iff, overflowed_absorb named]
  obtain ⟨early, later, s₁, rfl, cancelled, run, returns, _⟩ := h.returned hp
  have same : summed (early ++ .lead :: later) = summed early := by
    rw [summed, deeds_returned cancelled, summed]
  rw [same]
  have inv : Inv c early s₁ := inv_run run
  cases returns with
  | nobody hphase hn =>
    have idle : summed early = [] := by
      rw [← same, ← List.perm_nil]
      rwa [hnobody hn] at perm
    rw [idle]
    exact ⟨fun hf => absurd hf Bool.false_ne_true, fun ho => absurd ho not_overruns_nil⟩
  | complete hphase hs =>
    have place := inv.place
    rw [State.IsPlaced, hphase] at place
    exact (remembers_run run).overflowed inv fun i hi => (place.2 i hi).1

end Completed

/-- **The task remembers it too**, since it returns what a run of a crew returns. -/
theorem overflowed_task (hnobody : c.workers = 0 → c.sweep.headings = [])
    (ht : c.token = Generations.issue ⟨#[0]⟩ ⟨0⟩) {threading : Threading}
    {processors : Processors}
    (count : workerCount threading processors.count c.sweep.length = .ok c.workers)
    (threads : c.shortage? = processors.shortage? c.workers) {σ : Type} {o : Course.Observer σ}
    (ho : o.Persists) {x : σ} {r : Integration}
    (answer : ((task c.slopes c.sweep c.launch threading processors).follow o x).1
      = .ok (some r)) :
    ∃ order, order.Perm (c.sweep.headings.flatMap (headingVisits c.slopes c.launch)) ∧
      r.stats.overflowed = ((Tally.new c.slopes.extent).absorb order).1.overflowed := by
  obtain ⟨s, ⟨trace, run, once⟩, given⟩ := task_is_run ht (by decide) ho count threads x
  rw [answer] at given
  cases given with
  | completed _ _ hp =>
    have few : 0 + cancels trace < 2 ^ 64 := by omega
    exact Run.overflowed ht run hnobody few hp

/-- **What is remembered of an overflow depends on the order of the visits.** Visits to a new tally
    leave it remembered in every order if and only if their sums end out of range, and in no order if
    and only if what comes in and what goes out fit in the range one by one. A completed integration
    remembers what the visits of its sweep leave in one of the orders: which one depends on who took
    which step when. So does the task, where the workers take turns. -/
theorem overflow_is_that_of_an_order (slopes : Slopes) (sweep : Sweep) (launch : Launch)
    (threading : Threading) (processors : Processors) (hthreads : threading.threads ≠ some 0) :
    (∀ (e : Extent) (visits : List Visit), (∀ v ∈ visits, v.slot < e.area) →
      ((∀ order, order.Perm visits → ((Tally.new e).absorb order).1.overflowed = true) ↔
        ∃ slot, leavesRange (balance slot visits) = true) ∧
      ((∀ order, order.Perm visits → ((Tally.new e).absorb order).1.overflowed = false) ↔
        ∀ slot, leavesRange (outgo slot visits) = false ∧
          leavesRange (income slot visits) = false)) ∧
    ∃ workers, workerCount threading processors.count sweep.length = .ok workers ∧
      (∀ (kind : State → Prop) (issued : Generations) (gen : Generation) (before : Nat)
          (trace : List Move) (s : State) (stats : Stats),
        let c : Crew :=
          { slopes, sweep, launch, workers, token := issued.issue gen
            shortage? := processors.shortage? workers }
        Run c kind (c.start (issued.advanceBy gen before)) trace s →
        before + cancels trace < 2 ^ 64 → s.phase = .returned (.completed stats) →
          ∃ order, order.Perm (sweep.headings.flatMap (headingVisits slopes launch)) ∧
            stats.overflowed = ((Tally.new slopes.extent).absorb order).1.overflowed) ∧
      ∀ (σ : Type) (o : Course.Observer σ) (x : σ) (r : Integration), o.Persists →
        ((task slopes sweep launch threading processors).follow o x).1 = .ok (some r) →
          ∃ order, order.Perm (sweep.headings.flatMap (headingVisits slopes launch)) ∧
            r.stats.overflowed = ((Tally.new slopes.extent).absorb order).1.overflowed := by
  obtain ⟨workers, count, zero⟩ := exists_workerCount hthreads processors.count sweep.length
  have nobody : workers = 0 → sweep.headings = [] :=
    fun hn => List.length_eq_zero_iff.mp (zero.mp hn)
  refine ⟨fun e visits named => ⟨overflowed_every_order named, overflowed_no_order named⟩,
    workers, count, ?_, ?_⟩
  · intro kind issued gen before trace s stats c run few hp
    have remembered := Run.overflowed rfl run nobody few hp
    exact remembered
  · intro σ o x r ho answer
    let c : Crew :=
      { slopes, sweep, launch, workers, token := ⟨⟨0⟩, 0⟩
        shortage? := processors.shortage? workers }
    have remembered := overflowed_task (c := c) nobody rfl count rfl ho answer
    exact remembered

/-- Steps that take away from the work do not advance the generation. -/
theorem cancels_of_quiet (h : ∀ m ∈ trace, m.allowance = 0) : cancels trace = 0 := by
  refine List.countP_eq_zero.mpr fun m hm => ?_
  have calm := h m hm
  cases hc : m.isCancel with
  | false => exact Bool.false_ne_true
  | true =>
    rw [Move.allowance, hc, if_pos rfl] at calm
    omega

/-- Two workers return and remember no overflow, since no order of their visits leaves one. -/
theorem pair_remembers_no_overflow :
    (Threading.mk (some 2) 4).threads ≠ some 0 ∧
    ∃ trace s stats, Run pair (fun s => s.isStale pair = false) (pair.start ⟨#[0]⟩) trace s ∧
      s.phase = .returned (.completed stats) ∧ stats.overflowed = false := by
  have asked : (Threading.mk (some 2) 4).threads ≠ some 0 := by decide
  obtain ⟨orders, workers, count, runs, _⟩ :=
    overflow_is_that_of_an_order pair.slopes pair.sweep pair.launch ⟨some 2, 4⟩ 4 asked
  obtain rfl : 2 = workers := Except.ok.inj count
  have begin : Run pair (fun s => s.isStale pair = false) (pair.start ⟨#[0]⟩) []
      (pair.start ⟨#[0]⟩) := .rest _ rfl
  obtain ⟨trace, s, outcome, run, hp, quiet⟩ := begin.can_return fun s s' calm same => by
    rw [State.isStale, same]
    exact calm
  obtain ⟨stats, rfl⟩ := run.completed_of_calm (fun _ => rfl) hp
  have few : 0 + cancels trace < 2 ^ 64 := by
    rw [cancels_of_quiet quiet]
    decide
  have visits : pair.sweep.headings.flatMap (headingVisits pair.slopes pair.launch)
      = [⟨1, 1⟩, ⟨0, 73⟩, ⟨0, -73⟩, ⟨1, -73⟩, ⟨0, -1⟩, ⟨1, -38⟩] := by decide +kernel
  obtain ⟨order, perm, remembered⟩ := runs _ ⟨#[0]⟩ ⟨0⟩ 0 trace s stats run few hp
  rw [visits] at perm
  have never := (orders pair.slopes.extent _ (by decide)).2.mpr
    (fun slot => by
      rcases slot with _ | _ | slot
      · decide
      · decide
      · simp [outgo, income, balance, Visit.amount, leavesRange]) order perm
  exact ⟨asked, trace, s, stats, run, hp, remembered.trans never⟩

/-- A row of one pixel with a steep slope. -/
def cliff : Slopes where
  image :=
    { width := 1
      height := 1
      pixels := #[⟨255, 128, 255, 255⟩]
      size_pixels := rfl }

/-- **The same visits in two orders**: a sum that has come to the end of the range wraps where one
    is added before one is taken away, and does not where it is the other way round. So it goes with
    two batches of one heading each. -/
theorem surge_and_ebb_differ :
    [Visit.mk 0 1, ⟨0, -1⟩, ⟨0, 2147483647⟩].Perm [⟨0, 2147483647⟩, ⟨0, 1⟩, ⟨0, -1⟩] ∧
    ((Tally.new ⟨1, 1⟩).absorb [⟨0, 2147483647⟩, ⟨0, 1⟩, ⟨0, -1⟩]).1.overflowed = true ∧
    ((Tally.new ⟨1, 1⟩).absorb [⟨0, 1⟩, ⟨0, -1⟩, ⟨0, 2147483647⟩]).1.overflowed = false ∧
    ∃ t, Tally.ofLists? ⟨1, 1⟩ #[2147483647] #[1] = .ok t ∧
      (inBatches cliff (.plan ⟨1, 1⟩ .rectangular) [[⟨0⟩], [⟨180⟩]] t).overflowed = true ∧
      (inBatches cliff (.plan ⟨1, 1⟩ .rectangular) [[⟨180⟩], [⟨0⟩]] t).overflowed = false := by
  refine ⟨by decide, by decide +kernel, by decide +kernel, _, rfl, ?_, ?_⟩ <;> decide +kernel

end Relief.Crew
