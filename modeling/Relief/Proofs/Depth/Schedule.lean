import Relief.Proofs.Depth.Gathering

/-!
# The schedule of the task

`Integration.task` lets the workers of a crew take turns: one after the other does all of its work,
and the coordinator hears each signal as soon as it is sent. An observer who withdraws the task
stands for somebody outside who advances the generation.

* `Tracked`: a run so far, in which the generation has been advanced once if the observer has
  withdrawn the task, and never if not;
* `Stage`, `Staged`: a state of it in which the workers before a given one have finished, and those
  after it have not begun;
* `Staged.rays`, `Staged.share`, `Staged.crew`: what a worker does for a heading, for its share, and
  what all workers do are steps of the crew;
* `task_is_run`: **the task returns what a run of the crew returns**;
* `follow_task`: so before a persistent observer it **gives up or leaves all visits of the sweep**,
  and before one who withdraws nothing, it does not give up (`result_task`).
-/

namespace Relief.Crew

open Contributions Integration Course

variable {c : Crew} {g : Generations} {σ : Type} {o : Observer σ}

/-! ## 1. Runs before an observer -/

/-- A run to a state, in which the generation has been advanced at most once, and only where the
    observer has withdrawn the work. -/
def Tracked (c : Crew) (g : Generations) (o : Observer σ) (x : σ) (s : State) : Prop :=
  ∃ trace, Run c (fun _ => True) (c.start g) trace s ∧
    (cancels trace = 0 ∨ cancels trace = 1 ∧ o.answer x = true)

namespace Tracked

variable {x : σ} {s : State}

theorem start (c : Crew) (g : Generations) (o : Observer σ) (x : σ) :
    Tracked c g o x (c.start g) :=
  ⟨[], .rest _ trivial, .inl rfl⟩

/-- A step that does not advance the generation keeps track. -/
theorem step (h : Tracked c g o x s) {m : Move} {s' : State} (hs : Step c s m s')
    (hm : m.isCancel = false) : Tracked c g o x s' := by
  obtain ⟨trace, run, once⟩ := h
  refine ⟨trace ++ [m], run.step hs trivial, ?_⟩
  rw [cancels_append, hm]
  exact once

/-- So does an observer who does not take back a withdrawal. -/
theorem mono (h : Tracked c g o x s) {x' : σ} (hx : o.answer x = true → o.answer x' = true) :
    Tracked c g o x' s := by
  obtain ⟨trace, run, never | ⟨once, withdrawn⟩⟩ := h
  · exact ⟨trace, run, .inl never⟩
  · exact ⟨trace, run, .inr ⟨once, hx withdrawn⟩⟩

variable {gen : Generation} (ht : c.token = g.issue gen)
include ht

theorem generations {trace : List Move} (run : Run c (fun _ => True) (c.start g) trace s) :
    s.generations = g.advanceBy gen (cancels trace) := by
  have counted : s.generations = g.advanceBy gen (0 + cancels trace) := Run.generations ht run
  rwa [Nat.zero_add] at counted

/-- As long as the observer has not withdrawn the work, the token is not stale. -/
theorem calm (h : Tracked c g o x s) (hx : o.answer x = false) : s.isStale c = false := by
  obtain ⟨trace, run, never | ⟨_, withdrawn⟩⟩ := h
  · rw [State.isStale, generations ht run, ht, never, ← Bool.not_eq_true,
      Generations.isStale_advanceBy]
    exact fun stale => stale.2 rfl
  · rw [hx] at withdrawn
    cases withdrawn

/-- When the observer has withdrawn it, the token is stale, or can become so in one step. -/
theorem stale (hplace : gen.place < g.counts.size) (h : Tracked c g o x s)
    (hx : o.answer x = true) :
    ∃ g', Tracked c g o x { s with generations := g' } ∧ g'.isStale c.token = true := by
  obtain ⟨trace, run, never | ⟨once, withdrawn⟩⟩ := h
  · have place : c.token.generation = gen := by rw [ht]; rfl
    refine ⟨_, ⟨trace ++ [.cancel], run.step (.cancel s) trivial, .inr ⟨?_, hx⟩⟩, ?_⟩
    · rw [cancels_append, never]
      rfl
    · rw [generations ht run, never, place, ht]
      exact (Generations.isStale_advanceBy g gen 1).mpr ⟨hplace, by decide⟩
  · refine ⟨s.generations, ⟨trace, run, .inr ⟨once, withdrawn⟩⟩, ?_⟩
    rw [generations ht run, once, ht]
    exact (Generations.isStale_advanceBy g gen 1).mpr ⟨hplace, by decide⟩

end Tracked

/-! ## 2. One worker at work -/

/-- A worker who has nothing to tell at the moment. -/
def atWork (todo : List Act) (completed : Nat) : Worker where
  todo
  completed
  wrapped := false
  isOpen := true
  outbox := []

/-- All workers have been started. So many have finished, worker `i` is the one at work, and those
    after it have not begun. -/
structure Stage (c : Crew) (phase : Phase) (finished i : Nat) (p : Progress) (w : Worker)
    (s : State) : Prop where
  phase : s.phase = phase
  started : s.started = c.workers
  finished : s.finished = finished
  integrated : s.integrated = p.integrated
  flag : s.flag = p.aborted
  aborted : s.aborted = p.aborted
  failed : s.failed = none
  tally : s.tally = p.tally
  extent : p.tally.extent = c.slopes.extent
  worker : s.workers i = w
  later : ∀ j, i < j → s.workers j = atWork (c.program j) 0

namespace Stage

variable {phase : Phase} {finished i : Nat} {p : Progress} {w w' : Worker} {s : State}

/-- The generations do not matter to it. -/
theorem withGenerations (h : Stage c phase finished i p w s) (g' : Generations) :
    Stage c phase finished i p w { s with generations := g' } :=
  ⟨h.phase, h.started, h.finished, h.integrated, h.flag, h.aborted, h.failed, h.tally, h.extent,
    h.worker, h.later⟩

/-- A step of the worker at work. -/
theorem work (h : Stage c phase finished i p w s) (hi : i < c.workers) {m : Move} {t : Tally}
    (hw : Works c s.generations p.aborted i w p.tally m w' t) :
    ∃ s', Step c s m s' ∧ Stage c phase finished i { p with tally := t } w' s' := by
  have step : Step c s m { s with workers := Function.update s.workers i w', tally := t } := by
    refine .work s i m w' t (h.started ▸ hi) ?_
    rw [h.flag, h.worker, h.tally]
    exact hw
  refine ⟨_, step, ?_⟩
  exact
    { h with
      phase := h.phase
      tally := rfl
      extent := hw.extent.trans h.extent
      worker := Function.update_self ..
      later := fun j hj => (Function.update_of_ne (Nat.ne_of_gt hj) ..).trans (h.later j hj) }

/-- The worker who has not begun may. -/
theorem next (h : Stage c phase finished i p w s) :
    Stage c phase finished (i + 1) p (atWork (c.program (i + 1)) 0) s :=
  { h with
    worker := h.later (i + 1) (Nat.lt_succ_self i)
    later := fun j hj => h.later j (by omega) }

/-- The coordinator goes over to something else. -/
theorem withPhase (h : Stage c phase finished i p w s) (phase' : Phase) :
    Stage c phase' finished i p w { s with phase := phase' } :=
  ⟨rfl, h.started, h.finished, h.integrated, h.flag, h.aborted, h.failed, h.tally, h.extent,
    h.worker, h.later⟩

/-- What the coordinator does after a look depends on how many have finished. -/
theorem afterCheck (h : Stage c phase finished i p w s) :
    s.afterCheck c = if finished < c.workers then .receiving else .leaving := by
  rw [State.afterCheck, h.finished]

/-- The coordinator hears of a heading. -/
theorem hearHeading (h : Stage c .receiving finished i p w s) (hi : i < c.workers)
    {rest : List Signal} (hw : w.outbox = .headingDone :: rest) :
    ∃ s', Step c s (.hear i .headingDone) s' ∧
      Stage c .checking finished i { p with integrated := p.integrated + 1 }
        { w with outbox := rest } s' := by
  have sent : (s.workers i).outbox = .headingDone :: rest := h.worker ▸ hw
  refine ⟨_, .lead _ _ _ (.hear s i .headingDone rest h.phase hi sent), ?_⟩
  exact
    { h with
      phase := rfl
      integrated := congrArg (· + 1) h.integrated
      worker := (Function.update_self ..).trans
        (congrArg (fun w : Worker => { w with outbox := rest }) h.worker)
      later := fun j hj => (Function.update_of_ne (Nat.ne_of_gt hj) ..).trans (h.later j hj) }

/-- The coordinator hears the last signal of the worker. -/
theorem hearLast (h : Stage c .receiving finished i p w s) (hi : i < c.workers) {completed : Nat}
    {rest : List Signal} (hw : w.outbox = .finished completed :: rest) :
    ∃ s', Step c s (.hear i (.finished completed)) s' ∧
      Stage c .checking (finished + 1) i p { w with outbox := rest } s' := by
  have sent : (s.workers i).outbox = .finished completed :: rest := h.worker ▸ hw
  refine ⟨_, .lead _ _ _ (.hear s i (.finished completed) rest h.phase hi sent), ?_⟩
  exact
    { h with
      phase := rfl
      finished := congrArg (· + 1) h.finished
      worker := (Function.update_self ..).trans
        (congrArg (fun w : Worker => { w with outbox := rest }) h.worker)
      later := fun j hj => (Function.update_of_ne (Nat.ne_of_gt hj) ..).trans (h.later j hj) }

end Stage

/-- A run so far has come to such a stage. The coordinator has told the workers to stop only if the
    observer has withdrawn the work. -/
def Staged (c : Crew) (g : Generations) (o : Observer σ) (x : σ) (phase : Phase)
    (finished i : Nat) (p : Progress) (w : Worker) : Prop :=
  ∃ s, Tracked c g o x s ∧ Stage c phase finished i p w s ∧ (p.aborted = true → o.answer x = true)

namespace Staged

variable {x : σ} {phase : Phase} {finished i k : Nat} {p : Progress} {w w' : Worker}

/-- An observer who does not take back a withdrawal may go on. -/
theorem mono (h : Staged c g o x phase finished i p w) {x' : σ}
    (hx : o.answer x = true → o.answer x' = true) : Staged c g o x' phase finished i p w := by
  obtain ⟨s, tracked, stage, told⟩ := h
  exact ⟨s, tracked.mono hx, stage, fun ha => hx (told ha)⟩

/-- A step of the worker at work for which neither the token nor the observer matters. -/
theorem act (h : Staged c g o x phase finished i p w) (hi : i < c.workers) {m : Move} {t : Tally}
    (hm : m.isCancel = false) (hw : ∀ g', Works c g' p.aborted i w p.tally m w' t) :
    Staged c g o x phase finished i { p with tally := t } w' := by
  obtain ⟨s, tracked, stage, told⟩ := h
  obtain ⟨s', step, stage'⟩ := stage.work hi (hw s.generations)
  exact ⟨s', tracked.step step hm, stage', told⟩

/-- The worker at work adds some visits, each in its single accesses. -/
theorem visits (hi : i < c.workers) (vs : List Visit) (rest : List Act)
    (hv : ∀ v ∈ vs, v.slot < c.slopes.extent.area)
    (h : Staged c g o x phase finished i p
      (atWork ((vs.flatMap fun v => [.sum v, .count v]) ++ rest) k)) :
    Staged c g o x phase finished i { p with tally := (p.tally.absorb vs).1 } (atWork rest k) := by
  induction vs generalizing p with
  | nil => exact h
  | cons v vs ih =>
    have slot : v.slot < p.tally.extent.area := by
      obtain ⟨s, _, stage, _⟩ := h
      rw [stage.extent]
      exact hv v List.mem_cons_self
    have summed := h.act hi rfl fun _ => .sum _ _ v _ rfl slot
    have told : Staged c g o x phase finished i
        { p with tally := if p.tally.wraps v then (p.tally.addSum v).raise else p.tally.addSum v }
        (atWork (.count v :: ((vs.flatMap fun v => [.sum v, .count v]) ++ rest)) k) := by
      cases hw : p.tally.wraps v with
      | false =>
        rw [hw] at summed
        exact summed
      | true =>
        rw [hw] at summed
        exact summed.act hi rfl fun _ => .raise _ _ rfl
    have counted := told.act hi rfl fun _ => .count _ _ v _ rfl rfl
    rw [← Tally.add_eq _ _ slot] at counted
    rw [Tally.absorb, dif_pos slot]
    exact ih (fun v' hv' => hv v' (List.mem_cons_of_mem v hv')) counted

variable {gen : Generation} (ht : c.token = g.issue gen)
include ht

/-- Where the observer has not withdrawn the work, the worker at work launches a ray. -/
theorem launch (hi : i < c.workers) {heading : Heading} {start : Point} {rest : List Act}
    (h : Staged c g o x phase finished i p (atWork (.launch heading start :: rest) k))
    (hx : o.answer x = false) : Staged c g o x phase finished i p (atWork rest k) := by
  obtain ⟨s, tracked, stage, told⟩ := h
  obtain ⟨s', step, stage'⟩ :=
    stage.work hi (.launch _ _ heading start rest rfl (tracked.calm ht hx))
  exact ⟨s', tracked.step step rfl, stage', told⟩

variable (hplace : gen.place < g.counts.size)
include hplace

/-- Where the observer has, it gives up. -/
theorem withdraw (hi : i < c.workers) {heading : Heading} {start : Point} {rest : List Act}
    (h : Staged c g o x phase finished i p (atWork (.launch heading start :: rest) k))
    (hx : o.answer x = true) : Staged c g o x phase finished i p (atWork [] k) := by
  obtain ⟨s, tracked, stage, told⟩ := h
  obtain ⟨g', tracked', stale⟩ := tracked.stale ht hplace hx
  obtain ⟨s', step, stage'⟩ :=
    (stage.withGenerations g').work hi (.withdraw _ _ heading start rest rfl stale)
  exact ⟨s', tracked'.step step rfl, stage', told⟩

/-- **The rays of a heading.** They are marched, or given up where the observer has withdrawn the
    work. -/
theorem rays (hi : i < c.workers) (heading : Heading) (starts : List Point) (rest : List Act)
    (h : Staged c g o x phase finished i p
      (atWork (starts.flatMap (c.rayActs heading) ++ rest) k))
    (hf : starts ≠ [] → p.aborted = false) :
    (∃ t, (marchRays c.slopes c.launch heading.opposite.step starts p.tally).follow o x
        = ((t, .complete), x) ∧
      Staged c g o x phase finished i { p with tally := t } (atWork rest k)) ∨
    ∃ t, (marchRays c.slopes c.launch heading.opposite.step starts p.tally).follow o x
        = ((t, .withdrawn), x) ∧
      Staged c g o x phase finished i { p with tally := t } (atWork [] k) := by
  induction starts generalizing p with
  | nil => exact .inl ⟨p.tally, rfl, h⟩
  | cons start starts ih =>
    have low := hf (List.cons_ne_nil _ _)
    have acts : (start :: starts).flatMap (c.rayActs heading) ++ rest
        = .lookUp :: .launch heading start ::
          (((rayVisits c.slopes c.launch heading.opposite.step start).flatMap
              fun v => [.sum v, .count v]) ++ (starts.flatMap (c.rayActs heading) ++ rest)) := by
      simp [rayActs]
    rw [acts] at h
    have looked := h.act hi rfl fun _ => .goOn _ _ _ rfl low
    cases hx : o.answer x with
    | true =>
      refine .inr ⟨p.tally, ?_, looked.withdraw ht hplace hi hx⟩
      rw [marchRays, follow, hx, if_pos rfl]
      rfl
    | false =>
      have launched := (looked.launch ht hi hx).visits hi _ _ fun v hv =>
        slot_lt_of_mem_rayVisits hv
      have marched := ih launched fun _ => low
      have extent : p.tally.extent = c.slopes.extent := by
        obtain ⟨s, _, stage, _⟩ := h
        exact stage.extent
      rw [marchRays, follow, hx, if_neg Bool.false_ne_true]
      by_cases hr : c.launch.reaches start heading.opposite.step = true
      · rw [if_pos hr, absorb_visits c.slopes c.launch extent]
        rw [rayVisits, if_pos hr] at marched
        exact marched
      · rw [if_neg hr]
        rw [rayVisits, if_neg hr] at marched
        exact marched

variable (ho : o.Persists)
include ho

/-- **The coordinator looks up**, and tells the workers to stop where the observer has withdrawn
    the work. -/
theorem check (h : Staged c g o x .checking finished i p w) :
    ∃ p' x', p.lookUp.follow o x = (p', x') ∧
      Staged c g o x' (if finished < c.workers then .receiving else .leaving) finished i p' w := by
  obtain ⟨s, tracked, stage, told⟩ := h
  rw [← stage.afterCheck]
  cases ha : p.aborted with
  | true =>
    refine ⟨p, x, by rw [Progress.lookUp, if_pos ha]; rfl, ?_⟩
    have goOn : Step c s .lead { s with phase := s.afterCheck c } :=
      .lead _ _ _ (.goOn s stage.phase (.inl (stage.aborted.trans ha)))
    exact ⟨_, tracked.step goOn rfl, stage.withPhase _, told⟩
  | false =>
    have low : ¬ p.aborted = true := by rw [ha]; exact Bool.false_ne_true
    cases hx : o.answer x with
    | false =>
      refine ⟨p, x, by rw [Progress.lookUp, if_neg low, follow, hx]; rfl, ?_⟩
      have goOn : Step c s .lead { s with phase := s.afterCheck c } :=
        .lead _ _ _ (.goOn s stage.phase (.inr (tracked.calm ht hx)))
      exact ⟨_, tracked.step goOn rfl, stage.withPhase _, told⟩
    | true =>
      refine ⟨{ p with aborted := true }, o.note x .integrationSuperseded,
        by rw [Progress.lookUp, if_neg low, follow, hx]; rfl, ?_⟩
      obtain ⟨g', tracked', stale⟩ := tracked.stale ht hplace hx
      have notice := tracked'.step
        (.lead _ _ _ (.notice _ stage.phase (stage.aborted.trans ha) stale)) rfl
      have abort := notice.step (.lead _ _ _ (.abort _ rfl)) rfl
      refine ⟨_, abort.mono (ho x _), ?_, fun _ => ho x _ hx⟩
      exact { stage with phase := rfl, flag := rfl, aborted := rfl }

/-- The worker at work reports a heading, and the coordinator hears it and looks up. -/
theorem report (hi : i < c.workers) (hf : finished < c.workers) {rest : List Act}
    (h : Staged c g o x .receiving finished i p (atWork (.report :: rest) k)) :
    ∃ p' x', (Progress.lookUp { p with integrated := p.integrated + 1 }).follow o x = (p', x') ∧
      Staged c g o x' .receiving finished i p' (atWork rest (k + 1)) := by
  obtain ⟨s, tracked, stage, told⟩ := h.act hi rfl fun _ => .report _ _ _ rfl
  obtain ⟨s', heard, stage'⟩ := stage.hearHeading hi rfl
  obtain ⟨p', x', e, staged⟩ := check ht hplace ho ⟨s', tracked.step heard rfl, stage', told⟩
  rw [if_pos hf] at staged
  exact ⟨p', x', e, staged⟩

/-- **The share of a worker.** It is worked off, or given up where the observer has withdrawn the
    work. -/
theorem share (hi : i < c.workers) (hf : finished < c.workers) (headings : List Heading)
    (h : Staged c g o x .receiving finished i p (atWork (headings.flatMap c.headingActs) k)) :
    ∃ k' p' x', (work c.slopes c.launch headings k p).follow o x = ((k', p'), x') ∧
      Staged c g o x' .receiving finished i p' (atWork [] k') := by
  induction headings generalizing p k x with
  | nil => exact ⟨k, p, x, rfl, h⟩
  | cons heading headings ih =>
    have acts : (heading :: headings).flatMap c.headingActs
        = c.launch.points.flatMap (c.rayActs heading) ++
          .report :: headings.flatMap c.headingActs := by
      simp [headingActs]
    rw [acts] at h
    by_cases stopped : (p.aborted && !c.launch.points.isEmpty) = true
    · -- the flag is raised, and there is a ray before which it is seen
      refine ⟨k, p, x, by rw [work, if_pos stopped]; rfl, ?_⟩
      obtain ⟨raised, launched⟩ := Bool.and_eq_true_iff.mp stopped
      cases hp : c.launch.points with
      | nil =>
        rw [hp] at launched
        cases launched
      | cons start starts =>
        rw [hp] at h
        exact h.act hi rfl fun _ => .halt _ _ _ rfl raised
    · have low : c.launch.points ≠ [] → p.aborted = false := by
        intro launched
        simpa [launched] using stopped
      rw [work, if_neg stopped, marchHeading]
      rcases h.rays ht hplace hi heading _ _ low with ⟨t, e, marched⟩ | ⟨t, e, gaveUp⟩
      · obtain ⟨p₁, x₁, e₁, reported⟩ := report ht hplace ho hi hf marched
        obtain ⟨k', p', x', e', done⟩ := ih reported
        exact ⟨k', p', x', by simp only [follow_bind, e, e₁, e'], done⟩
      · exact ⟨k, { p with tally := t }, x, by simp only [follow_bind, e, follow], gaveUp⟩

/-- **The workers from number `i` on.** All of them finish, one after the other. -/
theorem crew (hi : i < c.workers)
    (h : Staged c g o x .receiving i i p (atWork (c.program i) 0)) :
    ∃ p' x' j w, (workAll c.slopes c.launch i ((c.sweep.deal c.workers).drop i) p).follow o x
        = (p', x') ∧
      Staged c g o x' .leaving c.workers j p' w := by
  -- by induction on how many are left
  generalize hn : c.workers - i = n
  induction n generalizing i p x with
  | zero => omega
  | succ n ih =>
    have hands := c.sweep.length_deal (Nat.zero_lt_of_lt hi)
    have dealt : (c.sweep.deal c.workers).drop i
        = c.share i :: (c.sweep.deal c.workers).drop (i + 1) := by
      have place : i < (c.sweep.deal c.workers).length := hands.symm ▸ hi
      rw [List.drop_eq_getElem_cons place, Crew.share, List.getElem?_eq_getElem place]
      rfl
    obtain ⟨k, p₁, x₁, e₁, worked⟩ := share ht hplace ho hi hi _ h
    obtain ⟨s, tracked, stage, told⟩ :=
      (worked.act hi rfl fun _ => .close _ _ rfl rfl rfl).mono (ho x₁ (.workerFinished i k))
    obtain ⟨s', heard, stage'⟩ := stage.hearLast hi rfl
    obtain ⟨p₂, x₂, e₂, checked⟩ := check ht hplace ho ⟨s', tracked.step heard rfl, stage', told⟩
    have turn : (workAll c.slopes c.launch i ((c.sweep.deal c.workers).drop i) p).follow o x
        = (workAll c.slopes c.launch (i + 1) ((c.sweep.deal c.workers).drop (i + 1)) p₂).follow o
          x₂ := by
      rw [dealt, workAll, follow_bind, e₁, follow, follow_bind, e₂]
    rw [turn]
    by_cases last : i + 1 < c.workers
    · rw [if_pos last] at checked
      obtain ⟨s₂, tracked₂, stage₂, told₂⟩ := checked
      exact ih last ⟨s₂, tracked₂, stage₂.next, told₂⟩ (by omega)
    · have all : c.workers = i + 1 := by omega
      have dealt : (c.sweep.deal c.workers).drop (i + 1) = [] :=
        List.drop_eq_nil_of_le (by omega)
      rw [if_neg last, ← all] at checked
      rw [dealt]
      exact ⟨p₂, x₂, i, _, rfl, checked⟩

end Staged

/-! ## 3. The whole crew -/

/-- What the task answers where a crew returns. It gives up only where the observer has withdrawn the
    work. -/
inductive Answers (o : Observer σ) (x : σ) (s : State) : Except Failure (Option Integration) → Prop
  | superseded (hp : s.phase = .returned .superseded) (withdrawn : o.answer x = true) :
      Answers o x s (.ok none)
  | unmanned (reason : String) (hp : s.phase = .returned (.unmanned reason)) :
      Answers o x s (.error (.noWorkerThreads reason))
  | completed (r : Integration) (tally : s.tally = r.tally)
      (hp : s.phase = .returned (.completed r.stats)) : Answers o x s (.ok (some r))

/-- What an observer hears later does not change the answer. -/
theorem Answers.mono {o : Observer σ} {x y : σ} {s : State}
    {answer : Except Failure (Option Integration)} (h : Answers o x s answer)
    (still : o.answer x = true → o.answer y = true) : Answers o y s answer := by
  cases h with
  | superseded hp withdrawn => exact .superseded hp (still withdrawn)
  | unmanned reason hp => exact .unmanned reason hp
  | completed r tally hp => exact .completed r tally hp

/-- A run so far has returned what the task answers. -/
def Returned (c : Crew) (g : Generations) (o : Observer σ) (x : σ)
    (answer : Except Failure (Option Integration)) : Prop :=
  ∃ s, Tracked c g o x s ∧ Answers o x s answer

variable {gen : Generation} (ht : c.token = g.issue gen) (hplace : gen.place < g.counts.size)
variable (ho : o.Persists)

/-- The coordinator starts one worker after the other. -/
theorem Tracked.dispatched {x : σ} {s : State} (h : Tracked c g o x s)
    (hp : s.phase = .dispatching) (n : Nat) (hn : s.started + (n + 1) = c.workers) :
    Tracked c g o x { s with started := c.workers, phase := .receiving } := by
  induction n generalizing s with
  | zero =>
    have started := h.step (.lead _ _ _ (.dispatch s hp)) rfl
    rw [if_neg (by omega), hn] at started
    exact started
  | succ n ih =>
    have started := h.step (.lead _ _ _ (.dispatch s hp)) rfl
    rw [if_pos (by omega)] at started
    have fewer : s.started + 1 + (n + 1) = c.workers := by omega
    have rest := ih started rfl fewer
    exact rest

include ht hplace ho

/-- **The coordinator's last look.** -/
theorem Staged.conclude {x : σ} {i : Nat} {p : Progress} {w : Worker}
    (h : Staged c g o x .leaving c.workers i p w) :
    Returned c g o ((Integration.conclude (statsOf c.sweep c.launch c.workers) p).follow o x).2
      ((Integration.conclude (statsOf c.sweep c.launch c.workers) p).follow o x).1 := by
  obtain ⟨s, tracked, stage, told⟩ := h
  cases ha : p.aborted with
  | true =>
    rw [Integration.conclude, if_pos ha]
    have giveUp := tracked.step
      (.lead _ _ _ (.giveUp s stage.phase stage.failed (.inl (stage.aborted.trans ha)))) rfl
    exact ⟨_, giveUp, .superseded rfl (told ha)⟩
  | false =>
    have low : ¬ p.aborted = true := by rw [ha]; exact Bool.false_ne_true
    rw [Integration.conclude, if_neg low]
    cases hx : o.answer x with
    | true =>
      rw [Task.follow_goOn_superseded _ hx]
      obtain ⟨g', tracked', stale⟩ := tracked.stale ht hplace hx
      have giveUp := tracked'.step
        (.lead _ _ _ (.giveUp _ stage.phase stage.failed (.inr stale))) rfl
      exact ⟨_, giveUp, .superseded rfl hx⟩
    | false =>
      rw [Task.follow_goOn_calm _ hx]
      have complete := tracked.step (.lead _ _ _ (.complete s stage.phase stage.failed
        (stage.aborted.trans ha) (tracked.calm ht hx))) rfl
      refine ⟨_, complete.mono (ho x _), .completed ⟨p.tally, _⟩ stage.tally ?_⟩
      rw [State.stats, stage.integrated, stage.tally]

/-- **A coordinator with at least one worker** takes the steps of a crew. -/
theorem coordinate_is_run (hn : 0 < c.workers) (x : σ) :
    Returned c g o ((coordinate c.slopes c.sweep c.launch c.shortage? c.workers).follow o x).2
      ((coordinate c.slopes c.sweep c.launch c.shortage? c.workers).follow o x).1 := by
  have begin := Tracked.start c g o x
  cases hx : o.answer x with
  | true =>
    rw [follow_coordinate_superseded c.slopes c.launch o c.sweep c.shortage? c.workers hx]
    obtain ⟨g', begin', stale⟩ := begin.stale ht hplace hx
    exact ⟨_, begin'.step (.lead _ _ _ (.turnAway _ rfl hn stale)) rfl, .superseded rfl hx⟩
  | false =>
    have calm := begin.calm ht hx
    cases short : c.shortage? with
    | some reason =>
      rw [follow_coordinate_short c.slopes c.launch o c.sweep reason c.workers hx]
      have failed := begin.step (.lead _ _ _ (.unmanned _ reason rfl hn calm short)) rfl
      exact ⟨_, failed, .unmanned reason rfl⟩
    | none =>
      have entered := begin.step (.lead _ _ _ (.enter _ rfl hn calm short)) rfl
      have dispatched := entered.dispatched rfl (c.workers - 1) (by simp only [Crew.start]; omega)
      -- what the coordinator has told when the first worker begins
      let telling := tellAll ((c.sweep.deal c.workers).mapIdx fun worker share =>
        Event.workerDispatched worker share.length)
      have staged : Staged c g o (telling.follow o x).2 .receiving 0 0 (.start c.slopes.extent)
          (atWork (c.program 0) 0) := by
        refine ⟨_, dispatched.mono (ho.follow telling), ?_, fun h => by cases h⟩
        exact ⟨rfl, rfl, rfl, rfl, rfl, rfl, rfl, rfl, rfl, rfl, fun _ _ => rfl⟩
      obtain ⟨p, x', i, w, e, left⟩ := staged.crew ht hplace ho hn
      rw [List.drop_zero] at e
      rw [follow_coordinate_calm c.slopes c.launch o c.sweep c.workers hx]
      dsimp only
      rw [e]
      exact left.conclude ht hplace ho

/-- **The task returns what a run of the crew returns**, if the generation is advanced when the
    observer withdraws it. -/
theorem task_is_run {threading : Threading} {processors : Processors}
    (count : workerCount threading processors.count c.sweep.length = .ok c.workers)
    (threads : c.shortage? = processors.shortage? c.workers) (x : σ) :
    Returned c g o ((task c.slopes c.sweep c.launch threading processors).follow o x).2
      ((task c.slopes c.sweep c.launch threading processors).follow o x).1 := by
  rw [follow_task_eq]
  generalize o.note x (.integrationBegins c.sweep.length c.slopes.extent) = x₁
  have conducted : Returned c g o
      ((conduct c.slopes c.sweep c.launch threading processors).follow o x₁).2
      ((conduct c.slopes c.sweep c.launch threading processors).follow o x₁).1 := by
    rcases Nat.eq_zero_or_pos c.workers with hn | hn
    · rw [conduct, count, hn]
      have nobody := (Tracked.start c g o x₁).step (.lead _ _ _ (.nobody _ rfl hn)) rfl
      exact ⟨_, nobody, .completed _ rfl rfl⟩
    · rw [conduct_of_pos c.slopes c.launch c.sweep count hn, ← threads]
      exact coordinate_is_run ht hplace ho hn x₁
  obtain ⟨s, tracked, answer⟩ := conducted
  exact ⟨s, tracked.mono (ho _ _), answer.mono (ho _ _)⟩

end Relief.Crew

namespace Relief.Integration

open Crew

/-- **Integration gives up, or it fails for want of threads, or all headings of the sweep have
    contributed**, before every observer who does not take a withdrawal back. It gives up only where
    it is withdrawn in the end. -/
theorem follow_task {σ : Type} {o : Course.Observer σ} (ho : o.Persists) (slopes : Slopes)
    (sweep : Sweep) (launch : Launch) {threading : Threading}
    (hthreads : threading.threads ≠ some 0) (processors : Processors) (x : σ) :
    let followed := (task slopes sweep launch threading processors).follow o x
    (followed.1 = .ok none ∧ o.answer followed.2 = true) ∨
    (∃ reason, followed.1 = .error (.noWorkerThreads reason) ∧
      Lacks threading processors sweep.length reason) ∨
    ∃ r, followed.1 = .ok (some r) ∧ Complete slopes launch sweep r := by
  intro followed
  obtain ⟨workers, count, zero⟩ := exists_workerCount hthreads processors.count sweep.length
  -- a crew under the first token of a generation
  let c : Crew :=
    { slopes, sweep, launch, workers, token := ⟨⟨0⟩, 0⟩
      shortage? := processors.shortage? workers }
  let g : Generations := ⟨#[0]⟩
  have issued : c.token = g.issue ⟨0⟩ := rfl
  obtain ⟨s, ⟨trace, run, once⟩, answer⟩ : Returned c g o followed.2 followed.1 :=
    task_is_run issued (by decide) ho count rfl x
  generalize followed.1 = given at answer
  cases answer with
  | superseded _ withdrawn => exact .inl ⟨rfl, withdrawn⟩
  | unmanned reason hp =>
    obtain ⟨positive, short⟩ := run.shortage hp
    exact .inr (.inl ⟨reason, rfl, workers, count, positive, short⟩)
  | completed r tally hp =>
    have nobody : c.workers = 0 → c.sweep.headings = [] :=
      fun hn => List.length_eq_zero_iff.mp (zero.mp hn)
    have few : 0 + cancels trace < 2 ^ 64 := by omega
    have completes := Run.completes_of_few issued run nobody few hp
    rw [tally] at completes
    exact .inr (.inr ⟨r, rfl, completes.toComplete⟩)

/-- **An integration that nobody withdraws completes**, if the machine starts the threads of its
    workers. -/
theorem result_task (slopes : Slopes) (sweep : Sweep) (launch : Launch) {threading : Threading}
    (hthreads : threading.threads ≠ some 0) {processors : Processors}
    (manned : ∀ reason, ¬ Lacks threading processors sweep.length reason) :
    ∃ r, (task slopes sweep launch threading processors).result = .ok (some r) ∧
      Complete slopes launch sweep r := by
  rcases follow_task Course.patient_persists slopes sweep launch hthreads processors () with
    ⟨-, withdrawn⟩ | ⟨reason, -, lacks⟩ | done
  · exact absurd withdrawn Bool.false_ne_true
  · exact absurd lacks (manned reason)
  · exact done

end Relief.Integration
