import Relief.Proofs.Reconstruction.Errand

/-!
# Reconstructions that are superseded

Whoever advances the generation of a reconstruction can suppress its result, and do nothing else
to it.

* `Errand.Whole`: an integration that a crew has completed, with its counters;
* `Same`: two outcomes that differ in the memory of an overflow at most;
* `Errand.undisturbed`: what an errand returns that nobody disturbs;
* `Errand.Known`: **what is known of an errand after some steps**: it is on its way to that, or the
  generation has been advanced. Every step keeps it (`Known.step`), so it holds after every run
  (`known_run`).
-/

namespace Relief

namespace Reconstruction

/-! ## 1. The same outcome -/

/-- Two reconstructions with the same depth map and the same counters. Whether a sum has wrapped on
    the way depends on the order of the additions. -/
structure Alike (a b : Reconstruction) : Prop where
  depth : a.depth = b.depth
  planned : a.stats.planned = b.stats.planned
  integrated : a.stats.integrated = b.stats.integrated
  workers : a.stats.workers = b.stats.workers
  launchPoints : a.stats.launchPoints = b.stats.launchPoints

/-- Two outcomes are the same: one failure, nothing, or reconstructions that are alike. -/
inductive Same : Except Failure (Option Reconstruction) → Except Failure (Option Reconstruction) →
    Prop
  | failure (reason : Failure) : Same (.error reason) (.error reason)
  | nothing : Same (.ok none) (.ok none)
  | reconstruction {a b : Reconstruction} (h : a.Alike b) : Same (.ok (some a)) (.ok (some b))

theorem Same.refl (outcome : Except Failure (Option Reconstruction)) : Same outcome outcome := by
  rcases outcome with reason | _ | a
  · exact .failure reason
  · exact .nothing
  · exact .reconstruction ⟨rfl, rfl, rfl, rfl, rfl⟩

end Reconstruction

/-! ## 2. The counters of a crew -/

/-- A completed integration tells how many workers there were, and how many launch points. -/
theorem Crew.Run.counters {c : Crew} {kind : State → Prop} {g : Generations} {trace : List Move}
    {s : State} {stats : Stats} (h : Run c kind (c.start g) trace s)
    (hp : s.phase = .returned (.completed stats)) :
    stats.workers = c.workers ∧ stats.launchPoints = c.launch.points.length := by
  obtain ⟨before, later, s₁, _, _, _, returns, _⟩ := h.returned hp
  cases returns with
  | nobody _ empty => exact ⟨empty.symm, rfl⟩
  | complete _ _ => exact ⟨rfl, rfl⟩

namespace Errand

open Reconstruction

variable {e : Errand} {slopes : Slopes} {workers : Nat} {issued : Generations} {gen : Generation}

/-- The machine does not start the threads of the workers. -/
def Lacks (e : Errand) (reason : String) : Prop :=
  Integration.Lacks e.request.options.threading e.processors (sweepOf e.request).length reason

/-- An integration of the request that so many workers have completed. -/
structure Whole (e : Errand) (slopes : Slopes) (workers : Nat) (i : Integration) : Prop
    extends Integration.Complete slopes (launchOf e.request) (sweepOf e.request) i where
  workers : i.stats.workers = workers
  launchPoints : i.stats.launchPoints = (launchOf e.request).points.length
  manned : ∀ reason, ¬ e.Lacks reason

/-- **What a crew completes is whole**, as long as the generation is advanced fewer than `2 ^ 64`
    times. -/
theorem whole_of_run (count : e.workerCount = .ok workers) (ht : e.token = issued.issue gen)
    {before : Nat} {trace : List Crew.Move} {s : Crew.State} {stats : Stats}
    (run : Crew.Run (e.crew slopes workers) (fun _ => True)
      ((e.crew slopes workers).start (issued.advanceBy gen before)) trace s)
    (few : before + Crew.cancels trace < 2 ^ 64) (hp : s.phase = .returned (.completed stats)) :
    e.Whole slopes workers ⟨s.tally, stats⟩ := by
  obtain ⟨counted, count', zero⟩ := Integration.exists_workerCount
    (Integration.threads_ne_of_workerCount count) e.processors.count (sweepOf e.request).length
  obtain rfl : counted = workers := Except.ok.inj (count'.symm.trans count)
  have nobody : counted = 0 → (sweepOf e.request).headings = [] :=
    fun nobody => List.length_eq_zero_iff.mp (zero.mp nobody)
  have completes := Crew.Run.completes_of_few ht run nobody few hp
  obtain ⟨workers, launchPoints⟩ := run.counters hp
  refine ⟨completes.toComplete, workers, launchPoints, ?_⟩
  rintro reason ⟨counted', count', positive, short⟩
  obtain rfl : counted' = counted := Except.ok.inj (count'.symm.trans count)
  rcases run.threads hp with nobody | granted
  · exact positive.ne' nobody
  · cases granted.symm.trans short

/-- The task of the integration completes it, where nobody withdraws it and there are threads. -/
theorem whole_of_task (slopes : Slopes) (count : e.workerCount = .ok workers)
    (manned : ∀ reason, ¬ e.Lacks reason) :
    ∃ i, Course.result (integrating e.request e.processors slopes) = .ok (some i) ∧
      e.Whole slopes workers i := by
  -- a crew under the first token of a generation
  let first : Errand := { e with token := ⟨⟨0⟩, 0⟩ }
  have issued : (first.crew slopes workers).token = (Generations.mk #[0]).issue ⟨0⟩ := rfl
  obtain ⟨s, ⟨trace, run, once⟩, answer⟩ :
      Crew.Returned (first.crew slopes workers) _ _ _
        (Course.result (integrating e.request e.processors slopes)) :=
    Crew.task_is_run issued (by decide) Course.patient_persists count rfl ()
  have few : 0 + Crew.cancels trace < 2 ^ 64 := by omega
  generalize Course.result (integrating e.request e.processors slopes) = given at answer
  cases answer with
  | superseded _ withdrawn => cases withdrawn
  | unmanned reason hp =>
    obtain ⟨positive, short⟩ := run.shortage hp
    exact absurd ⟨workers, count, positive, short⟩ (manned reason)
  | completed i tally hp =>
    have begun : (first.crew slopes workers).start ⟨#[0]⟩
        = (first.crew slopes workers).start (Generations.advanceBy ⟨#[0]⟩ ⟨0⟩ 0) := rfl
    rw [begun] at run
    have whole : first.Whole slopes workers ⟨s.tally, i.stats⟩ :=
      whole_of_run (e := first) count issued run few hp
    rw [tally] at whole
    exact ⟨i, rfl, whole.toComplete, whole.workers, whole.launchPoints, manned⟩

/-- **Two whole integrations are closed with the same outcome.** -/
theorem same_closing {i j : Integration} (hi : e.Whole slopes workers i)
    (hj : e.Whole slopes workers j) :
    Same (Course.result (closing e.request i)) (Course.result (closing e.request j)) := by
  have extent : i.tally.extent = j.tally.extent := hi.tally.extent.trans hj.tally.extent.symm
  rw [result_closing, result_closing, Levels.image_congr extent (hi.tally.agrees hj.tally)]
  cases e.request.options.finish.image (Levels.image j.tally)
    (some (e.request.mask.getD e.request.map)) with
  | error reason => exact .failure reason
  | ok depth =>
    exact .reconstruction ⟨rfl, hi.planned.trans hj.planned.symm,
      hi.integrated.trans hj.integrated.symm, hi.workers.trans hj.workers.symm,
      hi.launchPoints.trans hj.launchPoints.symm⟩

/-! ## 3. The undisturbed errand -/

/-- What an errand returns where nobody advances the generation. -/
def undisturbed (e : Errand) : Except Failure (Option Reconstruction) :=
  Course.result (task e.request e.token.captured e.processors)

/-- What its opening comes to. -/
def opened (e : Errand) : Except Failure (Option (Reconstruction ⊕ Slopes)) :=
  Course.result (opening e.request e.token.captured)

theorem undisturbed_eq (e : Errand) :
    e.undisturbed = Course.result (Task.next (following e.request e.processors) e.opened) := by
  rw [undisturbed, task_eq, Task.result_bind]
  rfl

theorem undisturbed_of_error {reason : Failure} (h : e.opened = .error reason) :
    e.undisturbed = .error reason := by
  rw [undisturbed_eq, h]
  rfl

theorem undisturbed_of_empty {whole : Reconstruction} (h : e.opened = .ok (some (.inl whole))) :
    e.undisturbed = .ok (some whole) := by
  rw [undisturbed_eq, h]
  rfl

theorem undisturbed_of_slopes (h : e.opened = .ok (some (.inr slopes))) :
    e.undisturbed = Course.result
      (Task.bind (integrating e.request e.processors slopes) (closing e.request)) := by
  rw [undisturbed_eq, h]
  rfl

/-- An errand that asks for no workers fails. -/
theorem undisturbed_of_no_workers {reason : Failure} (h : e.opened = .ok (some (.inr slopes)))
    (count : e.workerCount = .error reason) : e.undisturbed = .error reason := by
  have failed : Course.result (integrating e.request e.processors slopes) = .error reason := by
    rw [workerCount] at count
    unfold integrating Integration.task Integration.conduct
    rw [count]
    rfl
  rw [undisturbed_of_slopes h, Task.result_bind, failed]
  rfl

/-- An errand without the threads of its workers fails. -/
theorem undisturbed_of_lacks {reason : String} (h : e.opened = .ok (some (.inr slopes)))
    (lacks : e.Lacks reason) : e.undisturbed = .error (.noWorkerThreads reason) := by
  have failed : Course.result (integrating e.request e.processors slopes)
      = .error (.noWorkerThreads reason) := Integration.result_task_of_lacks _ _ _ lacks
  rw [undisturbed_of_slopes h, Task.result_bind, failed]
  rfl

/-- **An undisturbed errand closes with a whole integration**, and any other would do. -/
theorem same_undisturbed (h : e.opened = .ok (some (.inr slopes)))
    (count : e.workerCount = .ok workers) {i : Integration} (hi : e.Whole slopes workers i) :
    Same (Course.result (closing e.request i)) e.undisturbed := by
  obtain ⟨j, result, hj⟩ := whole_of_task slopes count hi.manned
  rw [undisturbed_of_slopes h, Task.result_bind, result]
  exact same_closing hi hj

theorem opened_ne_none (e : Errand) : e.opened ≠ .ok none := by
  rw [opened, result_opening]
  split
  · exact nofun
  · split
    · exact nofun
    · cases Extraction.slopes e.request.map e.request.options.convention <;> exact nofun

theorem result_closing_ne_none (r : Request) (i : Integration) :
    Course.result (closing r i) ≠ .ok none := by
  rw [result_closing]
  cases r.options.finish.image (Levels.image i.tally) (some (r.mask.getD r.map)) <;> exact nofun

/-- An errand that nobody disturbs returns something. -/
theorem undisturbed_ne_none (e : Errand) : e.undisturbed ≠ .ok none := by
  intro nothing
  cases h : e.opened with
  | error reason =>
    rw [undisturbed_of_error h] at nothing
    cases nothing
  | ok outcome =>
    rcases outcome with _ | whole | slopes
    · exact e.opened_ne_none h
    · rw [undisturbed_of_empty h] at nothing
      cases nothing
    · cases count : e.workerCount with
      | error reason =>
        rw [undisturbed_of_no_workers h count] at nothing
        cases nothing
      | ok workers =>
        by_cases lacks : ∃ reason, e.Lacks reason
        · obtain ⟨reason, lacks⟩ := lacks
          rw [undisturbed_of_lacks h lacks] at nothing
          cases nothing
        · obtain ⟨j, result, _⟩ := whole_of_task slopes count (not_exists.mp lacks)
          rw [undisturbed_of_slopes h, Task.result_bind, result] at nothing
          exact result_closing_ne_none _ j nothing

/-- Only a map without pixels is reconstructed by the opening alone. -/
theorem isEmpty_of_opened {whole : Reconstruction} (h : e.opened = .ok (some (.inl whole))) :
    e.request.map.isEmpty = true := by
  rw [opened, result_opening] at h
  split at h
  · cases h
  · split at h
    · assumption
    · cases hs : Extraction.slopes e.request.map e.request.options.convention <;>
        rw [hs] at h <;> cases h

/-! ## 4. What is known on the way -/

/-- Nothing had been advanced at the last look of all, after which there were only reports, and
    steps from outside. -/
def LooksLast (before : Nat) (trace : List Happening) : Prop :=
  ∃ sooner later, trace = sooner ++ .look :: later ∧ before + cancels sooner = 0 ∧
    ∀ h ∈ later, h = .pass ∨ h = .cancel

theorem LooksLast.append {before : Nat} {trace : List Happening} (h : LooksLast before trace)
    {next : Happening} (hn : next = .pass ∨ next = .cancel) :
    LooksLast before (trace ++ [next]) := by
  obtain ⟨sooner, later, rfl, calm, quiet⟩ := h
  refine ⟨sooner, later ++ [next], by simp, calm, fun h hh => ?_⟩
  rcases List.mem_append.mp hh with hh | hh
  · exact quiet h hh
  · rw [List.mem_singleton.mp hh]
    exact hn

/-- What is left of a task comes to the given result, or has been given up after an advance. -/
def Heads {α : Type} (times : Nat) (rest : Task α) (result : Except Failure (Option α)) : Prop :=
  (rest = Task.givenUp ∧ times ≠ 0) ∨ rest.Heeds ∧ Course.result rest = result

/-- **What is known of an errand after some steps**, if the generation had been advanced `before`
    times when it began. -/
inductive Known (e : Errand) (issued : Generations) (gen : Generation) (before : Nat)
    (trace : List Happening) : Way → Prop
  | opening (rest : Task (Reconstruction ⊕ Slopes))
      (heads : Heads (before + cancels trace) rest e.opened) :
      Known e issued gen before trace
        (.opening (issued.advanceBy gen (before + cancels trace)) rest)
  | integrating (slopes : Slopes) (workers sooner : Nat) (moves : List Crew.Move) (s : Crew.State)
      (found : e.opened = .ok (some (.inr slopes))) (count : e.workerCount = .ok workers)
      (run : Crew.Run (e.crew slopes workers) (fun _ => True)
        ((e.crew slopes workers).start (issued.advanceBy gen sooner)) moves s)
      (total : sooner + Crew.cancels moves = before + cancels trace) :
      Known e issued gen before trace (.integrating slopes workers s)
  | closing (slopes : Slopes) (workers : Nat) (i : Integration) (rest : Task Reconstruction)
      (found : e.opened = .ok (some (.inr slopes))) (count : e.workerCount = .ok workers)
      (whole : e.Whole slopes workers i)
      (heads : Heads (before + cancels trace) rest (Course.result (closing e.request i)))
      (last : rest.IsQuiet → ∀ done, Course.result rest = .ok (some done) →
        LooksLast before trace) :
      Known e issued gen before trace
        (.closing (issued.advanceBy gen (before + cancels trace)) rest)
  | ended (g : Generations) (outcome : Except Failure (Option Reconstruction))
      (same : (outcome = .ok none ∧ before + cancels trace ≠ 0) ∨ Same outcome e.undisturbed)
      (last : e.request.map.isEmpty = false → ∀ done, outcome = .ok (some done) →
        LooksLast before trace) :
      Known e issued gen before trace (.ended g (.returned outcome))

theorem known_begin (e : Errand) (issued : Generations) (gen : Generation) (before : Nat) :
    Known e issued gen before [] (e.begin (issued.advanceBy gen before)) :=
  .opening _ (.inr ⟨heeds_opening e.request e.token.captured, rfl⟩)

section Looks

variable {before : Nat} {trace : List Happening}

theorem cancels_own (looks : Bool) :
    cancels (trace ++ [.own looks]) = cancels trace := by
  rw [cancels_append]
  cases looks <;> rfl

theorem cancels_pass : cancels (trace ++ [.pass]) = cancels trace := by
  rw [cancels_append]
  rfl

theorem cancels_cancel : before + cancels (trace ++ [.cancel]) = before + cancels trace + 1 := by
  rw [cancels_append]
  rfl

theorem cancels_crew (m : Crew.Move) :
    cancels (trace ++ [.crew m]) = cancels trace + if m.isCancel then 1 else 0 := by
  rw [cancels_append]
  cases m <;> rfl

variable (ht : e.token = issued.issue gen)
include ht

/-- What is found superseded has been advanced. -/
theorem ne_zero_of_stale {times : Nat}
    (h : (issued.advanceBy gen times).isStale e.token = true) : times ≠ 0 := by
  rw [ht, Generations.isStale_advanceBy] at h
  rintro rfl
  exact h.2 rfl

/-- What has been advanced is found superseded. -/
theorem eq_zero_of_calm (hplace : gen.place < issued.counts.size) {times : Nat}
    (few : times < 2 ^ 64) (h : (issued.advanceBy gen times).isStale e.token = false) :
    times = 0 := by
  rw [ht, ← Bool.not_eq_true, Generations.isStale_advanceBy, Nat.mod_eq_of_lt few] at h
  exact Classical.byContradiction fun advanced => h ⟨hplace, advanced⟩

/-- **A step of a task keeps what it comes to**, or the task is given up after an advance. -/
theorem Heads.moves {α : Type} {rest rest' : Task α} {times : Nat}
    {result : Except Failure (Option α)} {looks : Bool} (h : Heads times rest result)
    (hm : Course.Moves ((issued.advanceBy gen times).isStale e.token) rest looks rest') :
    Heads times rest' result := by
  rcases h with ⟨rfl, _⟩ | ⟨heeds, rfl⟩
  · cases hm
  · rcases heeds.moves hm with ⟨_, stale, rfl⟩ | ⟨heeds', same⟩
    · exact .inl ⟨rfl, ne_zero_of_stale ht stale⟩
    · exact .inr ⟨heeds', same⟩

/-- A crew returns nothing only where the generation has been advanced. -/
theorem ne_zero_of_superseded {sooner : Nat} {moves : List Crew.Move} {s : Crew.State}
    (run : Crew.Run (e.crew slopes workers) (fun _ => True)
      ((e.crew slopes workers).start (issued.advanceBy gen sooner)) moves s)
    (few : sooner + Crew.cancels moves < 2 ^ 64) (hp : s.phase = .returned .superseded) :
    sooner + Crew.cancels moves ≠ 0 := by
  obtain ⟨early, late, s₁, rfl, _, run', returns, _⟩ := run.returned hp
  have fewer : Crew.cancels early ≤ Crew.cancels (early ++ .lead :: late) :=
    (List.sublist_append_left _ _).countP_le
  have stale : s₁.isStale (e.crew slopes workers) = true := by
    cases returns with
    | turnAway stale => exact stale
    | giveUp found =>
      rcases found with aborted | stale
      · exact run'.stale_of_isSighted ht (by omega) ((Crew.inv_run run').aborted aborted)
      · exact stale
  rw [Crew.State.isStale, run'.generations ht] at stale
  have advanced := ne_zero_of_stale ht stale
  omega

end Looks

/-- The opening is over. -/
theorem Known.opened {before : Nat} {trace : List Happening}
    {outcome : Except Failure (Option (Reconstruction ⊕ Slopes))}
    (heads : Heads (before + cancels trace) (Course.done outcome) e.opened) :
    Known e issued gen before (trace ++ [.pass])
      (e.afterOpening (issued.advanceBy gen (before + cancels trace)) outcome) := by
  rcases heads with ⟨givenUp, advanced⟩ | ⟨_, found⟩
  · cases givenUp
    refine .ended _ _ (.inl ⟨rfl, by rwa [cancels_pass]⟩) fun _ done h => ?_
    cases h
  · change outcome = e.opened at found
    rcases outcome with reason | _ | whole | slopes
    · refine .ended _ _ (.inr ?_) fun _ done h => by cases h
      rw [undisturbed_of_error found.symm]
      exact .failure reason
    · exact absurd found.symm e.opened_ne_none
    · refine .ended _ _ (.inr ?_) fun pixels _ _ => ?_
      · rw [undisturbed_of_empty found.symm]
        exact Same.refl _
      · rw [isEmpty_of_opened found.symm] at pixels
        cases pixels
    · rw [afterOpening]
      cases count : e.workerCount with
      | error reason =>
        refine .ended _ _ (.inr ?_) fun _ done h => by cases h
        rw [undisturbed_of_no_workers found.symm count]
        exact .failure reason
      | ok workers =>
        refine .integrating slopes workers (before + cancels trace) [] _ found.symm count
          (.rest _ trivial) ?_
        rw [cancels_pass]
        rfl

section Advanced

variable {before : Nat} {trace : List Happening}
variable (ht : e.token = issued.issue gen) (hplace : gen.place < issued.counts.size)
include ht

/-- The integration is over. -/
theorem Known.integrated {sooner : Nat} {moves : List Crew.Move} {s : Crew.State}
    {outcome : Crew.Outcome} (found : e.opened = .ok (some (.inr slopes)))
    (count : e.workerCount = .ok workers)
    (run : Crew.Run (e.crew slopes workers) (fun _ => True)
      ((e.crew slopes workers).start (issued.advanceBy gen sooner)) moves s)
    (total : sooner + Crew.cancels moves = before + cancels trace)
    (few : before + cancels trace < 2 ^ 64) (hp : s.phase = .returned outcome) :
    Known e issued gen before (trace ++ [.pass]) (e.afterIntegration s outcome) := by
  have fewer : sooner + Crew.cancels moves < 2 ^ 64 := total ▸ few
  cases outcome with
  | completed stats =>
    have whole := whole_of_run count ht run fewer hp
    have generations : s.generations
        = issued.advanceBy gen (before + cancels (trace ++ [.pass])) := by
      rw [cancels_pass, ← total]
      exact run.generations ht
    rw [afterIntegration, generations]
    refine .closing slopes workers ⟨s.tally, stats⟩ _ found count whole
      (.inr ⟨heeds_closing _ _, rfl⟩) fun quiet => ?_
    cases quiet
  | superseded =>
    have advanced := ne_zero_of_superseded ht run fewer hp
    refine .ended _ _ (.inl ⟨rfl, ?_⟩) fun _ done h => by cases h
    rwa [cancels_pass, ← total]
  | unmanned reason =>
    obtain ⟨positive, short⟩ := run.shortage hp
    refine .ended _ _ (.inr ?_) fun _ done h => by cases h
    rw [undisturbed_of_lacks found ⟨workers, count, positive, short⟩]
    exact .failure _
  | failed worker => exact absurd hp run.not_failed

include hplace

/-- A step of the closing. -/
theorem Known.closes {i : Integration} {rest rest' : Task Reconstruction} {looks : Bool}
    (few : before + cancels trace < 2 ^ 64) (found : e.opened = .ok (some (.inr slopes)))
    (count : e.workerCount = .ok workers) (whole : e.Whole slopes workers i)
    (heads : Heads (before + cancels trace) rest
      (Course.result (Reconstruction.closing e.request i)))
    (last : rest.IsQuiet → ∀ done, Course.result rest = .ok (some done) → LooksLast before trace)
    (hm : Course.Moves ((issued.advanceBy gen (before + cancels trace)).isStale e.token) rest looks
      rest') :
    Known e issued gen before (trace ++ [.own looks])
      (.closing (issued.advanceBy gen (before + cancels trace)) rest') := by
  have heads' := heads.moves ht hm
  have same : cancels (trace ++ [.own looks]) = cancels trace := cancels_own looks
  rw [← same] at heads' ⊢
  refine .closing slopes workers i rest' found count whole heads' fun quiet done result => ?_
  cases hm with
  | report event => exact (last (.report event quiet) done result).append (.inl rfl)
  | look rest =>
    cases stale : (issued.advanceBy gen (before + cancels trace)).isStale e.token with
    | true =>
      -- the closing has been given up, and nothing comes of it
      rcases heads with ⟨givenUp, _⟩ | ⟨heeds, _⟩
      · cases givenUp
      · cases heeds with
        | look gives =>
          rw [stale, gives] at result
          cases result
    | false => exact ⟨trace, [], rfl, eq_zero_of_calm ht hplace few stale, nofun⟩

/-- **Every step keeps what is known.** -/
theorem Known.step {w w' : Way} {h : Happening} (known : Known e issued gen before trace w)
    (hs : Step e w h w') (few : before + cancels (trace ++ [h]) < 2 ^ 64) :
    Known e issued gen before (trace ++ [h]) w' := by
  have place : e.token.generation = gen := by rw [ht]; rfl
  cases known with
  | opening rest heads =>
    cases hs with
    | inOpening _ _ rest' looks hm =>
      have heads' := heads.moves ht hm
      have same : cancels (trace ++ [.own looks]) = cancels trace := cancels_own looks
      rw [← same] at heads' ⊢
      exact .opening rest' heads'
    | opened _ outcome => exact .opened heads
    | cancelOpening =>
      rw [place, ← Generations.advanceBy_succ, ← cancels_cancel]
      refine .opening rest (heads.imp_left fun ⟨givenUp, _⟩ => ⟨givenUp, ?_⟩)
      rw [cancels_cancel]
      exact Nat.succ_ne_zero _
  | integrating slopes workers sooner moves s found count run total =>
    cases hs with
    | inCrew _ _ _ s' m hm =>
      refine .integrating slopes workers sooner (moves ++ [m]) s' found count
        (run.step hm trivial) ?_
      rw [cancels_crew, Crew.cancels_append]
      omega
    | integrated _ _ _ outcome hp =>
      rw [cancels_pass] at few
      exact .integrated ht found count run total few hp
  | closing slopes workers i rest found count whole heads last =>
    cases hs with
    | inClosing _ _ rest' looks hm =>
      rw [cancels_own] at few
      exact .closes ht hplace few found count whole heads last hm
    | closed _ outcome =>
      refine .ended _ outcome ?_ fun _ done h =>
        (last (.done outcome) done h).append (.inl rfl)
      rw [cancels_pass]
      rcases heads with ⟨givenUp, advanced⟩ | ⟨_, result⟩
      · cases givenUp
        exact .inl ⟨rfl, advanced⟩
      · refine .inr ?_
        have outcome_eq : outcome = Course.result (Reconstruction.closing e.request i) := result
        rw [outcome_eq]
        exact same_undisturbed found count whole
    | cancelClosing =>
      rw [place, ← Generations.advanceBy_succ, ← cancels_cancel]
      refine .closing slopes workers i rest found count whole
        (heads.imp_left fun ⟨givenUp, _⟩ => ⟨givenUp, ?_⟩)
        fun quiet done result => (last quiet done result).append (.inr rfl)
      rw [cancels_cancel]
      exact Nat.succ_ne_zero _
  | ended g outcome same last => cases hs

/-- **It holds after every run.** -/
theorem known_run {w : Way} (run : Run e (e.begin (issued.advanceBy gen before)) trace w)
    (few : before + cancels trace < 2 ^ 64) : Known e issued gen before trace w := by
  induction run with
  | rest => exact known_begin e issued gen before
  | @step w' w'' trace h run hs ih =>
    have fewer : cancels trace ≤ cancels (trace ++ [h]) :=
      (List.sublist_append_left _ _).countP_le
    exact (ih (by omega)).step ht hplace hs few

end Advanced

end Errand

end Relief
