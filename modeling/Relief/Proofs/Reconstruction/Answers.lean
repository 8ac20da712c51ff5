import Relief.Proofs.Depth.Masks
import Relief.Proofs.Reconstruction.Withdrawal

/-!
# What requests are answered with

Between the map and the depth map lie four stages, each of which can refuse what it is given. Behind
the two checks that a request has to pass, none of them does. What else can go wrong is up to the
machine, which may be short of threads for the workers.

* `Request.IsRefused`: what is wrong with a request that is refused;
* `Request.Lacks`: the machine does not start the threads of its workers;
* `Request.IsMetBy`: what a reconstruction has to be for the request;
* `Request.Settles`: a refusal of the first, a failure where threads are lacking, and a
  reconstruction for all the rest;
* `Errand.undisturbed_settles`: **an undisturbed errand settles its request**;
* `Request.ComesTo`: the outcome of every errand, and of every reconstructor, while its token stays
  current;
* `every_request_is_settled`: **this outcome settles the request**, on every machine.
-/

namespace Relief

/-! ## 1. Answers -/

namespace Request

/-- A mask does not have the extent of the map, or nobody is to integrate a map that has pixels. -/
inductive IsRefused (r : Request) : Prop
  | misfit (mask : Image) (given : r.mask = some mask) (h : mask.toExtent ≠ r.map.toExtent)
  | nobody (h : r.map.isEmpty = false) (asked : r.options.threading.threads = some 0)

/-- **What a reconstruction is for a request**: a depth map of the extent of the normal map. If
    there are pixels, all headings of the sweep have been integrated, by no more workers than there
    are headings. -/
structure IsMetBy (r : Request) (done : Reconstruction) : Prop where
  extent : done.depth.toExtent = r.map.toExtent
  planned : r.map.isEmpty = false →
    done.stats.planned = (Sweep.plan r.map.toExtent r.options.quality).length
  integrated : r.map.isEmpty = false → done.stats.integrated = done.stats.planned
  workers : r.map.isEmpty = false → done.stats.workers ≤ done.stats.planned

/-- A request has pixels, and the machine does not start the threads of the workers for them. -/
structure Lacks (r : Request) (processors : Processors) (reason : String) : Prop where
  pixels : r.map.isEmpty = false
  threads : Integration.Lacks r.options.threading processors
    (Reconstruction.sweepOf r).length reason

/-- **An outcome settles a request on a machine.** It is a failure of validation if and only if the
    request is refused. Otherwise it is a reconstruction for the request, unless the machine does not
    start the threads of the workers: then it is this failure. -/
structure Settles (r : Request) (processors : Processors)
    (outcome : Except Failure (Option Reconstruction)) : Prop where
  refused : (∃ reason, outcome = .error reason ∧ reason.category = .validation) ↔ r.IsRefused
  unmanned : ¬ r.IsRefused → ∀ reason, r.Lacks processors reason →
    outcome = .error (.noWorkerThreads reason)
  met : ¬ r.IsRefused → (∀ reason, ¬ r.Lacks processors reason) →
    ∃ done, outcome = .ok (some done) ∧ r.IsMetBy done

variable {r : Request} {processors : Processors}

theorem not_lacks_plenty (r : Request) (count : Nat) (reason : String) :
    ¬ r.Lacks (.plenty count) reason := fun lacks =>
  Integration.not_lacks_plenty _ count _ reason lacks.threads

theorem Settles.of_refused (h : r.IsRefused) {reason : Failure}
    (category : reason.category = .validation) : r.Settles processors (.error reason) :=
  ⟨iff_of_true ⟨reason, rfl, category⟩ h, fun sound => absurd h sound, fun sound => absurd h sound⟩

theorem Settles.of_lacks (h : ¬ r.IsRefused) {reason : String}
    (lacks : r.Lacks processors reason) :
    r.Settles processors (.error (.noWorkerThreads reason)) := by
  refine ⟨iff_of_false ?_ h, fun _ other lacks' => ?_, fun _ manned => absurd lacks (manned reason)⟩
  · rintro ⟨_, same, category⟩
    cases same
    cases category
  · rw [lacks.threads.unique lacks'.threads]

theorem Settles.of_met (h : ¬ r.IsRefused) (manned : ∀ reason, ¬ r.Lacks processors reason)
    {done : Reconstruction} (met : r.IsMetBy done) : r.Settles processors (.ok (some done)) := by
  refine ⟨iff_of_false ?_ h, fun _ reason lacks => absurd lacks (manned reason), fun _ _ => ?_⟩
  · rintro ⟨_, same, _⟩
    cases same
  · exact ⟨done, rfl, met⟩

/-- Whether a reconstruction meets a request can be told from its depth map and its counters. -/
theorem IsMetBy.of_alike {a b : Reconstruction} (alike : a.Alike b) (h : r.IsMetBy b) :
    r.IsMetBy a := by
  obtain ⟨depth, planned, integrated, workers, _⟩ := alike
  constructor
  · rw [depth]
    exact h.extent
  · rw [planned]
    exact h.planned
  · rw [integrated, planned]
    exact h.integrated
  · rw [workers, planned]
    exact h.workers

/-- What is the same as an outcome that settles a request, settles it. -/
theorem Settles.of_same {a b : Except Failure (Option Reconstruction)}
    (same : Reconstruction.Same a b) (h : r.Settles processors b) : r.Settles processors a := by
  cases same with
  | failure reason => exact h
  | nothing => exact h
  | reconstruction alike =>
    have sound : ¬ r.IsRefused := by
      intro refused
      obtain ⟨reason, failed, _⟩ := h.refused.mpr refused
      cases failed
    have manned (reason : String) : ¬ r.Lacks processors reason := by
      intro lacks
      cases h.unmanned sound reason lacks
    obtain ⟨done, same, met⟩ := h.met sound manned
    cases same
    exact .of_met sound manned (met.of_alike alike)

/-- The mask that a request is refused for. -/
theorem misfit?_eq_some_iff {mask : Image} :
    r.misfit? = some mask ↔ r.mask = some mask ∧ mask.toExtent ≠ r.map.toExtent := by
  rw [misfit?, Option.filter_eq_some_iff, decide_eq_true_eq]

/-- Otherwise the mask that is used has the extent of the map. -/
theorem extent_mask (h : r.misfit? = none) :
    (r.mask.getD r.map).toExtent = r.map.toExtent := by
  cases given : r.mask with
  | none => rfl
  | some mask =>
    by_contra other
    have misfit := misfit?_eq_some_iff.mpr ⟨given, other⟩
    rw [h] at misfit
    cases misfit

theorem not_isRefused (fits : r.misfit? = none)
    (asked : r.map.isEmpty = false → r.options.threading.threads ≠ some 0) : ¬ r.IsRefused := by
  rintro (⟨mask, given, other⟩ | ⟨pixels, nobody⟩)
  · have misfit := misfit?_eq_some_iff.mpr ⟨given, other⟩
    rw [fits] at misfit
    cases misfit
  · exact asked pixels nobody

end Request

/-! ## 2. Undisturbed errands -/

namespace Errand

open Reconstruction

variable {e : Errand}

/-- An errand whose mask does not fit fails before anything else is done. -/
theorem undisturbed_of_misfit {mask : Image} (h : e.request.misfit? = some mask) :
    e.undisturbed = .error (.maskExtent mask.toExtent e.request.map.toExtent) := by
  refine undisturbed_of_error ?_
  rw [opened, result_opening, h]

/-- A map without pixels is reconstructed as it is. -/
theorem undisturbed_of_isEmpty (fits : e.request.misfit? = none)
    (h : e.request.map.isEmpty = true) :
    e.undisturbed = .ok (some (ofEmpty e.request.map.toExtent)) := by
  refine undisturbed_of_empty ?_
  rw [opened, result_opening, fits]
  exact if_pos h

/-- **The slopes of a map that memory can hold are always found**, and have its extent. -/
theorem opened_of_pixels (fits : e.request.misfit? = none) (h : e.request.map.isEmpty = false)
    (hh : e.request.map.toExtent.isHoldable = true) :
    ∃ slopes, e.opened = .ok (some (.inr slopes)) ∧
      slopes.extent = e.request.map.toExtent := by
  obtain ⟨slopes, taken, extent, _⟩ :=
    Extraction.slopes_pixels hh e.request.options.convention
  refine ⟨slopes, ?_, extent⟩
  rw [opened, result_opening, fits, taken]
  exact if_neg (by rw [h]; exact Bool.false_ne_true)

/-- **An integration that is whole is closed with a reconstruction for the request.** -/
theorem closing_of_whole {slopes : Slopes} {workers : Nat} {i : Integration}
    (fits : e.request.misfit? = none) (hh : e.request.map.toExtent.isHoldable = true)
    (extent : slopes.extent = e.request.map.toExtent) (count : e.workerCount = .ok workers)
    (whole : e.Whole slopes workers i) :
    ∃ done, Course.result (closing e.request i) = .ok (some done) ∧ e.request.IsMetBy done := by
  have size : (Levels.image i.tally).toExtent = (e.request.mask.getD e.request.map).toExtent :=
    whole.tally.extent.trans (extent.trans (Request.extent_mask fits).symm)
  have holdable : (e.request.mask.getD e.request.map).toExtent.isHoldable = true := by
    rwa [Request.extent_mask fits]
  obtain ⟨depth, finished, same⟩ := e.request.options.finish.exists_image size holdable
  refine ⟨⟨depth, i.stats⟩, ?_, ?_⟩
  · rw [result_closing, finished]
    rfl
  · refine ⟨same.trans (Request.extent_mask fits), fun _ => whole.planned,
      fun _ => whole.integrated.trans whole.planned.symm, fun _ => ?_⟩
    show i.stats.workers ≤ i.stats.planned
    rw [whole.workers, whole.planned]
    exact Integration.workerCount_le count

/-- **An errand that nobody disturbs settles its request**, if memory can hold the map. -/
theorem undisturbed_settles (e : Errand) (hh : e.request.map.toExtent.isHoldable = true) :
    e.request.Settles e.processors e.undisturbed := by
  cases fits : e.request.misfit? with
  | some mask =>
    obtain ⟨given, other⟩ := Request.misfit?_eq_some_iff.mp fits
    rw [undisturbed_of_misfit fits]
    exact .of_refused (.misfit mask given other) rfl
  | none =>
    cases pixels : e.request.map.isEmpty with
    | true =>
      have sound : ¬ e.request.IsRefused :=
        Request.not_isRefused fits fun h => by rw [pixels] at h; cases h
      have manned (reason : String) : ¬ e.request.Lacks e.processors reason := fun lacks => by
        rw [lacks.pixels] at pixels
        cases pixels
      rw [undisturbed_of_isEmpty fits pixels]
      refine .of_met sound manned ⟨rfl, ?_, ?_, ?_⟩ <;> (rw [pixels]; exact nofun)
    | false =>
      obtain ⟨slopes, found, extent⟩ := opened_of_pixels fits pixels hh
      by_cases asked : e.request.options.threading.threads = some 0
      · have count : e.workerCount = .error .noWorkers := by
          rw [workerCount, Integration.workerCount, asked]
          rfl
        rw [undisturbed_of_no_workers found count]
        exact .of_refused (.nobody pixels asked) rfl
      have sound : ¬ e.request.IsRefused := Request.not_isRefused fits fun _ => asked
      by_cases lacks : ∃ reason, e.Lacks reason
      · obtain ⟨reason, lacks⟩ := lacks
        rw [undisturbed_of_lacks found lacks]
        exact .of_lacks sound ⟨pixels, lacks⟩
      · obtain ⟨workers, count, _⟩ := Integration.exists_workerCount asked e.processors.count
          (sweepOf e.request).length
        have manned := not_exists.mp lacks
        obtain ⟨i, result, whole⟩ := whole_of_task slopes count manned
        obtain ⟨done, closed, met⟩ := closing_of_whole fits hh extent count whole
        rw [undisturbed_of_slopes found, Task.result_bind, result]
        show e.request.Settles e.processors (Course.result (closing e.request i))
        rw [closed]
        exact .of_met sound (fun reason lacks => manned reason lacks.threads) met

end Errand

/-! ## 3. Tokens that stay current -/

/-- A reconstructor that waits for no milestone advances nothing. -/
theorem Reconstructor.generations_run {r : Reconstructor} (h : r.watch.armed = none) (t : Token)
    (request : Request) : (r.run t request).2.watch.generations = r.watch.generations :=
  Watch.generations_run h (Reconstruction.task request t.captured r.processors)

/-- **What comes of a request on a machine, as long as the token stays current.** Every errand with it
    that nobody advances the generation of can go on until it ends, in whatever order its workers take
    their steps, and has come to such an outcome when it has ended. So has every run of a
    reconstructor after which the token is still current. -/
def Request.ComesTo (request : Request) (processors : Processors)
    (wanted : Except Failure (Option Reconstruction) → Prop) : Prop :=
  (∀ (issued : Generations) (gen : Generation) (trace : List Errand.Happening) (w : Errand.Way),
    gen.place < issued.counts.size →
    let e : Errand := { request, token := issued.issue gen, processors }
    Errand.Run e (e.begin issued) trace w → Errand.cancels trace = 0 →
      Errand.CanEnd e w ∧ ∀ g ending, w = .ended g ending →
        ∃ outcome, ending = .returned outcome ∧ wanted outcome) ∧
  ∀ (r : Reconstructor) (t : Token), r.processors = processors → r.watch.StandsBy t →
    (r.run t request).2.watch.generations.isStale t = false → wanted (r.run t request).1

namespace Errand

open Reconstruction

/-- **It is enough to know what comes of it where nobody withdraws anything.** -/
theorem comesTo_of_undisturbed {request : Request} {processors : Processors}
    {wanted : Except Failure (Option Reconstruction) → Prop}
    (alike : ∀ a b, Same a b → wanted b → wanted a)
    (h : ∀ token, wanted (undisturbed { request, token, processors })) :
    request.ComesTo processors wanted := by
  constructor
  · intro issued gen trace w place e run calm
    have known : Known e issued gen 0 trace w := known_run rfl place run (by rw [calm]; decide)
    refine ⟨known.canEnd, ?_⟩
    rintro g ending rfl
    cases known with
    | ended _ outcome same =>
      have undisturbed : Same outcome e.undisturbed :=
        same.resolve_left fun advanced => advanced.2 (by rw [calm])
      exact ⟨outcome, rfl, alike _ _ undisturbed (h e.token)⟩
  · rintro r t rfl steady current
    have same := Watch.run_eq_steady steady (task request t.captured r.processors)
    have kept : (r.run t request).2.watch = (Course.follow (Watch.steady t)
        (task request t.captured r.processors) ⟨r.watch, steady⟩).2.1 := congrArg Prod.snd same
    rw [kept] at current
    have returned : (r.run t request).1
        = undisturbed { request, token := t, processors := r.processors } :=
      (congrArg Prod.fst same).trans ((Watch.steady_persists t).follow_calm _ current)
    rw [returned]
    exact h t

/-- A machine that has four processors, and no thread to spare. -/
def busy : Processors where
  count := 4
  shortage? _ := some "out of threads"

end Errand

end Relief
