import Relief.Proofs.Reconstruction.Suppression
import Relief.Proofs.Run.Watching
import Relief.Reconstructor

/-!
# Reconstructions that are withdrawn

Whoever advances the generation of a reconstruction can suppress its result, and do nothing else
to it.

* `Errand.CanEnd`, `Known.canEnd`: **every errand can go on until it ends**;
* `Reconstruction.follow_task`: **before a persistent observer a reconstruction returns nothing, or
  what it returns undisturbed**;
* `Errand.cancellation_only_suppresses`: **so does every errand**, and it returns a depth map only
  if nothing was advanced before its last look.
-/

namespace Relief

namespace Errand

open Reconstruction

variable {e : Errand} {slopes : Slopes} {workers : Nat} {issued : Generations} {gen : Generation}

/-! ## 1. Every errand can end -/

theorem Run.cons {w w' w'' : Way} {h : Happening} {trace : List Happening} (s : Step e w h w')
    (r : Run e w' trace w'') : Run e w (h :: trace) w'' := by
  induction r with
  | rest => exact .step (.rest w) s
  | step _ last ih => exact .step ih last

/-- The errand can go on until it ends, without a step from outside. -/
def CanEnd (e : Errand) (w : Way) : Prop :=
  ∃ later g ending, Run e w later (.ended g ending) ∧ cancels later = 0

theorem canEnd_ended (g : Generations) (ending : Ending) : CanEnd e (.ended g ending) :=
  ⟨[], g, ending, .rest _, rfl⟩

theorem CanEnd.after {w w' : Way} {h : Happening} (ends : CanEnd e w') (s : Step e w h w')
    (own : h.isCancel = false) : CanEnd e w := by
  obtain ⟨later, g, ending, run, calm⟩ := ends
  refine ⟨h :: later, g, ending, run.cons s, ?_⟩
  rw [cancels, List.countP_cons_of_neg (Bool.eq_false_iff.mp own)]
  exact calm

theorem canEnd_closing (g : Generations) (rest : Task Reconstruction) :
    CanEnd e (.closing g rest) := by
  induction rest with
  | done outcome => exact (canEnd_ended g _).after (.closed g outcome) rfl
  | report event rest ih => exact ih.after (.inClosing g _ rest false (.report event rest)) rfl
  | look rest ih => exact (ih _).after (.inClosing g _ _ true (.look rest)) rfl

theorem canEnd_integrating {moves : List Crew.Move} {s : Crew.State}
    (h : Crew.Inv (e.crew slopes workers) moves s) : CanEnd e (.integrating slopes workers s) := by
  refine h.until_return (motive := fun _ s => CanEnd e (.integrating slopes workers s)) ?_ ?_
  · intro _ s outcome hp
    refine CanEnd.after ?_ (.integrated slopes workers s outcome hp) rfl
    cases outcome with
    | completed stats => exact canEnd_closing _ _
    | superseded => exact canEnd_ended _ _
    | unmanned reason => exact canEnd_ended _ _
    | failed worker => exact canEnd_ended _ _
  · intro _ s m s' hs ha go
    refine go.after (.inCrew slopes workers s s' m hs) ?_
    cases m with
    | cancel => cases ha
    | _ => rfl

theorem canEnd_opening (g : Generations) (rest : Task (Reconstruction ⊕ Slopes)) :
    CanEnd e (.opening g rest) := by
  induction rest with
  | done outcome =>
    refine CanEnd.after ?_ (.opened g outcome) rfl
    rcases outcome with reason | _ | whole | slopes
    · exact canEnd_ended _ _
    · exact canEnd_ended _ _
    · exact canEnd_ended _ _
    · rw [afterOpening]
      cases e.workerCount with
      | error reason => exact canEnd_ended _ _
      | ok workers =>
        have begun : Crew.Run (e.crew slopes workers) (fun _ => True)
            ((e.crew slopes workers).start g) [] ((e.crew slopes workers).start g) :=
          .rest _ trivial
        exact canEnd_integrating (Crew.inv_run begun)
  | report event rest ih => exact ih.after (.inOpening g _ rest false (.report event rest)) rfl
  | look rest ih => exact (ih _).after (.inOpening g _ _ true (.look rest)) rfl

/-- **Every errand can go on until it ends.** -/
theorem Known.canEnd {before : Nat} {trace : List Happening} {w : Way}
    (known : Known e issued gen before trace w) : CanEnd e w := by
  cases known with
  | opening rest => exact canEnd_opening _ rest
  | integrating _ _ _ _ s _ _ run => exact canEnd_integrating (Crew.inv_run run)
  | closing _ _ _ rest => exact canEnd_closing _ rest
  | ended g outcome => exact canEnd_ended g _

end Errand

/-! ## 2. Reconstructions before an observer -/

namespace Reconstruction

variable {σ : Type} {o : Course.Observer σ}

/-- An integration is superseded, or has its undisturbed result, or it is withdrawn in the end and
    comes to some result. -/
theorem follow_integrating (ho : o.Persists) (r : Request) (processors : Processors)
    (slopes : Slopes) (s : σ) :
    let followed := Course.follow o (integrating r processors slopes) s
    followed.1 = Course.result (integrating r processors slopes) ∨
      o.answer followed.2 = true ∧ ∀ reason, followed.1 ≠ .error reason := by
  intro followed
  cases count : Integration.workerCount r.options.threading processors.count
      (sweepOf r).length with
  | error reason =>
    refine .inl ?_
    show (Course.follow o (integrating r processors slopes) s).1 = _
    unfold integrating Integration.task Integration.conduct
    rw [count]
    rfl
  | ok workers =>
    cases superseded : o.answer followed.2 with
    | false => exact .inl (ho.follow_calm _ superseded)
    | true =>
      rcases Integration.follow_task ho slopes (sweepOf r) (launchOf r)
          (Integration.threads_ne_of_workerCount count) processors s with
        ⟨gaveUp, _⟩ | ⟨reason, failed, lacks⟩ | ⟨i, completed, _⟩
      · exact .inr ⟨rfl, fun reason failed => by cases gaveUp.symm.trans failed⟩
      · exact .inl (failed.trans (Integration.result_task_of_lacks slopes _ _ lacks).symm)
      · exact .inr ⟨rfl, fun reason failed => by cases completed.symm.trans failed⟩

/-- **Before an observer who does not take a withdrawal back, a reconstruction returns nothing, or
    what it returns undisturbed.** -/
theorem follow_task (ho : o.Persists) (r : Request) (generation : UInt64)
    (processors : Processors) (s : σ) :
    (Course.follow o (task r generation processors) s).1 = .ok none ∨
      (Course.follow o (task r generation processors) s).1
        = Course.result (task r generation processors) := by
  rw [task_eq, Task.follow_bind, Task.result_bind]
  generalize (Course.follow o (opening r generation) s).2 = s₁
  rcases (heeds_opening r generation).follow o s with gaveUp | opened
  · rw [gaveUp]
    exact .inl rfl
  rw [opened]
  rcases Course.result (opening r generation) with reason | _ | whole | slopes
  · exact .inr rfl
  · exact .inl rfl
  · exact .inr rfl
  show (Course.follow o (Task.bind (integrating r processors slopes) (closing r)) s₁).1 = _ ∨
    (Course.follow o (Task.bind (integrating r processors slopes) (closing r)) s₁).1
      = Course.result (Task.bind (integrating r processors slopes) (closing r))
  rw [Task.follow_bind, Task.result_bind]
  rcases follow_integrating ho r processors slopes s₁ with same | ⟨superseded, sound⟩
  · rw [same]
    rcases Course.result (integrating r processors slopes) with reason | _ | i
    · exact .inr rfl
    · exact .inl rfl
    · exact (heeds_closing r i).follow o _
  · -- the closing begins with a look
    refine .inl ?_
    generalize (Course.follow o (integrating r processors slopes) s₁).1 = outcome at sound
    rcases outcome with reason | _ | i
    · exact absurd rfl (sound reason)
    · rfl
    · exact congrArg Prod.fst (Task.follow_goOn_superseded _ superseded)

end Reconstruction

namespace Errand

open Reconstruction

/-! ## 3. Cancellation -/

/-- **Whoever advances the generation of a reconstruction can suppress its result, and do nothing
    else to it.** The generation may be advanced at any moment, before the errand begins and between
    any two of its steps, as long as it is fewer than `2 ^ 64` times since the issue of the token.
    Every errand can end, and one that has ended has returned nothing, or the same as undisturbed:
    the same failure, or the same depth map with the same counters. It has returned nothing only if
    the generation was advanced, and has made a depth map of a map with pixels only if it was not
    advanced before the last look. A reconstructor, where no two workers are at work at a time, keeps
    to it as well. -/
theorem cancellation_only_suppresses (request : Request) (processors : Processors) :
    (∀ (issued : Generations) (gen : Generation) (before : Nat) (trace : List Happening) (w : Way),
      gen.place < issued.counts.size →
      let e : Errand := { request, token := issued.issue gen, processors }
      Run e (e.begin (issued.advanceBy gen before)) trace w → before + cancels trace < 2 ^ 64 →
        e.undisturbed ≠ .ok none ∧ CanEnd e w ∧
        ∀ g ending, w = .ended g ending → ∃ outcome, ending = .returned outcome ∧
          (outcome = .ok none ∨ Same outcome e.undisturbed) ∧
          (before + cancels trace = 0 → Same outcome e.undisturbed) ∧
          (request.map.isEmpty = false → ∀ done, outcome = .ok (some done) →
            LooksLast before trace)) ∧
    ∀ (r : Reconstructor) (t : Token), r.processors = processors → r.watch.StandsBy t →
      (r.run t request).1 = .ok none ∨
      (r.run t request).1 = undisturbed { request, token := t, processors } := by
  refine ⟨?_, ?_⟩
  · intro issued gen before trace w place e run few
    have known := known_run rfl place run few
    refine ⟨e.undisturbed_ne_none, known.canEnd, ?_⟩
    rintro g ending rfl
    cases known with
    | ended _ outcome same last =>
      refine ⟨outcome, rfl, same.imp_left And.left, fun calm => ?_, last⟩
      exact same.resolve_left fun advanced => advanced.2 calm
  · rintro r t rfl steady
    have followed : (r.run t request).1
        = (Course.follow (Watch.steady t) (task request t.captured r.processors)
            ⟨r.watch, steady⟩).1 :=
      congrArg Prod.fst (Watch.run_eq_steady steady (task request t.captured r.processors))
    rw [followed]
    exact follow_task (Watch.steady_persists t) request t.captured r.processors _

/-- A map of one pixel, to be reconstructed under the first token of a generation. -/
def pebble : Errand where
  request := { map := ⟨⟨1, 1⟩, #[⟨128, 128, 255, 255⟩], rfl⟩ }
  token := ⟨⟨0⟩, 0⟩
  processors := 4

/-- Where the generation is advanced after its first step, it can still end, and returns no depth
    map. A reconstructor whom nobody disturbs keeps to what was said, too. -/
theorem pebble_is_suppressed :
    (∃ later g outcome, Run pebble (pebble.begin ⟨#[0]⟩) (.pass :: .cancel :: later)
        (.ended g (.returned outcome)) ∧ ∀ done, outcome ≠ .ok (some done)) ∧
    (Reconstructor.new 4).watch.StandsBy pebble.token ∧
    (((Reconstructor.new 4).run pebble.token pebble.request).1 = .ok none ∨
      ((Reconstructor.new 4).run pebble.token pebble.request).1 = pebble.undisturbed) := by
  obtain ⟨runs, calls⟩ := cancellation_only_suppresses pebble.request 4
  have steady : (Reconstructor.new 4).watch.StandsBy pebble.token := .inl rfl
  refine ⟨?_, steady, calls (Reconstructor.new 4) pebble.token rfl steady⟩
  -- the first step reports that the reconstruction begins
  obtain ⟨rest, begins⟩ : ∃ rest, Step pebble (pebble.begin ⟨#[0]⟩) .pass (.opening ⟨#[0]⟩ rest) :=
    ⟨_, .inOpening ⟨#[0]⟩ _ _ false (.report _ _)⟩
  have advances := Step.cancelOpening (e := pebble) ⟨#[0]⟩ rest
  have begun := ((Run.rest _).step begins).step advances
  obtain ⟨_, ⟨later, g, ending, run, calm⟩, _⟩ :=
    runs ⟨#[0]⟩ ⟨0⟩ 0 _ _ (by decide) begun (by decide)
  have whole := (run.cons advances).cons begins
  have once (trace : List Happening) : cancels (.pass :: .cancel :: trace) = cancels trace + 1 :=
    List.countP_cons_of_pos (p := Happening.isCancel) (a := .cancel) rfl
  have few : 0 + cancels (.pass :: .cancel :: later) < 2 ^ 64 := by
    rw [once, calm]
    decide
  obtain ⟨_, _, returned⟩ := runs ⟨#[0]⟩ ⟨0⟩ 0 _ _ (by decide) whole few
  obtain ⟨outcome, rfl, _, _, last⟩ := returned g ending rfl
  refine ⟨later, g, outcome, whole, fun done depth => ?_⟩
  -- the look would have to come before the advance
  obtain ⟨sooner, after, trace, fresh, quiet⟩ := last rfl done depth
  rcases sooner with _ | ⟨first, _ | ⟨second, sooner⟩⟩
  · cases trace
  · cases trace
  · obtain ⟨rfl, rfl, rfl⟩ : .pass = first ∧ .cancel = second ∧ later = sooner ++ .look :: after := by
      simpa using trace
    have counted := once sooner
    omega

end Errand

end Relief
