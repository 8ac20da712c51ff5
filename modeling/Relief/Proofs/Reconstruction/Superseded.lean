import Relief.Proofs.Run.Watching
import Relief.Reconstructor

/-!
# Reconstructions that have been superseded before they begin

A reconstruction looks at its mask before it looks at its token. So work that has been superseded
before it begins gives up, except that it refuses a mask of another extent.

* `Request.refusal?`: the failure of a mask that does not fit;
* `Reconstruction.follow_superseded`: **superseded work comes to its refusal, or to nothing**;
* `Reconstructor.superseded_delivers_refusal_only`: **so does a job, which delivers nothing but
  that**, and not more than once.
-/

namespace Relief

/-- The failure that a mask of another extent than the map is refused with. -/
def Request.refusal? (r : Request) : Option Failure :=
  r.misfit?.map fun mask => .maskExtent mask.toExtent r.map.toExtent

/-- What comes of a request that has been superseded before it begins. -/
def Request.refused (r : Request) : Except Failure (Option Reconstruction) :=
  match r.refusal? with
  | some reason => .error reason
  | none => .ok none

namespace Reconstruction

/-- **Superseded work comes to its refusal, or to nothing**, whatever the map, the mask and the
    options are. -/
theorem follow_superseded {σ : Type} {o : Course.Observer σ} (ho : o.Persists) (r : Request)
    (generation : UInt64) (processors : Processors) {s : σ} (hs : o.answer s = true) :
    (Course.follow o (task r generation processors) s).1 = r.refused := by
  have still := ho s (.reconstructionBegins r.map.toExtent generation) hs
  rw [task, Task.follow_tell_bind]
  unfold Request.refused Request.refusal?
  cases r.misfit? with
  | some mask => rfl
  | none => exact congrArg Prod.fst (Task.follow_goOn_superseded _ still)

end Reconstruction

/-! ## Jobs -/

/-- A job after so many attempts to take from it. -/
def Job.afterTakes (j : Job) : Nat → Job
  | 0 => j
  | n + 1 => (j.afterTakes n).take.2

/-- A job delivers once at most. -/
theorem Job.take_afterTakes (j : Job) (n : Nat) :
    (j.afterTakes n).take.1 = if n = 0 then j.pending else none := by
  cases n <;> rfl

namespace Reconstructor

/-- What a job delivers is the depth map or the failure of its run, or the failure that there is no
    thread for it. -/
theorem pending_submit (r : Reconstructor) (t : Token) (request : Request) :
    (r.submit t request).1.pending =
      if r.processors.takeJobs then
        match (r.run t request).1 with
        | .error reason => some (.error reason)
        | .ok (some done) => some (.ok done.depth)
        | .ok none => none
      else some (.error .noJobThread) := by
  unfold submit
  cases r.processors.takeJobs with
  | false => rfl
  | true => rcases r.run t request with ⟨reason | _ | done, r'⟩ <;> rfl

/-- **A job that has been superseded before it starts delivers nothing but the refusal of its
    mask.** Its run returns this failure, or nothing where the mask fits; and if the machine has a
    thread for the job, the handle yields the same failure at the first attempt, and nothing ever
    after. -/
theorem superseded_delivers_refusal_only (r : Reconstructor) (t : Token) (request : Request)
    (stale : r.watch.generations.isStale t = true) (steady : r.watch.StandsBy t) :
    (r.run t request).1 = request.refused ∧
    (r.processors.takeJobs = true → ∀ n, ((r.submit t request).1.afterTakes n).take.1
      = if n = 0 then request.refusal?.map .error else none) := by
  have refused : (r.run t request).1 = request.refused :=
    (congrArg Prod.fst (Watch.run_eq_steady steady _)).trans
      (Reconstruction.follow_superseded (Watch.steady_persists t) request t.captured r.processors
        stale)
  refine ⟨refused, fun starts n => ?_⟩
  rw [Job.take_afterTakes, pending_submit, if_pos starts, refused, Request.refused]
  cases request.refusal? <;> rfl

/-- Two pixels of a normal map. -/
def strip : Image :=
  ⟨⟨2, 1⟩, #[⟨128, 128, 255, 255⟩, ⟨128, 128, 255, 255⟩], rfl⟩

/-- A mask of one pixel. -/
def speck : Image :=
  ⟨⟨1, 1⟩, #[⟨255, 255, 255, 255⟩], rfl⟩

/-- Two pixels with a mask for one of them. -/
def narrow : Request where
  map := strip
  mask := some speck

/-- A reconstructor all of whose work has been withdrawn. -/
def withdrawn : Reconstructor :=
  (Reconstructor.new 4).withdraw

/-- With the mask left out, its first token yields nothing. -/
theorem strip_delivers_nothing :
    withdrawn.watch.generations.isStale ((Reconstructor.new 4).issue) = true ∧
    withdrawn.watch.StandsBy ((Reconstructor.new 4).issue) ∧
    ∀ n, ((withdrawn.submit (Reconstructor.new 4).issue { map := strip }).1.afterTakes n).take.1
      = none := by
  have stale : withdrawn.watch.generations.isStale ((Reconstructor.new 4).issue) = true := by
    decide +kernel
  have steady : withdrawn.watch.StandsBy ((Reconstructor.new 4).issue) := .inl rfl
  refine ⟨stale, steady, fun n => ?_⟩
  rw [(superseded_delivers_refusal_only withdrawn _ { map := strip } stale steady).2 rfl n]
  exact ite_self none

/-- With the mask, the same token yields a failure, from the run and from the job. -/
theorem narrow_delivers_refusal :
    withdrawn.watch.generations.isStale ((Reconstructor.new 4).issue) = true ∧
    (withdrawn.run (Reconstructor.new 4).issue narrow).1 = .error (.maskExtent ⟨1, 1⟩ ⟨2, 1⟩) ∧
    (withdrawn.submit (Reconstructor.new 4).issue narrow).1.take.1
      = some (.error (.maskExtent ⟨1, 1⟩ ⟨2, 1⟩)) :=
  ⟨by decide +kernel, rfl, rfl⟩

end Reconstructor

end Relief
