import Relief.Reconstruction
import Relief.Run.Watch

/-!
# Reconstructors

A reconstructor runs reconstructions under one generation. Whoever advances the generation withdraws
all of them.

* `Reconstructor.run`: runs a request under a token;
* `Reconstructor.submit`: starts a job under a token. The job delivers a depth map or a failure,
  once; if it has been superseded, it delivers nothing. Where the machine has no thread for it, it
  delivers that failure.
-/

namespace Relief

/-- What has been submitted, with what it has not delivered yet. -/
structure Job where
  pending : Option (Except Failure Image)

/-- What a job delivers, and the job after that. -/
def Job.take (j : Job) : Option (Except Failure Image) × Job :=
  (j.pending, ⟨none⟩)

/-- A generation, the watch that it is kept in, and the processors of the machine. -/
structure Reconstructor where
  watch : Watch
  generation : Generation
  processors : Processors

namespace Reconstructor

/-- A reconstructor that has not run anything. -/
def new (processors : Processors) : Reconstructor :=
  let (generations, generation) := Generations.empty.new
  { watch := { Watch.new with generations }, generation, processors }

/-- A token of the generation. -/
def issue (r : Reconstructor) : Token :=
  r.watch.generations.issue r.generation

/-- The count of the generation. -/
def current (r : Reconstructor) : UInt64 :=
  r.watch.generations.current r.generation

/-- Withdraws all work. -/
def withdraw (r : Reconstructor) : Reconstructor :=
  { r with watch := r.watch.advance r.generation }

/-- Withdraws all work when a milestone is met for the next time. -/
def arm (r : Reconstructor) (m : Milestone) : Reconstructor :=
  { r with watch := r.watch.arm m r.generation }

/-- Waits for no milestone any more. -/
def disarm (r : Reconstructor) : Reconstructor :=
  { r with watch := r.watch.disarm }

/-- Runs a request under a token. -/
def run (r : Reconstructor) (t : Token) (request : Request) :
    Except Failure (Option Reconstruction) × Reconstructor :=
  let (outcome, watch) := r.watch.run t (Reconstruction.task request t.captured r.processors)
  (outcome, { r with watch })

/-- Starts a job under a token, and lets it come to its end. -/
def submit (r : Reconstructor) (t : Token) (request : Request) : Job × Reconstructor :=
  if r.processors.takeJobs then
    match r.run t request with
    | (.error f, r) => (⟨some (.error f)⟩, r)
    | (.ok (some done), r) => (⟨some (.ok done.depth)⟩, r)
    | (.ok none, r) => (⟨none⟩, { r with watch := r.watch.enter (.jobSuperseded t.captured) })
  else (⟨some (.error .noJobThread)⟩, r)

end Reconstructor

end Relief
