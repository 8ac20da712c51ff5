import Relief.Depth.Ray
import Relief.Depth.Sweep
import Relief.Run.Task

/-!
# Integration

Integration marches the rays of all headings of a sweep into one tally. The headings are dealt out
to workers. A coordinator counts what they finish and looks, each time it hears from one, whether
the work is still wanted; each worker looks before every ray. If any of these looks finds the work
superseded, or the one after the last worker has finished, there is no result. If the machine does
not start the threads of the workers, integration fails before it has dealt out anything.

* `Integration.marchHeading`: the rays of one heading, as long as they are wanted;
* `Integration.inOrder`: headings one after the other, into a tally at hand;
* `Integration.task`: the coordinator and its workers.

Adding visits to a tally commutes, so the task below runs the workers one after the other.
-/

namespace Relief

/-- A tally to which all headings of a sweep have contributed. -/
structure Integration where
  tally : Tally
  stats : Stats

namespace Integration

/-! ## 1. One heading -/

/-- How marching ended. -/
inductive Ending where
  /-- Every ray was marched. -/
  | complete
  /-- It was found to be superseded. -/
  | withdrawn
  /-- A ray visited a pixel that the tally does not have. -/
  | strayed
  deriving DecidableEq, Repr

/-- Marches the rays from some launch points, with a look before each of them. -/
def marchRays (slopes : Slopes) (launch : Launch) (step : Point) :
    List Point → Tally → Course (Tally × Ending)
  | [], tally => .done (tally, .complete)
  | start :: rest, tally =>
    .look fun superseded =>
      if superseded then .done (tally, .withdrawn)
      else if launch.reaches start step then
        match tally.absorb (Ray.visits slopes launch step start) with
        | (tally, true) => marchRays slopes launch step rest tally
        | (tally, false) => .done (tally, .strayed)
      else marchRays slopes launch step rest tally

/-- Marches the rays of a heading. A ray comes from where the heading points to, so it walks the
    other way. -/
def marchHeading (slopes : Slopes) (launch : Launch) (heading : Heading) (tally : Tally) :
    Course (Tally × Ending) :=
  marchRays slopes launch heading.opposite.step launch.points tally

/-- Marches headings one after the other, to the first that does not end well. Answers how many
    were completed, and how the last one ended. -/
def inOrder (slopes : Slopes) (launch : Launch) :
    List Heading → Tally → Course (Tally × Nat × Ending)
  | [], tally => .done (tally, 0, .complete)
  | heading :: rest, tally =>
    (marchHeading slopes launch heading tally).bind fun
      | (tally, .complete) =>
        (inOrder slopes launch rest tally).bind fun (tally, completed, ending) =>
          .done (tally, completed + 1, ending)
      | (tally, ending) => .done (tally, 0, ending)

/-! ## 2. Workers -/

/-- How many workers there are: as many as asked for, or all but one of the processors, and no more
    than there are headings. -/
def workerCount (threading : Threading) (processors headings : Nat) : Except Failure Nat :=
  match threading.threads with
  | none => .ok (min (max (processors - 1) 1) headings)
  | some threads => if threads = 0 then .error .noWorkers else .ok (min threads.toNat headings)

/-- What the coordinator knows. -/
structure Progress where
  tally : Tally
  /-- The headings that workers have completed. -/
  integrated : Nat
  /-- Whether the workers have been told to stop. -/
  aborted : Bool

namespace Progress

/-- No worker has done anything. -/
def start (e : Extent) : Progress where
  tally := .new e
  integrated := 0
  aborted := false

/-- The coordinator looks up, and tells the workers to stop if the work is superseded. -/
def lookUp (p : Progress) : Course Progress :=
  if p.aborted then .done p
  else
    .look fun superseded =>
      if superseded then .report .integrationSuperseded (.done { p with aborted := true })
      else .done p

end Progress

/-- The work of one worker, who has completed some headings: it stops before a ray when it is told
    to, and tells the coordinator of each heading that it has completed. -/
def work (slopes : Slopes) (launch : Launch) :
    List Heading → (completed : Nat) → Progress → Course (Nat × Progress)
  | [], completed, p => .done (completed, p)
  | heading :: rest, completed, ⟨tally, integrated, aborted⟩ =>
    if aborted && !launch.points.isEmpty then .done (completed, ⟨tally, integrated, aborted⟩)
    else
      (marchHeading slopes launch heading tally).bind fun
        | (tally, .complete) =>
          (Progress.mk tally (integrated + 1) aborted).lookUp.bind
            (work slopes launch rest (completed + 1))
        | (tally, _) => .done (completed, ⟨tally, integrated, aborted⟩)

/-- The work of the workers from number `worker` on. -/
def workAll (slopes : Slopes) (launch : Launch) :
    (worker : Nat) → List (List Heading) → Progress → Course Progress
  | _, [], p => .done p
  | worker, share :: rest, p =>
    (work slopes launch share 0 p).bind fun (completed, p) =>
      .report (.workerFinished worker completed)
        (p.lookUp.bind (workAll slopes launch (worker + 1) rest))

/-! ## 3. The whole integration -/

/-- The counters of an integration before it starts. -/
def statsOf (sweep : Sweep) (launch : Launch) (workers : Nat) : Stats where
  planned := sweep.length
  workers
  launchPoints := launch.points.length

/-- The result, unless the work is superseded at the last look. -/
def conclude (stats : Stats) (p : Progress) : Task Integration :=
  if p.aborted then .givenUp
  else
    .bind .goOn fun _ =>
      let stats := { stats with integrated := p.integrated, overflowed := p.tally.overflowed }
      .bind (.tell (.integrationCompleted stats)) fun _ => .done ⟨p.tally, stats⟩

/-- Deals the headings out to workers, and waits until they have finished. -/
def distribute (slopes : Slopes) (sweep : Sweep) (launch : Launch) (workers : Nat) :
    Task Integration :=
  let shares := sweep.deal workers
  let dispatched := shares.mapIdx fun worker share => Event.workerDispatched worker share.length
  (Course.tellAll dispatched).bind fun _ =>
    (workAll slopes launch 0 shares (.start slopes.extent)).bind
      (conclude (statsOf sweep launch workers))

/-- The work of a coordinator with at least one worker. It looks before it asks the machine for the
    threads of the workers. -/
def coordinate (slopes : Slopes) (sweep : Sweep) (launch : Launch) (shortage? : Option String)
    (workers : Nat) : Task Integration :=
  .bind .goOn fun _ =>
    match shortage? with
    | some reason => .fail (.noWorkerThreads reason)
    | none => distribute slopes sweep launch workers

/-- Integrates a sweep over a slope field. Without headings there is no worker, and nothing that
    could be superseded. -/
def conduct (slopes : Slopes) (sweep : Sweep) (launch : Launch) (threading : Threading)
    (processors : Processors) : Task Integration :=
  match workerCount threading processors.count sweep.length with
  | .error f => .fail f
  | .ok 0 => .done ⟨.new slopes.extent, statsOf sweep launch 0⟩
  | .ok workers => coordinate slopes sweep launch (processors.shortage? workers) workers

/-- Integrates a sweep over a slope field, and reports it. -/
def task (slopes : Slopes) (sweep : Sweep) (launch : Launch) (threading : Threading)
    (processors : Processors) : Task Integration :=
  Course.report (.integrationBegins sweep.length slopes.extent) <|
    Course.bind (conduct slopes sweep launch threading processors) fun outcome =>
      Course.report .integrationEnds (.done outcome)

end Integration

end Relief
