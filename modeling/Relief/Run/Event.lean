import Relief.Image
import Relief.Run.Settings

/-!
# Events

What happens while an operation runs, as far as others can see it.

* `Event`: a stage begins or ends, or something worth telling happens in it;
* `Event.entry?`: how an event is entered in the journal. The end of a stage is not;
* `Milestone`, `Event.milestone?`: the events at which others may want to step in.
-/

namespace Relief

/-- What happens while an operation runs. -/
inductive Event where
  | reconstructionBegins (extent : Extent) (generation : UInt64)
  | extractionBegins (extent : Extent) (convention : Convention)
  | extractionEnds
  | graphBound (target : Extent)
  | programRendered (instructions inputs : Nat) (fingerprint : UInt64)
  | executionBegins (target : Extent)
  | graphPurged
  | integrationBegins (headings : Nat) (extent : Extent)
  | integrationEnds
  | workerDispatched (worker headings : Nat)
  | workerFinished (worker integrated : Nat)
  | integrationSuperseded
  | integrationCompleted (stats : Stats)
  | levellingBegins (extent : Extent)
  | levellingEnds
  | overflowNoticed (extent : Extent)
  | finishBegins (extent : Extent)
  | finishEnds
  | reconstructionCompleted (stats : Stats)
  | jobSuperseded (generation : UInt64)
  | generationAdvanced (count : UInt64)
  deriving DecidableEq, Repr

/-! ## 1. The journal -/

/-- How much an entry matters. -/
inductive Level where
  | trace
  | debug
  | warn
  deriving DecidableEq, Repr

/-- The name of a level. -/
def Level.text : Level → String
  | trace => "TRACE"
  | debug => "DEBUG"
  | warn => "WARN"

/-- An entry of the journal. -/
inductive Entry where
  /-- A stage begins. -/
  | stage (name : String) (fields : List (String × String))
  | message (level : Level) (text : String) (fields : List (String × String))
  deriving DecidableEq, Repr

/-- The fields of an extent, under the short names of stages. -/
def sizeFields (e : Extent) : List (String × String) :=
  [("w", toString e.width), ("h", toString e.height)]

/-- The fields of an extent, under the long names of messages. -/
def extentFields (e : Extent) : List (String × String) :=
  [("width", toString e.width), ("height", toString e.height)]

/-- The name of a convention in the journal. -/
def Convention.journalName : Convention → String
  | openGl => "OpenGl"
  | directX => "DirectX"

/-- The counters as one field of the journal. -/
def Stats.journalText (s : Stats) : String :=
  "IntegrationStats \x7b angles_planned: " ++ toString s.planned ++
  ", angles_integrated: " ++ toString s.integrated ++
  ", workers: " ++ toString s.workers ++
  ", start_points: " ++ toString s.launchPoints ++
  ", overflowed: " ++ toString s.overflowed ++ " \x7d"

/-- The entry of an event. -/
def Event.entry? : Event → Option Entry
  | reconstructionBegins extent generation =>
    some (.stage "run" (sizeFields extent ++ [("generation", toString generation)]))
  | extractionBegins extent convention =>
    some (.stage "extract_gradient" (sizeFields extent ++ [("convention", convention.journalName)]))
  | graphBound target => some (.message .trace "bind shader graph" (extentFields target))
  | programRendered instructions inputs fingerprint =>
    some (.message .debug "render raster program"
      [("instrs", toString instructions), ("inputs", toString inputs),
        ("fingerprint", toString fingerprint)])
  | executionBegins target => some (.stage "execute" (sizeFields target))
  | graphPurged => some (.message .trace "purge shader graph" [])
  | integrationBegins headings extent =>
    some (.stage "integrate" (("angles", toString headings) :: sizeFields extent))
  | workerDispatched worker headings =>
    some (.message .debug "dispatch integration worker"
      [("worker", toString worker), ("angles", toString headings)])
  | workerFinished worker integrated =>
    some (.message .debug "integration worker finished"
      [("worker", toString worker), ("integrated", toString integrated)])
  | integrationSuperseded =>
    some (.message .debug "integration superseded, stopping workers" [])
  | integrationCompleted stats =>
    some (.message .debug "integration complete" [("stats", stats.journalText)])
  | levellingBegins extent => some (.stage "normalize" (sizeFields extent))
  | overflowNoticed extent =>
    some (.message .warn "depth accumulator overflowed i32; output uses wrapped sums"
      (extentFields extent))
  | finishBegins extent => some (.stage "post_process" (sizeFields extent))
  | reconstructionCompleted stats =>
    some (.message .debug "reconstruction complete" [("stats", stats.journalText)])
  | jobSuperseded generation =>
    some (.message .debug "reconstruction superseded" [("generation", toString generation)])
  | generationAdvanced count =>
    some (.message .debug "render generation advanced" [("generation", toString count)])
  | extractionEnds | integrationEnds | levellingEnds | finishEnds => none

/-! ## 2. Milestones -/

/-- An event at which others may want to step in. -/
inductive Milestone where
  | extractionBegins
  | extractionEnds
  | integrationBegins
  | dispatch
  | integrationEnds
  | levellingBegins
  | levellingEnds
  | finishBegins
  | finishEnds
  | completed
  deriving DecidableEq, Repr

/-- The milestone that an event is. -/
def Event.milestone? : Event → Option Milestone
  | extractionBegins _ _ => some .extractionBegins
  | extractionEnds => some .extractionEnds
  | integrationBegins _ _ => some .integrationBegins
  | workerDispatched _ _ => some .dispatch
  | integrationEnds => some .integrationEnds
  | levellingBegins _ => some .levellingBegins
  | levellingEnds => some .levellingEnds
  | finishBegins _ => some .finishBegins
  | finishEnds => some .finishEnds
  | reconstructionCompleted _ => some .completed
  | _ => none

end Relief
