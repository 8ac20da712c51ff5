import Relief.Proofs.Depth.Parallel
import Relief.Proofs.Reconstruction.Parts

/-!
# Errands

An errand is a reconstruction on its way, while others may advance the generation that its token
belongs to at any moment. It opens alone, step by step; it integrates by a crew, of whom anybody may
take the next step; and it closes alone again.

* `Errand.Way`: how far an errand has come;
* `Errand.Step`: a step of the errand, of its crew, or of somebody outside;
* `Errand.Run`: any number of steps.
-/

namespace Relief

/-- A request, the token that it is run under, and the processors of the machine. -/
structure Errand where
  request : Request
  token : Token
  processors : Processors

namespace Errand

/-- The crew that integrates the slopes of the map. -/
def crew (e : Errand) (slopes : Slopes) (workers : Nat) : Crew where
  slopes
  sweep := Reconstruction.sweepOf e.request
  launch := Reconstruction.launchOf e.request
  workers
  token := e.token
  shortage? := e.processors.shortage? workers

/-- How many workers the crew has. -/
def workerCount (e : Errand) : Except Failure Nat :=
  Integration.workerCount e.request.options.threading e.processors.count
    (Reconstruction.sweepOf e.request).length

/-- How an errand ends. -/
inductive Ending where
  /-- It returns a reconstruction, a failure, or nothing. -/
  | returned (outcome : Except Failure (Option Reconstruction))
  /-- A worker of the crew has panicked. -/
  | panicked (worker : Nat)

/-- How far an errand has come. -/
inductive Way where
  /-- The rest of the opening is still to be done. -/
  | opening (g : Generations) (rest : Task (Reconstruction ⊕ Slopes))
  /-- So many workers integrate the slopes. -/
  | integrating (slopes : Slopes) (workers : Nat) (s : Crew.State)
  /-- The rest of the closing is still to be done. -/
  | closing (g : Generations) (rest : Task Reconstruction)
  | ended (g : Generations) (ending : Ending)

/-- An errand that is yet to begin. -/
def begin (e : Errand) (g : Generations) : Way :=
  .opening g (Reconstruction.opening e.request e.token.captured)

/-- The way after the opening. -/
def afterOpening (e : Errand) (g : Generations) :
    Except Failure (Option (Reconstruction ⊕ Slopes)) → Way
  | .error reason => .ended g (.returned (.error reason))
  | .ok none => .ended g (.returned (.ok none))
  | .ok (some (.inl whole)) => .ended g (.returned (.ok (some whole)))
  | .ok (some (.inr slopes)) =>
    match e.workerCount with
    | .error reason => .ended g (.returned (.error reason))
    | .ok workers => .integrating slopes workers ((e.crew slopes workers).start g)

/-- The way after the integration. -/
def afterIntegration (e : Errand) (s : Crew.State) : Crew.Outcome → Way
  | .completed stats => .closing s.generations (Reconstruction.closing e.request ⟨s.tally, stats⟩)
  | .superseded => .ended s.generations (.returned (.ok none))
  | .unmanned reason => .ended s.generations (.returned (.error (.noWorkerThreads reason)))
  | .failed worker => .ended s.generations (.panicked worker)

/-- A step, as far as others can see what it is. -/
inductive Happening where
  /-- The errand looks at its token. -/
  | look
  /-- Somebody of the crew takes a step, or somebody outside while the crew is at work. -/
  | crew (m : Crew.Move)
  /-- Any other step of the errand. -/
  | pass
  /-- Somebody outside advances the generation. -/
  | cancel

/-- What a step of a course is for others. -/
def Happening.own (looks : Bool) : Happening :=
  if looks then .look else .pass

/-- A step of the errand, of its crew, or of somebody outside. -/
inductive Step (e : Errand) : Way → Happening → Way → Prop where
  | inOpening (g : Generations) (rest rest' : Task (Reconstruction ⊕ Slopes)) (looks : Bool)
      (h : Course.Moves (g.isStale e.token) rest looks rest') :
      Step e (.opening g rest) (.own looks) (.opening g rest')
  | opened (g : Generations) (outcome : Except Failure (Option (Reconstruction ⊕ Slopes))) :
      Step e (.opening g (Course.done outcome)) .pass (e.afterOpening g outcome)
  | inCrew (slopes : Slopes) (workers : Nat) (s s' : Crew.State) (m : Crew.Move)
      (h : Crew.Step (e.crew slopes workers) s m s') :
      Step e (.integrating slopes workers s) (.crew m) (.integrating slopes workers s')
  | integrated (slopes : Slopes) (workers : Nat) (s : Crew.State) (outcome : Crew.Outcome)
      (h : s.phase = .returned outcome) :
      Step e (.integrating slopes workers s) .pass (e.afterIntegration s outcome)
  | inClosing (g : Generations) (rest rest' : Task Reconstruction) (looks : Bool)
      (h : Course.Moves (g.isStale e.token) rest looks rest') :
      Step e (.closing g rest) (.own looks) (.closing g rest')
  | closed (g : Generations) (outcome : Except Failure (Option Reconstruction)) :
      Step e (.closing g (Course.done outcome)) .pass (.ended g (.returned outcome))
  | cancelOpening (g : Generations) (rest : Task (Reconstruction ⊕ Slopes)) :
      Step e (.opening g rest) .cancel (.opening (g.advance e.token.generation) rest)
  | cancelClosing (g : Generations) (rest : Task Reconstruction) :
      Step e (.closing g rest) .cancel (.closing (g.advance e.token.generation) rest)

/-- Steps one after the other. -/
inductive Run (e : Errand) : Way → List Happening → Way → Prop where
  | rest (w : Way) : Run e w [] w
  | step {w w' w'' : Way} {trace : List Happening} {h : Happening} (r : Run e w trace w')
      (s : Step e w' h w'') : Run e w (trace ++ [h]) w''

/-- Whether the generation is advanced. -/
def Happening.isCancel : Happening → Bool
  | .cancel | .crew .cancel => true
  | _ => false

/-- How often the generation has been advanced. -/
def cancels (trace : List Happening) : Nat :=
  trace.countP Happening.isCancel

theorem cancels_append (trace : List Happening) (h : Happening) :
    cancels (trace ++ [h]) = cancels trace + if h.isCancel then 1 else 0 := by
  rw [cancels, List.countP_append, List.countP_singleton]
  rfl

end Errand

end Relief
