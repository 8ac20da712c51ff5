import Mathlib.Logic.Function.Basic
import Relief.Proofs.Depth.InTurn
import Relief.Run.Generation

/-!
# Crews

A crew is a coordinator with its workers, of whom anybody may take the next step at any time. A step
is one access to what they share: to a sum or a count of the tally, to the flag by which workers are
stopped, to the generation that the token belongs to, or to the queue of signals of one worker.

* `Crew.Act`, `Crew.program`: what a worker does, as a list of single accesses;
* `Crew.Works`, `Crew.Leads`: the steps of a worker, and those of the coordinator;
* `Crew.Step`: a step of anybody, or of somebody outside who advances the generation;
* `Crew.Run`: any number of steps, through states of a kind.

The signals of one worker are heard in the order in which they were sent; between the signals of two
workers there is no order. The coordinator may run out of patience at any time. If the machine is
short of threads for the workers, the coordinator fails before it has started any of them.

`Integration.task` is one of the runs: there the workers take turns.
-/

namespace Relief

/-- Who integrates a sweep: so many workers, under a token, on a machine that starts their threads or
    does not. -/
structure Crew where
  slopes : Slopes
  sweep : Sweep
  launch : Launch
  workers : Nat
  token : Token
  /-- Why the machine does not start the threads of the workers, where it does not. -/
  shortage? : Option String

namespace Crew

/-! ## 1. What workers do -/

/-- One access of a worker. -/
inductive Act where
  /-- Looks whether the flag is raised. -/
  | lookUp
  /-- Looks whether the token is stale, and launches a ray of a heading if it is not. -/
  | launch (heading : Heading) (start : Point)
  /-- Adds the running integral of a visit to the sum of its slot. -/
  | sum (v : Visit)
  /-- Adds one to the count of its slot. -/
  | count (v : Visit)
  /-- Tells the coordinator that a heading is completed. -/
  | report

/-- The accesses for the ray of a heading from a launch point. -/
def rayActs (c : Crew) (heading : Heading) (start : Point) : List Act :=
  .lookUp :: .launch heading start ::
    (Integration.rayVisits c.slopes c.launch heading.opposite.step start).flatMap fun v =>
      [.sum v, .count v]

/-- The accesses for a heading: all of its rays, and a report. -/
def headingActs (c : Crew) (heading : Heading) : List Act :=
  c.launch.points.flatMap (c.rayActs heading) ++ [.report]

/-- The headings that a worker has been dealt. -/
def share (c : Crew) (i : Nat) : List Heading :=
  (c.sweep.deal c.workers)[i]?.getD []

/-- All accesses of a worker who is not stopped. -/
def program (c : Crew) (i : Nat) : List Act :=
  (c.share i).flatMap c.headingActs

/-- What a worker tells the coordinator. -/
inductive Signal where
  | headingDone
  | finished (completed : Nat)
  | panicked
  deriving DecidableEq

/-- A worker at work. -/
structure Worker where
  /-- What is still to be done. -/
  todo : List Act
  /-- The headings that have been reported. -/
  completed : Nat
  /-- Whether the last sum wrapped and the tally has not been told yet. -/
  wrapped : Bool
  /-- Whether the last signal is still to be sent. -/
  isOpen : Bool
  /-- The signals that have been sent and not been heard. -/
  outbox : List Signal

/-! ## 2. States -/

/-- How an integration ends. -/
inductive Outcome where
  | completed (stats : Stats)
  | superseded
  /-- The threads of the workers were not started. -/
  | unmanned (reason : String)
  /-- A worker has panicked. -/
  | failed (worker : Nat)

/-- What the coordinator does next. -/
inductive Phase where
  /-- Looks at the token for the first time. -/
  | entering
  /-- Starts the next worker. -/
  | dispatching
  /-- Waits for a signal. -/
  | receiving
  /-- Looks at the token. -/
  | checking
  /-- Raises the flag. -/
  | aborting
  /-- Looks at the token for the last time. -/
  | leaving
  | returned (outcome : Outcome)

/-- A state of a crew: what its members share, and where each of them is. -/
structure State where
  generations : Generations
  tally : Tally
  /-- Whether the workers are told to stop. -/
  flag : Bool
  workers : Nat → Worker
  phase : Phase
  /-- The workers that have been started. -/
  started : Nat
  /-- The last signals that have been heard. -/
  finished : Nat
  /-- The reports that have been heard. -/
  integrated : Nat
  /-- Whether the coordinator has found the token stale. -/
  aborted : Bool
  /-- The first worker that has been heard to panic. -/
  failed : Option Nat

/-- Whether the token is stale. -/
def State.isStale (s : State) (c : Crew) : Bool :=
  s.generations.isStale c.token

/-- What the coordinator does after a look: it waits on, unless all workers have finished. -/
def State.afterCheck (s : State) (c : Crew) : Phase :=
  if s.finished < c.workers then .receiving else .leaving

/-- The state in which a crew is called, and a generation may have been advanced already. -/
def start (c : Crew) (generations : Generations) : State where
  generations
  tally := .new c.slopes.extent
  flag := false
  workers i :=
    { todo := c.program i, completed := 0, wrapped := false, isOpen := true, outbox := [] }
  phase := .entering
  started := 0
  finished := 0
  integrated := 0
  aborted := false
  failed := none

/-- The counters of a completed integration. -/
def State.stats (s : State) (c : Crew) : Stats :=
  { Integration.statsOf c.sweep c.launch c.workers with
    integrated := s.integrated, overflowed := s.tally.overflowed }

/-! ## 3. Steps -/

/-- A step, as far as others can see who takes it and what it is. -/
inductive Move where
  /-- A worker does what it has to do next. -/
  | act (i : Nat) (a : Act)
  /-- A worker tells the tally that a sum wrapped. -/
  | raise (i : Nat)
  /-- A worker finds the flag raised, and gives up the rest. -/
  | halt (i : Nat)
  /-- A worker finds the token stale, and gives up the rest. -/
  | withdraw (i : Nat)
  /-- A worker is to add to a slot that the tally does not have. -/
  | panic (i : Nat)
  /-- A worker sends its last signal. -/
  | close (i : Nat)
  /-- The coordinator hears the next signal of a worker. -/
  | hear (i : Nat) (signal : Signal)
  /-- The coordinator has waited too long. -/
  | timeOut
  /-- The coordinator finds the token stale. -/
  | notice
  /-- Any other step of the coordinator. -/
  | lead
  /-- Somebody outside advances the generation. -/
  | cancel

/-- The steps of a worker, who finds the generations and the flag as they are. -/
inductive Works (c : Crew) (g : Generations) (flag : Bool) (i : Nat) :
    Worker → Tally → Move → Worker → Tally → Prop where
  | goOn (w : Worker) (t : Tally) (rest : List Act) (h : w.todo = .lookUp :: rest)
      (hf : flag = false) :
      Works c g flag i w t (.act i .lookUp) { w with todo := rest } t
  | halt (w : Worker) (t : Tally) (rest : List Act) (h : w.todo = .lookUp :: rest)
      (hf : flag = true) :
      Works c g flag i w t (.halt i) { w with todo := [] } t
  | launch (w : Worker) (t : Tally) (heading : Heading) (start : Point) (rest : List Act)
      (h : w.todo = .launch heading start :: rest) (hs : g.isStale c.token = false) :
      Works c g flag i w t (.act i (.launch heading start)) { w with todo := rest } t
  | withdraw (w : Worker) (t : Tally) (heading : Heading) (start : Point) (rest : List Act)
      (h : w.todo = .launch heading start :: rest) (hs : g.isStale c.token = true) :
      Works c g flag i w t (.withdraw i) { w with todo := [] } t
  | sum (w : Worker) (t : Tally) (v : Visit) (rest : List Act) (h : w.todo = .sum v :: rest)
      (hv : v.slot < t.extent.area) :
      Works c g flag i w t (.act i (.sum v)) { w with todo := rest, wrapped := t.wraps v }
        (t.addSum v)
  | panic (w : Worker) (t : Tally) (v : Visit) (rest : List Act) (h : w.todo = .sum v :: rest)
      (hv : ¬ v.slot < t.extent.area) :
      Works c g flag i w t (.panic i)
        { w with todo := [], isOpen := false, outbox := w.outbox ++ [.panicked] } t
  | raise (w : Worker) (t : Tally) (h : w.wrapped = true) :
      Works c g flag i w t (.raise i) { w with wrapped := false } t.raise
  | count (w : Worker) (t : Tally) (v : Visit) (rest : List Act) (h : w.todo = .count v :: rest)
      (hw : w.wrapped = false) :
      Works c g flag i w t (.act i (.count v)) { w with todo := rest } (t.addCount v)
  | report (w : Worker) (t : Tally) (rest : List Act) (h : w.todo = .report :: rest) :
      Works c g flag i w t (.act i .report)
        { w with todo := rest, completed := w.completed + 1, outbox := w.outbox ++ [.headingDone] }
        t
  | close (w : Worker) (t : Tally) (h : w.todo = []) (ho : w.isOpen = true)
      (hw : w.wrapped = false) :
      Works c g flag i w t (.close i)
        { w with isOpen := false, outbox := w.outbox ++ [.finished w.completed] } t

/-- What the coordinator knows after a signal of worker `i`. A worker that panics stops all. -/
def State.hear (s : State) (i : Nat) : Signal → State
  | .headingDone => { s with integrated := s.integrated + 1 }
  | .finished _ => { s with finished := s.finished + 1 }
  | .panicked =>
    { s with finished := s.finished + 1, flag := true, failed := s.failed <|> some i }

/-- The steps of the coordinator. -/
inductive Leads (c : Crew) : State → Move → State → Prop where
  | nobody (s : State) (h : s.phase = .entering) (hn : c.workers = 0) :
      Leads c s .lead
        { s with phase := .returned (.completed (Integration.statsOf c.sweep c.launch 0)) }
  | turnAway (s : State) (h : s.phase = .entering) (hn : 0 < c.workers)
      (hs : s.isStale c = true) :
      Leads c s .lead { s with phase := .returned .superseded }
  | unmanned (s : State) (reason : String) (h : s.phase = .entering) (hn : 0 < c.workers)
      (hs : s.isStale c = false) (ht : c.shortage? = some reason) :
      Leads c s .lead { s with phase := .returned (.unmanned reason) }
  | enter (s : State) (h : s.phase = .entering) (hn : 0 < c.workers)
      (hs : s.isStale c = false) (ht : c.shortage? = none) :
      Leads c s .lead { s with phase := .dispatching }
  | dispatch (s : State) (h : s.phase = .dispatching) :
      Leads c s .lead
        { s with
          started := s.started + 1
          phase := if s.started + 1 < c.workers then .dispatching else .receiving }
  | hear (s : State) (i : Nat) (signal : Signal) (rest : List Signal) (h : s.phase = .receiving)
      (hi : i < c.workers) (ho : (s.workers i).outbox = signal :: rest) :
      Leads c s (.hear i signal)
        { s.hear i signal with
          workers := Function.update s.workers i { s.workers i with outbox := rest }
          phase := .checking }
  | timeOut (s : State) (h : s.phase = .receiving) :
      Leads c s .timeOut { s with phase := .checking }
  | disconnect (s : State) (h : s.phase = .receiving)
      (hd : ∀ i < c.workers, (s.workers i).isOpen = false ∧ (s.workers i).outbox = []) :
      Leads c s .lead { s with phase := .leaving }
  | goOn (s : State) (h : s.phase = .checking) (hs : s.aborted = true ∨ s.isStale c = false) :
      Leads c s .lead { s with phase := s.afterCheck c }
  | notice (s : State) (h : s.phase = .checking) (ha : s.aborted = false)
      (hs : s.isStale c = true) :
      Leads c s .notice { s with aborted := true, phase := .aborting }
  | abort (s : State) (h : s.phase = .aborting) :
      Leads c s .lead { s with flag := true, phase := s.afterCheck c }
  | fail (s : State) (i : Nat) (h : s.phase = .leaving) (hf : s.failed = some i) :
      Leads c s .lead { s with phase := .returned (.failed i) }
  | giveUp (s : State) (h : s.phase = .leaving) (hf : s.failed = none)
      (hs : s.aborted = true ∨ s.isStale c = true) :
      Leads c s .lead { s with phase := .returned .superseded }
  | complete (s : State) (h : s.phase = .leaving) (hf : s.failed = none) (ha : s.aborted = false)
      (hs : s.isStale c = false) :
      Leads c s .lead { s with phase := .returned (.completed (s.stats c)) }

/-- A step of a worker that has been started, of the coordinator, or of somebody outside. -/
inductive Step (c : Crew) : State → Move → State → Prop where
  | work (s : State) (i : Nat) (m : Move) (w : Worker) (t : Tally) (hi : i < s.started)
      (h : Works c s.generations s.flag i (s.workers i) s.tally m w t) :
      Step c s m { s with workers := Function.update s.workers i w, tally := t }
  | lead (s s' : State) (m : Move) (h : Leads c s m s') : Step c s m s'
  | cancel (s : State) :
      Step c s .cancel { s with generations := s.generations.advance c.token.generation }

/-- Steps one after the other, through states that are all of a kind. -/
inductive Run (c : Crew) (kind : State → Prop) : State → List Move → State → Prop where
  | rest (s : State) (h : kind s) : Run c kind s [] s
  | step {s s' s'' : State} {trace : List Move} {m : Move} (h : Run c kind s trace s')
      (hs : Step c s' m s'') (hk : kind s'') : Run c kind s (trace ++ [m]) s''

end Crew

end Relief
