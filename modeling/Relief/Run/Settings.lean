/-!
# Settings of a reconstruction

* `Convention`: which way the green channel of a normal map points;
* `Threading`: how many workers integrate, and how often their coordinator looks up;
* `Processors`: what a machine has for them;
* `Stats`: the counters of an integration.
-/

namespace Relief

/-- Which way green points in a normal map. -/
inductive Convention where
  /-- Up. -/
  | openGl
  /-- Down. -/
  | directX
  deriving DecidableEq, Inhabited, Repr

/-- The workers of an integration. -/
structure Threading where
  /-- How many workers there are; if nothing is said, one less than the machine has processors. -/
  threads : Option UInt64 := none
  /-- How long the coordinator waits at most before it looks up, in milliseconds. -/
  pollInterval : UInt64 := 4
  deriving DecidableEq, Inhabited, Repr

/-- The processors of a machine, and the threads that it starts. It may be short of these for reasons
    that only the machine knows. -/
structure Processors where
  /-- How many it tells of. -/
  count : Nat
  /-- Why it does not start so many threads for workers, where it does not. -/
  shortage? : (threads : Nat) → Option String := fun _ => none
  /-- Whether it starts a thread for a job. -/
  takeJobs : Bool := true

namespace Processors

/-- So many processors, and a thread for everybody who asks for one. -/
def plenty (count : Nat) : Processors :=
  { count }

instance : Coe Nat Processors :=
  ⟨plenty⟩

instance (count : Nat) : OfNat Processors count :=
  ⟨plenty count⟩

end Processors

/-- The counters of an integration. -/
structure Stats where
  /-- The headings that were given out to workers. -/
  planned : Nat := 0
  /-- The headings of which every ray was marched. -/
  integrated : Nat := 0
  workers : Nat := 0
  /-- The rays that are launched along each heading. -/
  launchPoints : Nat := 0
  /-- Whether a sum wrapped. -/
  overflowed : Bool := false
  deriving DecidableEq, Inhabited, Repr

end Relief
