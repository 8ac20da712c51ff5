import Relief.Run.Course
import Relief.Run.Generation

/-!
# Watches

A watch is the observer that operations run before: it keeps the generations and the journal, and
may be set to advance a generation at the next milestone of a kind.

* `Watch.note`: enters an event, and advances the generation if the event is the milestone;
* `Watch.run`: runs a course under a token.
-/

namespace Relief

/-- Generations, journal, and the milestone that is waited for. -/
structure Watch where
  generations : Generations
  /-- The events so far, the last one first. -/
  reversed : List Event
  /-- The next milestone at which a generation is advanced, and the generation. -/
  armed : Option (Milestone × Generation)
  /-- Whether the milestone has been met since it was last set. -/
  fired : Bool

namespace Watch

/-- A watch over no generation, with an empty journal. -/
def new : Watch where
  generations := .empty
  reversed := []
  armed := none
  fired := false

/-- Enters an event in the journal. -/
def enter (w : Watch) (e : Event) : Watch :=
  { w with reversed := e :: w.reversed }

/-- Advances a generation, and enters that it has been. -/
def advance (w : Watch) (gen : Generation) : Watch :=
  let generations := w.generations.advance gen
  { w with generations }.enter (.generationAdvanced (generations.current gen))

/-- Sets the milestone at which a generation is advanced. -/
def arm (w : Watch) (m : Milestone) (gen : Generation) : Watch :=
  { w with armed := some (m, gen), fired := false }

/-- Waits for no milestone any more. -/
def disarm (w : Watch) : Watch :=
  { w with armed := none, fired := false }

/-- Takes an event: it is entered first, and what it sets off comes after it. -/
def note (w : Watch) (e : Event) : Watch :=
  let w := w.enter e
  match w.armed with
  | some (m, gen) =>
    if e.milestone? = some m then { w with armed := none, fired := true }.advance gen else w
  | none => w

/-- The observer of work under a token. -/
def observer (t : Token) : Course.Observer Watch where
  note := note
  answer w := w.generations.isStale t

/-- Runs a course under a token. -/
def run {α : Type} (w : Watch) (t : Token) (c : Course α) : α × Watch :=
  c.follow (observer t) w

/-- The entries of the journal, in order. -/
def entries (w : Watch) : List Entry :=
  w.reversed.reverse.filterMap Event.entry?

end Watch

end Relief
