/-!
# Generations

A generation is a counter that names the work which is still wanted. A token keeps the count at the
moment it was issued; it is stale as soon as the counter has moved on. So advancing a generation
withdraws all work that was started under it, at one stroke.

* `Generations`: the counters, each known by its place;
* `Generations.issue`, `Generations.advance`, `Generations.isStale`: tokens and their end;
* `Generations.detached`: a token of a counter that nobody holds, which is therefore never stale.
-/

namespace Relief

/-- A counter, known by its place. Copies of a generation are the same counter. -/
structure Generation where
  place : Nat
  deriving DecidableEq, Inhabited, Repr

/-- The count of a generation at a moment. -/
structure Token where
  generation : Generation
  captured : UInt64
  deriving DecidableEq, Inhabited, Repr

/-- All counters. -/
structure Generations where
  counts : Array UInt64
  deriving Inhabited, Repr

namespace Generations

/-- No counter. -/
def empty : Generations :=
  ⟨#[]⟩

/-- A new counter, at zero. -/
def new (g : Generations) : Generations × Generation :=
  (⟨g.counts.push 0⟩, ⟨g.counts.size⟩)

/-- The count of a generation. -/
def current (g : Generations) (gen : Generation) : UInt64 :=
  g.counts[gen.place]?.getD 0

/-- Moves a generation on by one. -/
def advance (g : Generations) (gen : Generation) : Generations :=
  ⟨g.counts.setIfInBounds gen.place (g.current gen + 1)⟩

/-- A token of a generation. -/
def issue (g : Generations) (gen : Generation) : Token :=
  ⟨gen, g.current gen⟩

/-- A token of a counter of its own. -/
def detached (g : Generations) : Generations × Token :=
  let (g, gen) := g.new
  (g, g.issue gen)

/-- Whether the generation has moved on since the token was issued. -/
def isStale (g : Generations) (t : Token) : Bool :=
  g.current t.generation ≠ t.captured

end Generations

end Relief
