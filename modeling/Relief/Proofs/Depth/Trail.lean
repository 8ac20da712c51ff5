import Mathlib.Algebra.Ring.Parity
import Relief.Depth.Ray

/-!
# Trails

The trail of a ray is the list of the cells that it comes to, one after the other. Which cells
these are is a matter of the numbers alone that the ray marches through, so launch points, region
and march are written here for numbers of any kind.

* `Numbers`: what a march needs of its numbers;
* `Trail.points`, `Trail.contains`, `Trail.maxSteps`, `Trail.cells`: launch points, region, the most
  steps, and the trail;
* `Trail.IsMet`, `Trail.IsGap`: the cells that the rays along the `x` axis come to, and the one that
  they may step over;
* `points_double`, `contains_double`, `maxSteps_double`: for double precision these are those of
  `Launch`;
* `slots_visits`: **a ray visits the slots of its trail.**
-/

namespace Relief

/-- What a march needs of its numbers, beside the four operations. -/
class Numbers (N : Type) where
  ofWord : UInt32 → N
  ofCount : Nat → N
  /-- One whole turn in radians. -/
  turn : N
  sinCos : N → N × N
  sqrt : N → N
  /-- The least natural number that is not below. -/
  ceil : N → Nat
  /-- The nearest whole number, a half going away from zero. -/
  round : N → N
  /-- The whole part. -/
  truncate : N → Int
  atMost : N → N → Bool

/-- A point of the plane, or a step in it, in numbers of some kind. -/
@[ext] structure Spot (N : Type) where
  x : N
  y : N

/-! ## 1. Trails in any numbers -/

section Generic

variable {N : Type} [Numbers N] [Add N] [Sub N] [Mul N] [Div N] [Neg N]
variable [OfNat N 1] [OfNat N 2] [OfNat N 4]

namespace Spot

open Numbers

/-- The point one step further. -/
def advance (p step : Spot N) : Spot N :=
  ⟨p.x + step.x, p.y + step.y⟩

/-- The distance of two points. -/
def distance (p q : Spot N) : N :=
  let dx := p.x - q.x
  let dy := p.y - q.y
  sqrt (dx * dx + dy * dy)

/-- The middle of the cell that a point lies in. -/
def round (p : Spot N) : Spot N :=
  ⟨Numbers.round p.x, Numbers.round p.y⟩

/-- The cell that a point with whole coordinates is the middle of. -/
def cell (p : Spot N) : Ray.Cell :=
  ⟨truncate p.x, truncate p.y⟩

end Spot

namespace Trail

open Numbers

/-- The middle of an image. -/
def center (e : Extent) : Spot N :=
  ⟨ofWord e.width / 2, ofWord e.height / 2⟩

/-- The radius of the circle around an image. -/
def radius (e : Extent) : N :=
  if e.width < e.height then ofWord e.height else ofWord e.width

/-- Equally spaced points on a circle. -/
def circle (center : Spot N) (radius : N) : List (Spot N) :=
  let count := ceil (turn * radius)
  (List.range count).map fun i =>
    let (s, c) := sinCos (turn * ofCount i / ofCount count)
    ⟨center.x + c * radius, center.y + s * radius⟩

/-- The points just outside the edges of an image. -/
def border (e : Extent) : List (Spot N) :=
  let rows := (List.range e.height.toNat).flatMap fun y =>
    [⟨-1, ofCount y⟩, ⟨ofWord e.width, ofCount y⟩]
  let columns := (List.range e.width.toNat).flatMap fun x =>
    [⟨ofCount x, -1⟩, ⟨ofCount x, ofWord e.height⟩]
  rows ++ columns

/-- The launch points for an image. -/
def points (layout : Layout) (e : Extent) : List (Spot N) :=
  match layout with
  | .circular => circle (center e) (radius e)
  | .rectangular => border e

/-- Whether a point is in the region through which rays march. -/
def contains (layout : Layout) (e : Extent) (p : Spot N) : Bool :=
  match layout with
  | .rectangular =>
    atMost (-1) p.x && atMost (-1) p.y && atMost p.x (ofWord e.width)
      && atMost p.y (ofWord e.height)
  | .circular => atMost (p.distance (center e)) (radius e + 1)

variable (N) in
/-- The most steps that a ray may take. -/
def maxSteps (layout : Layout) (e : Extent) : Nat :=
  let span : N := match layout with
    | .rectangular => ofWord e.width + ofWord e.height + 4
    | .circular => 2 * (radius e + 2)
  ceil span + 4

/-- The cells that a ray still comes to which is at `position` and has just been in the cell `last`;
    `fuel` steps at most. -/
def march (layout : Layout) (e : Extent) (step : Spot N) :
    (fuel : Nat) → (position : Spot N) → (last : Option Ray.Cell) → List Ray.Cell
  | 0, _, _ => []
  | fuel + 1, position, last =>
    let rounded := position.round
    if contains layout e rounded then
      let cell := rounded.cell
      let next := position.advance step
      if cell.isLast last then march layout e step fuel next last
      else cell :: march layout e step fuel next (some cell)
    else []

/-- The trail of the ray that starts at a point. -/
def cells (layout : Layout) (e : Extent) (step start : Spot N) : List Ray.Cell :=
  march layout e step (maxSteps N layout e) start none

/-- The slot of a cell in the tally of an image, none beside it. -/
def slot? (e : Extent) (c : Ray.Cell) : Option Nat :=
  e.slot? c.x c.y

section Axis

variable (N) [OfNat N 0]

/-- The step of the rays to the left. -/
def leftward : Spot N :=
  ⟨-1, 0⟩

/-- The step of the rays to the right. -/
def rightward : Spot N :=
  ⟨1, 0⟩

/-- Whether a ray along the `x` axis comes to a cell. -/
def IsMet (layout : Layout) (e : Extent) (c : Ray.Cell) : Prop :=
  ∃ start ∈ (points layout e : List (Spot N)),
    c ∈ cells layout e (leftward N) start ∨ c ∈ cells layout e (rightward N) start

/-- The first pixel of the middle row, if the middle of the image is halfway between two columns and
    as many rays start above the middle of the circle as below. -/
def IsGap (layout : Layout) (e : Extent) (c : Ray.Cell) : Prop :=
  layout = .circular ∧ Odd e.width.toNat ∧ Even e.height.toNat ∧
    Even (points layout e : List (Spot N)).length ∧ c = ⟨0, (e.height.toNat / 2 : Nat)⟩

end Axis

end Trail

end Generic

/-! ## 2. Trails in double precision -/

instance : Numbers Float where
  ofWord := UInt32.toFloat
  ofCount i := i.toUInt64.toFloat
  turn := Launch.turn
  sinCos := Double.sinCos
  sqrt := Float.sqrt
  ceil := Double.ceilNat
  round := Double.round
  truncate := Double.truncate
  atMost a b := a ≤ b

/-- The same point in double precision. -/
def Spot.toPoint (p : Spot Float) : Point :=
  ⟨p.x, p.y⟩

/-- The same point, in numbers that happen to have double precision. -/
def Point.toSpot (p : Point) : Spot Float :=
  ⟨p.x, p.y⟩

namespace Trail

variable (layout : Layout) (e : Extent)

/-- The launch points are those of the plan. -/
theorem points_double : (Launch.plan e layout).points = (points layout e).map Spot.toPoint := by
  cases layout with
  | circular =>
    show Launch.circle _ _ = (circle (center e) (radius e)).map Spot.toPoint
    simp only [Launch.circle, circle, List.map_map]
    rfl
  | rectangular =>
    show Launch.border e = (border e).map Spot.toPoint
    simp only [Launch.border, border, List.map_append, List.map_flatMap]
    rfl

/-- The region is that of the plan. -/
theorem contains_double (p : Point) :
    (Launch.plan e layout).contains p = contains layout e p.toSpot := by
  cases layout <;> rfl

/-- So are the most steps. -/
theorem maxSteps_double : (Launch.plan e layout).maxSteps = maxSteps Float layout e := by
  cases layout <;> rfl

theorem slots_march (slopes : Slopes) (step : Point) (fuel : Nat) (position : Point)
    (last : Option Ray.Cell) (integral : Float) :
    (Ray.march slopes (Launch.plan e layout) step fuel position last integral).map
        Visit.slot
      = (march layout e step.toSpot fuel position.toSpot last).filterMap
          (slot? slopes.extent) := by
  induction fuel generalizing position last integral with
  | zero => rfl
  | succ fuel ih =>
    let cell := Ray.Cell.ofPoint position.round
    have next (last : Option Ray.Cell) (integral : Float) := ih (position.advance step) last integral
    simp only [Ray.march, march, contains_double]
    show (List.map Visit.slot (if contains layout e position.round.toSpot then _ else _))
      = (if contains layout e position.round.toSpot then
          if cell.isLast last then
            march layout e step.toSpot fuel (position.advance step).toSpot last
          else cell :: march layout e step.toSpot fuel (position.advance step).toSpot
            (some cell)
        else []).filterMap (slot? slopes.extent)
    by_cases inside : contains layout e position.round.toSpot = true
    · rw [if_pos inside, if_pos inside]
      by_cases repeated : cell.isLast last = true
      · rw [if_pos repeated, if_pos repeated]
        exact next last integral
      · rw [if_neg repeated, if_neg repeated]
        rw [List.filterMap_cons, slot?]
        cases named : slopes.extent.slot? cell.x cell.y with
        | none => exact next (some cell) integral
        | some slot =>
          have bound : slot < slopes.image.pixels.size := by
            rw [slopes.image.size_pixels]
            exact Extent.slot?_lt named
          dsimp only
          rw [Array.getElem?_eq_getElem bound]
          exact congrArg (slot :: ·) (next (some cell) _)
    · rw [if_neg inside, if_neg inside]
      rfl

/-- **A ray visits the slots of its trail**, whatever the size of the frame it is launched from. -/
theorem slots_visits (slopes : Slopes) (step start : Point) :
    (Ray.visits slopes (Launch.plan e layout) step start).map Visit.slot
      = (cells layout e step.toSpot start.toSpot).filterMap
          (slot? slopes.extent) := by
  rw [Ray.visits, maxSteps_double, slots_march, cells]

end Trail

end Relief
