import Relief.Depth.Heading
import Relief.Image
import Relief.Number.Whole

/-!
# Launch points

Rays start outside the image, on a circle around it or along its border, and march until they leave
the region around it. `Launch.plan` lays out the launch points for an image.

* `Launch.contains`: whether a point is still in the region through which rays march;
* `Launch.maxSteps`: more steps than any ray can take inside the region;
* `Launch.reaches`: whether a ray that starts at a point can meet the image at all.
-/

namespace Relief

/-- Where rays are launched. -/
inductive Layout where
  /-- On a circle around the image, about one point for each unit of its length. -/
  | circular
  /-- Just outside each pixel of the four edges. -/
  | rectangular
  deriving DecidableEq, Inhabited, Repr

/-- The launch points for an image, and the shape of the region around it. -/
structure Launch where
  layout : Layout
  extent : Extent
  center : Point
  radius : Float
  points : List Point

namespace Launch

/-- One whole turn in radians. -/
def turn : Float :=
  6.283185307179586

/-- Equally spaced points on a circle, the first on the positive `x` axis. -/
def circle (center : Point) (radius : Float) : List Point :=
  let count := Double.ceilNat (turn * radius)
  (List.range count).map fun i =>
    let (s, c) := Double.sinCos (turn * i.toUInt64.toFloat / count.toUInt64.toFloat)
    ⟨center.x + c * radius, center.y + s * radius⟩

/-- The points just outside the first and the last pixel of each row, and then of each column. -/
def border (e : Extent) : List Point :=
  let rows := (List.range e.height.toNat).flatMap fun y =>
    [⟨-1, y.toUInt64.toFloat⟩, ⟨e.width.toFloat, y.toUInt64.toFloat⟩]
  let columns := (List.range e.width.toNat).flatMap fun x =>
    [⟨x.toUInt64.toFloat, -1⟩, ⟨x.toUInt64.toFloat, e.height.toFloat⟩]
  rows ++ columns

/-- The launch points for an image of the given extent. -/
def plan (e : Extent) (layout : Layout) : Launch :=
  let center : Point := ⟨e.width.toFloat / 2, e.height.toFloat / 2⟩
  let radius := if e.width < e.height then e.height.toFloat else e.width.toFloat
  { layout, extent := e, center, radius
    points := match layout with
      | .circular => circle center radius
      | .rectangular => border e }

/-- Whether a point is in the region: within one unit of the border, or of the circle. -/
@[inline] def contains (l : Launch) (p : Point) : Bool :=
  match l.layout with
  | .rectangular =>
    -1 ≤ p.x && -1 ≤ p.y && p.x ≤ l.extent.width.toFloat && p.y ≤ l.extent.height.toFloat
  | .circular => p.distance l.center ≤ l.radius + 1

/-- Whether a coordinate is rounded to one of the first `length` pixels. -/
def isInside (v : Float) (length : UInt32) : Bool :=
  0 ≤ Double.round v && Double.round v < length.toFloat

/-- Whether a ray from `start` along `step` can meet the image. A step along an axis leaves the
    other coordinate where it is, so a start beside the image stays beside it; of other rays
    nothing is said. -/
def reaches (l : Launch) (start step : Point) : Bool :=
  (step.x != 0 || isInside start.x l.extent.width)
    && (step.y != 0 || isInside start.y l.extent.height)

/-- More steps than any ray can take inside the region. -/
def maxSteps (l : Launch) : Nat :=
  let span := match l.layout with
    | .rectangular => l.extent.width.toFloat + l.extent.height.toFloat + 4
    | .circular => 2 * (l.radius + 2)
  Double.ceilNat span + 4

end Launch

end Relief
