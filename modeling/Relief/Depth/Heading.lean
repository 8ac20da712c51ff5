import Relief.Number.Elementary
import Relief.Number.Whole

/-!
# Headings

A heading is an azimuth in degrees. `Heading.ofDegrees` wraps an angle into one turn,
`Heading.opposite` turns round, and `Heading.step` is the step of length one that a ray takes
along the heading.
-/

namespace Relief

/-- A point of the image plane, or a step in it. Pixel `(x, y)` is the square around the point
    `(x, y)`. -/
structure Point where
  x : Float
  y : Float

namespace Point

/-- The point one step further. -/
@[inline] def advance (p step : Point) : Point :=
  ⟨p.x + step.x, p.y + step.y⟩

/-- The distance of two points. -/
@[inline] def distance (p q : Point) : Float :=
  let dx := p.x - q.x
  let dy := p.y - q.y
  (dx * dx + dy * dy).sqrt

/-- The middle of the pixel that a point lies in, a point between two going away from zero. -/
@[inline] def round (p : Point) : Point :=
  ⟨Double.round p.x, Double.round p.y⟩

end Point

/-- A direction in the image plane, in degrees from the positive `x` axis towards positive `y`. -/
structure Heading where
  degrees : Float

namespace Heading

/-- The heading of any angle: what is left of it after whole turns. -/
def ofDegrees (angle : Float) : Heading :=
  let rest := Double.remainder angle 360
  ⟨if rest < 0 then rest + 360 else rest⟩

/-- The heading half a turn away. -/
def opposite (h : Heading) : Heading :=
  ofDegrees (h.degrees + 180)

/-- One degree in radians. -/
def radiansPerDegree : Float :=
  3.141592653589793 / 180

/-- A component below `10 ^ -10` is what rounding left of zero. -/
def snap (v : Float) : Float :=
  if v.abs < 1e-10 then 0 else v

/-- The step along a heading: its cosine across and its sine down, so that a heading along an
    axis has a step along that axis exactly. -/
def step (h : Heading) : Point :=
  let (s, c) := Double.sinCos (h.degrees * radiansPerDegree)
  ⟨snap c, snap s⟩

end Heading

end Relief
