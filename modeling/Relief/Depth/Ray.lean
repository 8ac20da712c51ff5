import Relief.Depth.Launch
import Relief.Depth.Slopes
import Relief.Depth.Tally

/-!
# Rays

A ray marches from its launch point in steps of length one. Whenever it comes to another pixel of
the image than before, it takes the climb of the surface there off its running integral, and visits
the pixel with the result.

* `Ray.march`: the visits of the rest of a ray;
* `Ray.visits`: the visits of a whole ray.
-/

namespace Relief.Ray

/-- The running integral as it is tallied: rounded to a whole number, a half away from zero, and
    held in the range of a 32-bit word. -/
def quantize (integral : Float) : Int32 :=
  .ofInt (Double.toInt (-2 ^ 31) (2 ^ 31 - 1) (Double.round integral))

/-- A cell of the plane's unit grid, named by the whole coordinates of its middle. -/
structure Cell where
  x : Int
  y : Int
  deriving DecidableEq, Repr

/-- The cell that a point with whole coordinates is the middle of. -/
@[inline] def Cell.ofPoint (p : Point) : Cell :=
  ⟨Double.truncate p.x, Double.truncate p.y⟩

/-- Whether a ray that was last in `last` is still there. -/
@[inline] def Cell.isLast (c : Cell) : Option Cell → Bool
  | none => false
  | some last => last.x = c.x && last.y = c.y

/-- The visits of a ray that is at `position`, has just been in the cell `last`, and has the given
    running integral; `fuel` steps at most. -/
def march (slopes : Slopes) (launch : Launch) (step : Point) :
    (fuel : Nat) → (position : Point) → (last : Option Cell) → (integral : Float) → List Visit
  | 0, _, _, _ => []
  | fuel + 1, position, last, integral =>
    let rounded := position.round
    if launch.contains rounded then
      let cell := Cell.ofPoint rounded
      let next := position.advance step
      if cell.isLast last then march slopes launch step fuel next last integral
      else
        match slopes.extent.slot? cell.x cell.y with
        | none => march slopes launch step fuel next (some cell) integral
        | some slot =>
          match slopes.image.pixels[slot]? with
          | none => march slopes launch step fuel next (some cell) integral
          | some p =>
            let integral := integral - Slopes.climb p step.x step.y
            ⟨slot, quantize integral⟩ :: march slopes launch step fuel next (some cell) integral
    else []

/-- The visits of the ray that starts at a point. -/
def visits (slopes : Slopes) (launch : Launch) (step start : Point) : List Visit :=
  march slopes launch step launch.maxSteps start none 0

end Relief.Ray
