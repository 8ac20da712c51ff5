import Relief.Shading.Build

/-!
# Finishing a depth map

Two corrections finish a depth map, each of them if it is asked for: a term that grows with the
square of the distance from the middle of the image, against perspective, and a mask that blackens
the pixels whose surface is unknown, or makes them transparent.

* `Finish.depthOf`: the expression;
* `Finish.image`: the finished map, and `Finish.course`, which reports what is done for it.

A map that needs neither correction is not drawn again.
-/

namespace Relief

/-- The corrections that are asked for. -/
structure Finish where
  /-- How strong the term against perspective is, in grey levels for each squared pixel. -/
  perspective : Float32 := 0
  /-- Whether masked pixels are black. -/
  blackens : Bool := true
  /-- Whether masked pixels are transparent. -/
  clears : Bool := false
  deriving Inhabited

namespace Finish

open Shading

/-- The strength of the term against perspective; none if what is given is no finite number. -/
def factor (f : Finish) : Float32 :=
  if f.perspective.isFinite then f.perspective else 0

/-- The mask, if it is used at all. -/
def mask? (f : Finish) (mask : Option Image) : Option Image :=
  if f.blackens || f.clears then mask else none

/-- Whether the map is left as it is. -/
def isIdle (f : Finish) (mask : Option Image) : Bool :=
  f.factor == 0 && (f.mask? mask).isNone

/-! ## 1. The expression -/

/-- Adds the squared distance from the middle of the image to a value, times the given strength. -/
def addDistance (strength : Float32) (value : Node) : Build Node := do
  let place ← Build.call .position
  let size ← Build.call .resolution
  let half ← Build.float 0.5
  let middle ← Build.binary .mul size half
  let fromMiddle ← Build.binary .sub place middle
  let squared ← Build.builtin .dot [fromMiddle, fromMiddle]
  let strength ← Build.float strength
  let term ← Build.binary .mul squared strength
  Build.binary .add value term

/-- A channel value from half of one step on is more than zero. -/
def edge : Float32 :=
  0.5 / 255

/-- One where the surface is known, zero where it is not: where a channel of the mask is zero. -/
def known (mask : Texture) : Build Node := do
  let texel ← Build.call (.texture mask)
  let red ← Build.lane texel 0
  let green ← Build.lane texel 1
  let blue ← Build.lane texel 2
  let least ← Build.builtin .min [green, blue]
  let least ← Build.builtin .min [red, least]
  let edge ← Build.float edge
  Build.builtin .step [edge, least]

/-- The finished value and its alpha, after a mask. -/
def applyMask (f : Finish) (mask : Option Image) (value alpha : Node) : Build (Node × Node) :=
  match mask with
  | none => pure (value, alpha)
  | some mask => do
    let keep ← known ⟨1, mask⟩
    let value ← if f.blackens then Build.binary .mul value keep else pure value
    pure (value, if f.clears then keep else alpha)

/-- The expression over a depth map. -/
def depthOf (f : Finish) (depth : Image) (mask : Option Image) : Build Node := do
  let texel ← Build.call (.texture ⟨0, depth⟩)
  let value ← Build.lane texel 0
  let value ← if f.factor == 0 then pure value else addDistance (f.factor / 255) value
  let solid ← Build.float 1
  let (value, alpha) ← f.applyMask (f.mask? mask) value solid
  Build.call (.construct [value, value, value, alpha])

/-! ## 2. The finished map -/

/-- The finished map. -/
def image (f : Finish) (depth : Image) (mask : Option Image) : Except Failure Image :=
  if f.isIdle mask then .ok depth else (f.depthOf depth mask).image depth.toExtent

/-- Finishes a map, and reports it. -/
def course (f : Finish) (depth : Image) (mask : Option Image) : Course (Except Failure Image) :=
  .report (.finishBegins depth.toExtent) <|
    let drawn := if f.isIdle mask then .done (.ok depth)
      else (f.depthOf depth mask).draw depth.toExtent
    drawn.bind fun finished => .report .finishEnds (.done finished)

/-- **The course finishes the map.** -/
theorem result_course (f : Finish) (depth : Image) (mask : Option Image) :
    (f.course depth mask).result = f.image depth mask := by
  unfold course image
  cases f.isIdle mask <;> simp [Build.result_draw]

end Finish

end Relief
