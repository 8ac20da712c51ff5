import Relief.Depth.Heading
import Relief.Image
import Relief.Number.Whole
import Std.Data.HashSet

/-!
# Sweeps

A sweep is a list of headings, in the order in which they are integrated. `Sweep.plan` refines the
circle by halves: first along the `x` axis and back, then the quarter turns, then the eighths, …,
each heading followed by its opposite. So a sweep that is cut short is still spread evenly, and how
many headings are planned is a fraction of those that the image can tell apart.

`Sweep.deal` hands the headings out in turn, one to each worker and round again.
-/

namespace Relief

/-- Headings in the order of their integration. -/
structure Sweep where
  headings : List Heading

namespace Sweep

/-- The sweep without headings. -/
def empty : Sweep :=
  ⟨[]⟩

/-- How many headings there are. -/
def length (s : Sweep) : Nat :=
  s.headings.length

/-- Whether a heading of exactly this many degrees is planned. -/
def contains (s : Sweep) (degrees : Float) : Bool :=
  s.headings.any fun h => h.degrees == degrees

/-! ## 1. How many headings -/

/-- The most headings that an image can tell apart: as many as it has edge pixels, counting the
    corners twice. There are always two. -/
def maximum (e : Extent) : Nat :=
  max 2 (2 * e.width.toNat + 2 * e.height.toNat)

/-- A quality as a fraction: held between zero and one, zero where it is no finite number. -/
def fraction (quality : Float32) : Float :=
  if quality.isFinite then
    let q := Single.toDouble quality
    if q < 0 then 0 else if 1 < q then 1 else q
  else 0

/-- How many headings are planned: the given fraction of the maximum, rounded up to an even
    number, and at least two. -/
def target (e : Extent) (quality : Float32) : Nat :=
  let wanted := max 2 (Double.ceilNat (fraction quality * (maximum e).toUInt64.toFloat))
  min (wanted + wanted % 2) (maximum e)

/-! ## 2. Refining the circle -/

/-- A plan in the making: the azimuths that have been planned, and the headings so far, the last
    one first. -/
structure Draft where
  planned : Std.HashSet UInt64
  reversed : List Heading
  size : Nat

namespace Draft

/-- No heading yet. -/
def empty : Draft :=
  ⟨∅, [], 0⟩

/-- Plans an azimuth and its opposite, unless it has been planned. -/
def addPair (d : Draft) (azimuth : Float) : Draft :=
  if d.planned.contains azimuth.toBits then d
  else
    { planned := d.planned.insert azimuth.toBits
      reversed := .ofDegrees (azimuth + 180) :: .ofDegrees azimuth :: d.reversed
      size := d.size + 2 }

/-- Plans the odd multiples of `step`, from the `k`-fold on, as far as half a turn, until `target`
    headings are planned. -/
def addLevel (target : Nat) (step : Float) : (fuel : Nat) → (k : UInt32) → Draft → Draft
  | 0, _, d => d
  | fuel + 1, k, d =>
    if k.toFloat * step < 180 ∧ d.size < target then
      addLevel target step fuel (k + 2) (d.addPair (k.toFloat * step))
    else d

/-- Halves `step` and plans the new azimuths, again and again, until `target` headings are planned
    or the step is below the finest that the image can tell apart. -/
def refine (target : Nat) (finest : Float) : (fuel : Nat) → (step : Float) → Draft → Draft
  | 0, _, d => d
  | fuel + 1, step, d =>
    if d.size < target ∧ finest ≤ step then
      refine target finest fuel (step / 2) (addLevel target (step / 2) target 1 d)
    else d

end Draft

/-- The sweep for an image of the given extent and a quality. -/
def plan (e : Extent) (quality : Float32) : Sweep :=
  let count := maximum e
  let finest := 360 / count.toUInt64.toFloat
  let draft := (Draft.empty.addPair 0).refine (target e quality) finest (count.log2 + 1) 180
  ⟨draft.reversed.reverse⟩

/-! ## 3. Dealing -/

/-- Every `n`-th element of a list, the first being the one at place `i`. -/
def everyNth {α : Type} (n : Nat) : (i : Nat) → List α → List α
  | _, [] => []
  | 0, a :: rest => a :: everyNth n (n - 1) rest
  | i + 1, _ :: rest => everyNth n i rest

/-- Deals the headings to as many hands as there are parts, and to one at least. -/
def deal (s : Sweep) (parts : Nat) : List (List Heading) :=
  (List.range (max parts 1)).map fun i => everyNth (max parts 1) i s.headings

end Sweep

end Relief
