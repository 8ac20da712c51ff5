import Relief.Depth.Tally
import Relief.Number.Whole
import Relief.Run.Course

/-!
# Grey levels from a tally

A pixel that few rays have visited has a small sum, whatever its depth. So each sum is first brought
to the scale of the pixel with the most visits, and then the range of all pixels is spread over the
256 grey levels. Where all pixels are alike, there is no range, and the map is a middle grey.

* `Levels.scaled`: the sums on one scale;
* `Levels.level`: the grey level of a scaled sum in a range;
* `Levels.image`: the depth map of a tally, and `Levels.course`, which reports what is done for it.
-/

namespace Relief.Levels

/-! ## 1. One scale -/

/-- The most visits to a pixel. -/
def mostVisits (t : Tally) : UInt32 :=
  t.counts.foldl (fun most count => if most < count then count else most) 0

/-- The visits to a pixel that brought something: all but the one that opened it, and at least
    one. -/
def weight (count : UInt32) : UInt32 :=
  if count ≤ 1 then 1 else count - 1

/-- The sum of a pixel as it would be with the most visits. -/
def scale (most : UInt32) (sum : Int32) (count : UInt32) : Float :=
  Double.ofInt sum.toInt * most.toFloat / (weight count).toFloat

/-- The sums of a tally, on one scale. -/
def scaled (t : Tally) : Array Float :=
  let most := mostVisits t
  t.sums.zipWith (scale most) t.counts

/-! ## 2. Grey levels -/

/-- The least and the greatest of some numbers. -/
structure Range where
  low : Float
  high : Float

/-- The range of no number. -/
def Range.empty : Range :=
  ⟨1 / 0, -1 / 0⟩

/-- The range that has one more number in it. -/
def Range.include (r : Range) (v : Float) : Range :=
  ⟨if v < r.low then v else r.low, if r.high < v then v else r.high⟩

/-- The range of some numbers. -/
def Range.of (values : Array Float) : Range :=
  values.foldl Range.include .empty

/-- The grey level of a pixel of a flat map. -/
def flat : UInt8 :=
  128

/-- The grey level of a number in a range. -/
def level (r : Range) (v : Float) : UInt8 :=
  let span := r.high - r.low
  if 0 < span then .ofNat (Double.toInt 0 255 (Double.round ((v - r.low) / span * 255))).toNat
  else flat

/-! ## 3. Depth maps -/

theorem size_scaled (t : Tally) : (scaled t).size = t.extent.area := by
  simp [scaled, t.size_sums, t.size_counts]

/-- The depth map of a tally: an opaque grey pixel for each sum. -/
def image (t : Tally) : Image :=
  let values := scaled t
  let range := Range.of values
  { toExtent := t.extent
    pixels := values.map fun v => .grey (level range v)
    size_pixels := by rw [Array.size_map]; exact size_scaled t }

/-- Makes the depth map of a tally, and reports it. -/
def course (t : Tally) : Course Image :=
  .report (.levellingBegins t.extent) <|
    let made := .report .levellingEnds (.done (image t))
    if t.overflowed then .report (.overflowNoticed t.extent) made else made

/-- **The course makes the depth map of the tally.** -/
theorem result_course (t : Tally) : (course t).result = image t := by
  unfold course
  cases h : t.overflowed <;> simp

end Relief.Levels
