import Relief.Proofs.Depth.Once

/-!
# Rays that are skipped

A ray along an axis that starts beside the image is not marched at all. This leaves nothing out: to add
a zero leaves a coordinate beside the image, so that such a ray comes to no pixel, from wherever it
starts.

* `Double.cases_number`: no number, an infinity, or a number;
* `Launch.Beside`: what is not rounded to one of the pixels, which `Beside.add` keeps;
* `Launch.Misses`: a ray that stays beside the image in one of its coordinates;
* `misses_of_not_reaches`, `visits_of_not_reaches`: the rays that are skipped do, and **they would
  visit nothing**;
* `Integration.marchEvery`: the rays of a heading, none of them skipped;
* `skipping_changes_nothing`: **skipping rays changes nothing.**
-/

namespace Relief

open Int (away)
open Double

/-! ## 1. Numbers and zeros -/

namespace Double

open Float.Model (UnpackedFloat Format)

variable {x y : Float} {p q : ℚ}

theorem cases_number (x : Float) :
    x = nan ∨ (∃ s, x = pack (.infinity s)) ∨ ∃ q, Is x q := by
  have finite (hx : (unpack x).isFinite = true) : ∃ q, Is x q := ⟨_, exact_unpack hx, rfl⟩
  cases hu : unpack x with
  | notANumber => exact .inl (unpack_injective (hu.trans unpack_nan.symm))
  | infinity s => exact .inr (.inl ⟨s, unpack_injective (hu.trans (unpack_infinity s).symm)⟩)
  | zero s => exact .inr (.inr (finite (by rw [hu]; rfl)))
  | finite s m e hm => exact .inr (.inr (finite (by rw [hu]; rfl)))

theorem Is.beq_iff (hx : Is x p) (hy : Is y q) : (x == y) = true ↔ p = q := by
  show (UnpackedFloat.compare (unpack x) (unpack y) == some .eq) = true ↔ _
  rw [compare_exact hx.exact hy.exact, hx.value, hy.value, ← compare_eq_iff_eq]
  simp

/-- **What is equal to zero is a zero**, of either sign. -/
theorem is_zero_of_beq (h : (x == 0) = true) : Is x 0 := by
  rcases cases_number x with rfl | ⟨s, rfl⟩ | ⟨q, hx⟩
  · exact absurd h (by decide +kernel)
  · exact absurd h (by cases s <;> decide +kernel)
  · exact (hx.beq_iff is_zero).mp h ▸ hx

/-- An infinity stays where it is. -/
theorem infinity_add (s : UnpackedFloat.Sign) (hy : Is y q) :
    pack (.infinity s) + y = pack (.infinity s) := by
  show pack (UnpackedFloat.add Format.binary64 (unpack (pack (.infinity s))) (unpack y)) = _
  have ey := hy.exact
  rw [unpack_infinity]
  generalize unpack y = v at ey ⊢
  cases ey <;> rfl

end Double

/-! ## 2. Beside the image -/

namespace Launch

/-- A coordinate that is not rounded to one of the first `size` pixels. -/
inductive Beside (size : UInt32) (x : Float) : Prop where
  | nowhere (h : x = nan)
  | endless (s : Float.Model.UnpackedFloat.Sign) (h : x = pack (.infinity s))
  | number (q : ℚ) (h : Is x q) (off : ¬ (0 ≤ away q ∧ away q < size.toNat))

variable {size : UInt32} {x z : Float}

theorem beside_of_not_isInside (h : isInside x size = false) : Beside size x := by
  rcases cases_number x with lost | ⟨s, same⟩ | ⟨q, hx⟩
  · exact .nowhere lost
  · exact .endless s same
  · refine .number q hx fun ⟨low, high⟩ => Bool.eq_false_iff.mp h ?_
    have first : 0 ≤ Double.round x :=
      (is_zero.le_iff hx.round).mpr (Int.cast_nonneg low)
    have last : Double.round x < size.toFloat :=
      (hx.round.lt_iff (is_word size)).mpr (by exact_mod_cast high)
    exact Bool.and_eq_true_iff.mpr ⟨decide_eq_true first, decide_eq_true last⟩

/-- **To add a zero leaves a coordinate beside the image.** -/
theorem Beside.add (h : Beside size x) (hz : Is z 0) : Beside size (x + z) := by
  cases h with
  | nowhere lost => exact .nowhere (by rw [lost, nan_add])
  | endless s same => exact .endless s (by rw [same, infinity_add s hz])
  | number q hx off =>
    have sum := hx.add hz (by rw [add_zero]; exact hx.fits)
    rw [add_zero] at sum
    exact .number q sum off

/-- A number beside the image is in none of its columns or rows. -/
theorem Beside.truncate (h : Beside size x) (number : x ≠ nan) :
    ¬ (0 ≤ truncate (Double.round x) ∧ truncate (Double.round x) < size.toNat) := by
  have short := size.toNat_lt
  cases h with
  | nowhere lost => exact absurd lost number
  | endless s same =>
    have far := natAbs_truncate_infinity s
    rw [← same] at far
    omega
  | number q hx off =>
    by_cases near : (away q).natAbs < 2 ^ 53
    · rwa [hx.round.truncate near]
    · have size' : |((away q : ℤ) : ℚ)| = ((away q).natAbs : ℕ) := by
        rw [Nat.cast_natAbs, Int.cast_abs]
      have far := hx.round.natAbs_truncate
      rw [size', Nat.floor_natCast] at far
      omega

/-! ## 3. Rays beside the image -/

/-- A step along an axis, from beside the image. -/
def Misses (image : Extent) (step position : Spot Float) : Prop :=
  (Is step.x 0 ∧ Beside image.width position.x) ∨ (Is step.y 0 ∧ Beside image.height position.y)

variable {image e : Extent} {layout : Layout} {step position : Spot Float}

/-- **Where a ray cannot meet the image, it is beside it.** -/
theorem misses_of_not_reaches {start step : Point}
    (h : (plan image layout).reaches start step = false) :
    Misses image step.toSpot start.toSpot := by
  have zero {x : Float} (h : (x != 0) = false) : Is x 0 :=
    is_zero_of_beq (Bool.not_eq_eq_eq_not.mp h)
  rcases Bool.and_eq_false_iff.mp h with across | down
  · obtain ⟨still, off⟩ := Bool.or_eq_false_iff.mp across
    exact .inl ⟨zero still, beside_of_not_isInside off⟩
  · obtain ⟨still, off⟩ := Bool.or_eq_false_iff.mp down
    exact .inr ⟨zero still, beside_of_not_isInside off⟩

theorem Misses.advance (h : Misses image step position) :
    Misses image step (position.advance step) := by
  rcases h with ⟨still, off⟩ | ⟨still, off⟩
  · exact .inl ⟨still, off.add still⟩
  · exact .inr ⟨still, off.add still⟩

/-- What is beside the image and in the region is in no pixel. -/
theorem Misses.slot? (h : Misses image step position)
    (inside : Trail.contains layout e position.round = true) :
    Trail.slot? image position.round.cell = none := by
  obtain ⟨numberX, numberY⟩ := Trail.not_nan_of_contains inside
  refine if_neg fun ⟨lowX, highX, lowY, highY⟩ => ?_
  rcases h with ⟨-, off⟩ | ⟨-, off⟩
  · exact off.truncate numberX ⟨lowX, highX⟩
  · exact off.truncate numberY ⟨lowY, highY⟩

/-- **A ray beside the image comes to no pixel**, by induction on its steps. -/
theorem Misses.march (h : Misses image step position) (fuel : ℕ) (last : Option Ray.Cell) :
    (Trail.march layout e step fuel position last).filterMap (Trail.slot? image) = [] := by
  induction fuel generalizing position last with
  | zero => rfl
  | succ fuel ih =>
    have rest := ih h.advance
    rw [Trail.march]
    by_cases inside : Trail.contains layout e position.round = true
    · rw [if_pos inside]
      dsimp only
      split
      · exact rest last
      · rw [List.filterMap_cons_none (h.slot? inside)]
        exact rest (some position.round.cell)
    · rw [if_neg inside]
      rfl

/-- **A ray that is skipped would visit nothing.** -/
theorem visits_of_not_reaches (slopes : Slopes) {start step : Point}
    (h : (plan slopes.extent layout).reaches start step = false) :
    Ray.visits slopes (plan slopes.extent layout) step start = [] := by
  have missed : (Trail.march layout slopes.extent step.toSpot
      (Trail.maxSteps Float layout slopes.extent) start.toSpot none).filterMap
        (Trail.slot? slopes.extent) = [] :=
    (misses_of_not_reaches h).march _ none
  have slots := Trail.slots_visits layout slopes.extent slopes step start
  exact List.map_eq_nil_iff.mp (slots.trans missed)

end Launch

/-! ## 4. Headings -/

namespace Integration

/-- Marches the rays from some launch points as `marchRays` does, but skips none of them. -/
def marchEvery (slopes : Slopes) (launch : Launch) (step : Point) :
    List Point → Tally → Course (Tally × Ending)
  | [], tally => .done (tally, .complete)
  | start :: rest, tally =>
    .look fun superseded =>
      if superseded then .done (tally, .withdrawn)
      else
        match tally.absorb (Ray.visits slopes launch step start) with
        | (tally, true) => marchEvery slopes launch step rest tally
        | (tally, false) => .done (tally, .strayed)

theorem marchRays_eq_marchEvery (slopes : Slopes) (layout : Layout) (step : Point)
    (starts : List Point) (tally : Tally) :
    marchRays slopes (.plan slopes.extent layout) step starts tally
      = marchEvery slopes (.plan slopes.extent layout) step starts tally := by
  induction starts generalizing tally with
  | nil => rfl
  | cons start rest ih =>
    simp only [marchRays, marchEvery, ih]
    cases reached : (Launch.plan slopes.extent layout).reaches start step with
    | true => rfl
    | false =>
      rw [Launch.visits_of_not_reaches slopes reached]
      rfl

end Integration

/-- **Skipping rays changes nothing.** A ray that is said not to meet the image adds nothing to any
    tally, from wherever it starts and along whatever step it goes. So to march the rays of a heading
    without a look at that is the same course: before every observer it leaves the same tally, and it
    ends in the same way. -/
theorem skipping_changes_nothing (slopes : Slopes) (layout : Layout) :
    let launch := Launch.plan slopes.extent layout
    (∀ start step : Point, launch.reaches start step = false →
      Ray.visits slopes launch step start = []) ∧
    ∀ (heading : Heading) (tally : Tally),
      Integration.marchHeading slopes launch heading tally
        = Integration.marchEvery slopes launch heading.opposite.step launch.points tally :=
  ⟨fun _ _ => Launch.visits_of_not_reaches slopes, fun heading =>
    Integration.marchRays_eq_marchEvery slopes layout heading.opposite.step _⟩

/-- A ray up the image from half a pixel beside a column of four, where a coordinate is rounded away
    from the image. -/
theorem column_is_missed :
    (Launch.plan ⟨1, 4⟩ .circular).reaches ⟨-0.5, 5⟩ ⟨0, -1⟩ = false ∧
      Ray.visits Crew.column (.plan ⟨1, 4⟩ .circular) ⟨0, -1⟩ ⟨-0.5, 5⟩ = [] :=
  have misses : (Launch.plan ⟨1, 4⟩ .circular).reaches ⟨-0.5, 5⟩ ⟨0, -1⟩ = false := by
    decide +kernel
  ⟨misses, (skipping_changes_nothing Crew.column .circular).1 _ _ misses⟩

end Relief
