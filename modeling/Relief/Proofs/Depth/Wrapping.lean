import Relief.Proofs.Depth.Azimuths
import Relief.Proofs.Number.Stride

/-!
# Angles after whole turns

A heading is made of any angle by taking whole turns off, and `rest + 360` brings what is left of an
angle below zero up into the turn. This sum is rounded: what is left by less than half a unit below a
whole turn becomes the whole turn itself.

* `Double.rounded_lt_turn_iff`: what is rounded to less than a whole turn;
* `Heading.leftover`, `Heading.is_ofDegrees_rounded`: **the degrees are the number that is nearest to
  what is left of an angle**;
* `Heading.le_leftover_iff`: **almost a turn is left only of an angle that is almost zero**, as doubles
  that are farther away lie too far apart;
* `Heading.Within.opposite`: **to turn round leads into the turn, also from its end**;
* `headings_stay_in_turn`: all of it, after any number of half turns.
-/

namespace Relief

open Double (Is Fits rounded)

/-! ## 1. Below a whole turn -/

namespace Double

/-- A half goes up to an even number. -/
theorem nearestEven_sub_half {n : ℕ} (pos : 0 < n) (even : n % 2 = 0) :
    nearestEven (n - 1 / 2) = n := by
  obtain ⟨k, rfl⟩ : ∃ k, n = k + 1 := ⟨n - 1, by omega⟩
  have whole : ⌊((k + 1 : ℕ) : ℚ) - 1 / 2⌋₊ = k := by
    rw [Nat.floor_eq_iff] <;> push_cast
    · constructor <;> linarith
    · have := Nat.cast_nonneg (α := ℚ) k
      linarith
  have rest : ((k + 1 : ℕ) : ℚ) - 1 / 2 - k = 1 / 2 := by
    push_cast
    ring
  unfold nearestEven
  rw [whole, rest, accuracyOf_half]
  show k + k % 2 = k + 1
  omega

/-- Half a unit below a whole turn is a tie, which goes to the turn. -/
theorem rounded_half_below_turn : rounded (360 - 2 ^ (-45 : ℤ)) = 360 := by
  have log : Int.log 2 (360 - 2 ^ (-45 : ℤ) : ℚ) = 8 := log_eq (by norm_num) (by norm_num)
  have unit : unitOf (360 - 2 ^ (-45 : ℤ)) = -44 := by
    unfold unitOf
    rw [log]
    rfl
  have tie : (360 - 2 ^ (-45 : ℤ) : ℚ) / 2 ^ (-44 : ℤ) = (360 * 2 ^ 44 : ℕ) - 1 / 2 := by norm_num
  rw [rounded_of_nonneg (by norm_num), unitsOf, unit, tie,
    nearestEven_sub_half (by norm_num) (by norm_num)]
  norm_num

/-- **What is rounded to less than a whole turn.** -/
theorem rounded_lt_turn_iff {p : ℚ} : rounded p < 360 ↔ p < 360 - 2 ^ (-45 : ℤ) := by
  constructor
  · intro below
    by_contra near
    have up := rounded_mono (not_lt.mp near)
    rw [rounded_half_below_turn] at up
    exact up.not_gt below
  · intro below
    rcases le_or_gt p 0 with low | pos
    · linarith [rounded_le_of_fits (.inl rfl) low]
    · have turn : (360 : ℚ) - 2 ^ (-45 : ℤ) < 2 ^ (8 + 1) := by norm_num
      have up := rounded_le_add pos (below.trans turn)
      rw [pow_mul_grain] at up
      norm_num at up below
      linarith

end Double

namespace Heading

variable {x : Float} {q : ℚ}

/-! ## 2. What is left -/

/-- What is left of an angle after whole turns. -/
def leftover (q : ℚ) : ℚ :=
  q - 360 * ⌊q / 360⌋

theorem leftover_nonneg (q : ℚ) : 0 ≤ leftover q := by
  have := Int.floor_le (q / 360)
  rw [le_div_iff₀ (by norm_num)] at this
  unfold leftover
  linarith

theorem leftover_lt (q : ℚ) : leftover q < 360 := by
  have := Int.lt_floor_add_one (q / 360)
  rw [div_lt_iff₀ (by norm_num)] at this
  unfold leftover
  linarith

/-- Whatever is within one turn of an angle after whole turns is what is left. -/
theorem eq_leftover {r : ℚ} {k : ℤ} (h : q = r + 360 * k) (low : 0 ≤ r) (high : r < 360) :
    leftover q = r := by
  have turns : ⌊q / 360⌋ = k := by
    rw [Int.floor_eq_iff, le_div_iff₀ (by norm_num), div_lt_iff₀ (by norm_num)]
    constructor <;> linarith
  unfold leftover
  rw [turns, h]
  ring

/-- What is left of an angle that is not negative is what `is_ofDegrees` says. -/
theorem leftover_of_nonneg (low : 0 ≤ q) : leftover q = q - 360 * ⌊q / 360⌋₊ := by
  unfold leftover
  rw [← natCast_floor_eq_intCast_floor (by positivity)]

/-- The remainder of an angle below zero is within one turn below zero, and some turns off the angle. -/
theorem exists_remainder (hx : Is x q) (neg : q < 0) :
    ∃ k : ℕ, Is (Double.remainder x 360) (q + 360 * k) ∧ -360 < q + 360 * k ∧ q + 360 * k ≤ 0 := by
  have rest := hx.remainder_signed (n := 360) (by norm_num) (by norm_num)
  rw [if_pos neg] at rest
  have below := Nat.floor_le (div_nonneg (neg_nonneg.mpr neg.le) (Nat.cast_nonneg 360))
  have above := Nat.lt_floor_add_one (-q / (360 : ℕ))
  generalize ⌊-q / (360 : ℕ)⌋₊ = k at rest below above
  rw [le_div_iff₀ (by norm_num)] at below
  rw [div_lt_iff₀ (by norm_num)] at above
  push_cast at rest below above
  exact ⟨k, rest, by linarith, by linarith⟩

/-- **The degrees of a heading are the number that is nearest to what is left of the angle.** -/
theorem is_ofDegrees_rounded (hx : Is x q) : Is (ofDegrees x).degrees (rounded (leftover q)) := by
  rcases le_or_gt 0 q with low | neg
  · have exact := is_ofDegrees hx low
    rw [← leftover_of_nonneg low] at exact
    rwa [Double.rounded_of_fits exact.fits]
  · obtain ⟨k, rest, above, below⟩ := exists_remainder hx neg
    have sign := rest.lt_iff Double.is_zero
    unfold ofDegrees
    dsimp only
    split
    · rename_i negative
      have left : leftover q = q + 360 * k + 360 :=
        eq_leftover (k := -(k + 1)) (by push_cast; ring) (by linarith) (by linarith [sign.mp negative])
      rw [left]
      refine rest.add_rounded is_turn (is_turn.fits.abs_le_greatest ?_)
      rw [abs_of_nonneg (by linarith)]
      linarith
    · rename_i upright
      have zero : q + 360 * k = 0 := below.eq_of_not_lt fun short => upright (sign.mpr short)
      have left : leftover q = 0 :=
        eq_leftover (k := -k) (by push_cast; linarith) le_rfl (by norm_num)
      rw [left, Double.rounded_zero, ← zero]
      exact rest

/-- An angle that is not close to zero is a whole multiple of a unit, and so is what is left of it. -/
theorem leftover_add_unit_le (fits : Fits q) (far : 256 ≤ |q|) : leftover q + 2 ^ (-44 : ℤ) ≤ 360 := by
  obtain ⟨n, rfl⟩ := fits.exists_multiple (e := -44) (.inr (by norm_num; exact far))
  have lt := leftover_lt (n * 2 ^ (-44 : ℤ))
  have units : leftover (n * 2 ^ (-44 : ℤ))
      = (n - 360 * 2 ^ 44 * ⌊(n : ℚ) * 2 ^ (-44 : ℤ) / 360⌋ : ℤ) * 2 ^ (-44 : ℤ) := by
    unfold leftover
    push_cast
    ring
  have turn : (360 : ℚ) = (360 * 2 ^ 44 : ℤ) * 2 ^ (-44 : ℤ) := by norm_num
  rw [units, turn] at lt ⊢
  exact Double.add_unit_le (by positivity) lt

/-- **Almost a turn is left only of an angle that is almost zero.** -/
theorem le_leftover_iff (fits : Fits q) :
    360 - 2 ^ (-45 : ℤ) ≤ leftover q ↔ -2 ^ (-45 : ℤ) ≤ q ∧ q < 0 := by
  have small : (2 : ℚ) ^ (-45 : ℤ) < 1 := by norm_num
  constructor
  · intro near
    rcases le_or_gt 256 |q| with far | close
    · have unit : (2 : ℚ) ^ (-45 : ℤ) < 2 ^ (-44 : ℤ) := by norm_num
      linarith [leftover_add_unit_le fits far]
    · obtain ⟨low, high⟩ := abs_lt.mp close
      rcases le_or_gt 0 q with right | neg
      · rw [eq_leftover (r := q) (k := 0) (by push_cast; ring) right (by linarith)] at near
        linarith
      · rw [eq_leftover (r := q + 360) (k := -1) (by push_cast; ring) (by linarith)
          (by linarith)] at near
        exact ⟨by linarith, neg⟩
  · rintro ⟨low, neg⟩
    have left : leftover q = q + 360 :=
      eq_leftover (k := -1) (by push_cast; ring) (by linarith) (by linarith)
    linarith

/-- What the degrees of a heading are below a whole turn. -/
theorem degrees_lt_iff (hx : Is x q) :
    (ofDegrees x).degrees < 360 ↔ ¬ (-2 ^ (-45 : ℤ) ≤ q ∧ q < 0) := by
  rw [(is_ofDegrees_rounded hx).lt_iff is_turn, Double.rounded_lt_turn_iff, ← not_le,
    le_leftover_iff hx.fits]

/-! ## 3. Half turns -/

/-- The degrees are those of a turn, of which the end may be one. -/
def Within (h : Heading) : Prop :=
  ∃ d, Is h.degrees d ∧ 0 ≤ d ∧ d ≤ 360

theorem Within.degrees_le {h : Heading} (hw : h.Within) : 0 ≤ h.degrees ∧ h.degrees ≤ 360 := by
  obtain ⟨d, exact, low, high⟩ := hw
  exact ⟨(Double.is_zero.le_iff exact).mpr low, (exact.le_iff is_turn).mpr high⟩

/-- The end of a turn is one number. -/
theorem Within.eq_turn {h : Heading} (hw : h.Within) (not_lt : ¬ h.degrees < 360) :
    h.degrees = 360 := by
  obtain ⟨d, exact, -, high⟩ := hw
  obtain rfl : d = 360 :=
    le_antisymm high (le_of_not_gt fun lt => not_lt ((exact.lt_iff is_turn).mpr lt))
  exact exact.unique is_turn (by norm_num)

theorem within_ofDegrees (hx : Is x q) : (ofDegrees x).Within :=
  ⟨_, is_ofDegrees_rounded hx, Double.rounded_nonneg (leftover_nonneg q),
    Double.rounded_le_of_fits is_turn.fits (leftover_lt q).le⟩

/-- **To turn round leads into the turn**, also from its end. -/
theorem Within.opposite {h : Heading} (hw : h.Within) :
    h.opposite.Within ∧ h.opposite.degrees < 360 := by
  obtain ⟨d, exact, low, high⟩ := hw
  have sum : Is (h.degrees + 180) (rounded (d + 180)) := by
    have fits : Fits 540 := by exact_mod_cast Double.fits_intCast (n := 540) (by decide)
    refine exact.add_rounded Sweep.is_half_turn (fits.abs_le_greatest ?_)
    rw [abs_of_nonneg (by linarith)]
    linarith
  have upright : 0 ≤ rounded (d + 180) := Double.rounded_nonneg (by linarith)
  exact ⟨within_ofDegrees sum, (degrees_lt_iff sum).mpr fun below => below.2.not_ge upright⟩

/-- **The degrees stay within the turn.** The induction is on the half turns, and its end is left with
    the first of them. -/
theorem Within.opposite_iterate {h : Heading} (hw : h.Within) (turns : ℕ) :
    (Heading.opposite^[turns] h).Within ∧
      (turns ≠ 0 → (Heading.opposite^[turns] h).degrees < 360) := by
  induction turns with
  | zero => exact ⟨hw, fun turned => absurd rfl turned⟩
  | succ turns ih =>
    rw [Function.iterate_succ_apply']
    exact ⟨ih.1.opposite.1, fun _ => ih.1.opposite.2⟩

end Heading

open Heading in
/-- **Headings stay in their turn, but for angles just below zero.** The degrees of a finite angle are
    the number that is nearest to what is left of it after whole turns, and they stay between zero and
    a whole turn, whatever half turns follow. They are less than a whole turn, but for those of an angle
    that is below zero by half a unit of the numbers below the turn or less: these are the whole turn
    itself, and the first half turn leads from there to `180`. -/
theorem headings_stay_in_turn {x : Float} (finite : x.isFinite = true) :
    ∃ q, Is x q ∧ Is (ofDegrees x).degrees (rounded (q - 360 * ⌊q / 360⌋)) ∧
      (∀ turns, 0 ≤ (opposite^[turns] (ofDegrees x)).degrees ∧
        (opposite^[turns] (ofDegrees x)).degrees ≤ 360 ∧
        ((opposite^[turns] (ofDegrees x)).degrees < 360 ↔
          ¬ (turns = 0 ∧ -2 ^ (-45 : ℤ) ≤ q ∧ q < 0))) ∧
      (-2 ^ (-45 : ℤ) ≤ q ∧ q < 0 →
        (ofDegrees x).degrees = 360 ∧ (ofDegrees x).opposite.degrees = 180) := by
  have hx : Is x (Double.valueOf (Double.unpack x)) := ⟨Double.exact_unpack finite, rfl⟩
  have within := within_ofDegrees hx
  refine ⟨_, hx, is_ofDegrees_rounded hx, fun turns => ?_, fun near => ?_⟩
  · obtain ⟨stays, inside⟩ := within.opposite_iterate turns
    refine ⟨stays.degrees_le.1, stays.degrees_le.2, ?_⟩
    rcases eq_or_ne turns 0 with rfl | turned
    · rw [Function.iterate_zero, id_eq, degrees_lt_iff hx]
      simp only [true_and]
    · exact iff_of_true (inside turned) fun still => turned still.1
  · have turn := within.eq_turn fun lt => (degrees_lt_iff hx).mp lt near
    refine ⟨turn, ?_⟩
    unfold opposite
    rw [turn]
    decide +kernel

/-- An angle that is below zero by next to nothing. -/
theorem hair_is_a_whole_turn :
    (-1e-20 : Float).isFinite = true ∧ ¬ (0 ≤ (Heading.ofDegrees (-1e-20)).degrees ∧
      (Heading.ofDegrees (-1e-20)).degrees < 360) := by
  decide +kernel

theorem left_turn_stays_in_turn :
    (-90 : Float).isFinite = true ∧ ∀ turns,
      0 ≤ (Heading.opposite^[turns] (Heading.ofDegrees (-90))).degrees ∧
      (Heading.opposite^[turns] (Heading.ofDegrees (-90))).degrees < 360 := by
  have finite : (-90 : Float).isFinite = true := by decide +kernel
  obtain ⟨q, exact, -, stays, -⟩ := headings_stay_in_turn finite
  have value : q = -90 := by
    have literal : Is 90 90 := by
      have word := Double.is_literal (x := 90) (n := 90) (by decide +kernel) (by decide)
      exact_mod_cast word
    exact exact.value.symm.trans literal.neg.value
  refine ⟨finite, fun turns => ⟨(stays turns).1, (stays turns).2.2.mpr fun near => ?_⟩⟩
  rw [value] at near
  norm_num at near

end Relief
