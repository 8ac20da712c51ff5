import Relief.Depth.Heading
import Relief.Proofs.Number.Doubles
import Relief.Proofs.Number.Rounding

/-!
# The unit circle

Sines and cosines are computed in fixed point with everything rounded, and rounded again in the end.
Still none of them leaves the range from minus one to one.

* `Fixed.series_between`: a sum whose terms change their sign and do not grow stays between zero and
  its first term, whatever has been rounded off;
* `Fixed.sineCosine_le`: **so sine and cosine are at most one in fixed point**;
* `Double.sinCos_bounded`: **and in double precision**, unless the angle is no finite number;
* `Heading.step_bounded`: the step along a heading is at most one long across and down.
-/

namespace Relief

/-! ## 1. Alternating series -/

namespace Fixed

/-- The next term has the other sign and is no greater. -/
structure Alternates (next : ℕ → ℤ → ℤ) : Prop where
  down : ∀ k term, 0 ≤ term → -term ≤ next (k + 1) term ∧ next (k + 1) term ≤ 0
  up : ∀ k term, term ≤ 0 → 0 ≤ next (k + 1) term ∧ next (k + 1) term ≤ -term

/-- **An alternating series stays between zero and its first term.** -/
theorem series_between {next : ℕ → ℤ → ℤ} (h : Alternates next) (fuel k : ℕ) (term : ℤ) :
    (0 ≤ term → 0 ≤ series next fuel k term ∧ series next fuel k term ≤ term) ∧
      (term ≤ 0 → term ≤ series next fuel k term ∧ series next fuel k term ≤ 0) := by
  induction fuel generalizing k term with
  | zero => exact ⟨fun pos => ⟨le_rfl, pos⟩, fun neg => ⟨neg, le_rfl⟩⟩
  | succ fuel ih =>
    obtain ⟨above, below⟩ := ih (k + 1) (next (k + 1) term)
    unfold series
    constructor <;> intro sign <;> split
    · omega
    · have := h.down k term sign
      have := below this.2
      omega
    · omega
    · have := h.up k term sign
      have := above this.1
      omega

variable {square : ℤ}

theorem mul_eq (a b : ℤ) : mul a b = a * b / one := by
  unfold mul one
  rw [Int.shiftRight_eq_div_pow, Nat.cast_pow, Nat.cast_ofNat]

theorem one_pos : 0 < one := by
  decide +kernel

theorem cast_one : ((one : ℤ) : ℚ) = 2 ^ places :=
  Int.cast_pow 2 places

/-- A factor from zero to one shrinks a number, and rounding down does not undo it. -/
theorem mul_between (low : 0 ≤ square) (high : square ≤ one) (term : ℤ) :
    (0 ≤ term → 0 ≤ mul term square ∧ mul term square ≤ term) ∧
      (term ≤ 0 → term ≤ mul term square ∧ mul term square ≤ 0) := by
  have positive := one_pos
  rw [mul_eq]
  refine ⟨fun sign => ⟨?_, ?_⟩, fun sign => ⟨?_, ?_⟩⟩
  · exact Int.ediv_nonneg (mul_nonneg sign low) positive.le
  · exact Int.ediv_le_of_le_mul positive (mul_le_mul_of_nonneg_left high sign)
  · exact Int.le_ediv_of_mul_le positive (mul_le_mul_of_nonpos_left high sign)
  · exact Int.ediv_nonpos_of_nonpos_of_neg (mul_nonpos_of_nonpos_of_nonneg sign low) positive

/-- So does a divisor that is a natural number. -/
theorem div_between {d : ℤ} (hd : 0 < d) (term : ℤ) :
    (0 ≤ term → 0 ≤ term / d ∧ term / d ≤ term) ∧ (term ≤ 0 → term ≤ term / d ∧ term / d ≤ 0) := by
  refine ⟨fun sign => ⟨?_, ?_⟩, fun sign => ⟨?_, ?_⟩⟩
  · exact Int.ediv_nonneg sign hd.le
  · exact Int.ediv_le_self d sign
  · exact Int.le_ediv_of_mul_le hd (by nlinarith)
  · exact Int.ediv_nonpos_of_nonpos_of_neg sign hd

theorem alternates_of_divisor (divisor : ℕ → ℤ) (hd : ∀ k, 0 < divisor (k + 1))
    (low : 0 ≤ square) (high : square ≤ one) :
    Alternates fun k term => -(mul term square / divisor k) where
  down k term sign := by
    have product := (mul_between low high term).1 sign
    have quotient := (div_between (hd k) (mul term square)).1 product.1
    omega
  up k term sign := by
    have product := (mul_between low high term).2 sign
    have quotient := (div_between (hd k) (mul term square)).2 product.2
    omega

/-! ## 2. Sine and cosine in fixed point -/

variable {x : ℤ}

theorem square_between (h : |x| ≤ one) : 0 ≤ mul x x ∧ mul x x ≤ one := by
  have positive := one_pos
  rw [mul_eq]
  refine ⟨Int.ediv_nonneg (mul_self_nonneg x) positive.le,
    Int.ediv_le_of_le_mul positive ?_⟩
  rw [← abs_mul_abs_self x]
  exact mul_le_mul h h (abs_nonneg x) positive.le

theorem abs_sineSeries_le (h : |x| ≤ one) : |sineSeries x| ≤ one := by
  obtain ⟨low, high⟩ := square_between h
  have alternates := alternates_of_divisor (fun k => 2 * k * (2 * k + 1))
    (fun k => by positivity) low high
  have between := series_between alternates places 0 x
  have := abs_le.mp h
  rw [abs_le]
  unfold sineSeries
  dsimp only
  rcases le_total 0 x with sign | sign
  · have := between.1 sign
    omega
  · have := between.2 sign
    omega

theorem abs_cosineSeries_le (h : |x| ≤ one) : |cosineSeries x| ≤ one := by
  obtain ⟨low, high⟩ := square_between h
  have alternates := alternates_of_divisor (fun k => (2 * k - 1) * (2 * k))
    (fun k => by push_cast; nlinarith) low high
  have between := (series_between alternates places 0 one).1 one_pos.le
  rw [abs_le]
  unfold cosineSeries
  dsimp only
  omega

/-- Half a turn is more than nothing, and less than four. -/
theorem pi_between : 0 < pi ∧ pi + 4 ≤ 4 * one := by
  decide +kernel

/-- What is left of an angle is at most an eighth of a turn, and so below one. -/
theorem abs_reduce_le (x : ℤ) : |(reduce x).2| ≤ one := by
  obtain ⟨positive, small⟩ := pi_between
  unfold reduce
  dsimp only
  generalize hq : (2 * x + pi / 2) / pi = quarter
  have low := Int.ediv_mul_le (2 * x + pi / 2) positive.ne'
  have high := Int.lt_ediv_add_one_mul_self (2 * x + pi / 2) positive
  rw [hq] at low high
  rw [add_mul] at high
  generalize quarter * pi = turned at low high
  rw [abs_le]
  omega

/-- **Sine and cosine are at most one.** -/
theorem sineCosine_le (x : ℤ) : |(sineCosine x).1| ≤ one ∧ |(sineCosine x).2| ≤ one := by
  have small := abs_reduce_le x
  have sine := abs_sineSeries_le small
  have cosine := abs_cosineSeries_le small
  unfold sineCosine
  dsimp only
  split <;> simp only [abs_neg] <;> exact ⟨by assumption, by assumption⟩

end Fixed

/-! ## 3. Sine and cosine in double precision -/

namespace Double

open Float.Model (UnpackedFloat)

/-- A number in double precision that is at most one off zero. -/
def IsBounded (x : Float) : Prop :=
  ∃ q, Is x q ∧ |q| ≤ 1

theorem fits_one : Fits 1 :=
  is_one.fits

theorem one_le_greatest : 1 ≤ greatest :=
  (le_abs_self 1).trans fits_one.le_greatest

/-- The leading bits of a number that is at most one are at most one. -/
theorem leading_le {x : ℤ} (h : |x| ≤ Fixed.one) :
    ((Fixed.leading x).1 : ℚ) * 2 ^ (Fixed.leading x).2 ≤ 1 := by
  have below : (x.natAbs : ℚ) ≤ 2 ^ Fixed.places := by
    rw [Nat.cast_natAbs, ← Fixed.cast_one]
    exact Int.cast_le.mpr h
  unfold Fixed.leading
  dsimp only
  generalize Fixed.places = places at below ⊢
  generalize x.natAbs.log2 - 127 = cut
  have shifted : ((x.natAbs >>> cut : ℕ) : ℚ) ≤ x.natAbs / 2 ^ cut := by
    rw [Nat.shiftRight_eq_div_pow]
    exact_mod_cast Nat.cast_div_le (α := ℚ) (m := x.natAbs) (n := 2 ^ cut)
  rw [zpow_sub₀ two_ne_zero, zpow_natCast, zpow_natCast]
  calc ((x.natAbs >>> cut : ℕ) : ℚ) * (2 ^ cut / 2 ^ places)
      ≤ x.natAbs / 2 ^ cut * (2 ^ cut / 2 ^ places) :=
        mul_le_mul_of_nonneg_right shifted (by positivity)
    _ = x.natAbs / 2 ^ places := by field_simp
    _ ≤ 1 := (div_le_one (by positivity)).mpr below

theorem ofFixed_bounded {x : ℤ} (h : |x| ≤ Fixed.one) : IsBounded (ofFixed x) := by
  have small := leading_le h
  refine ⟨_, is_nearest _ (small.trans one_le_greatest), abs_rounded_le_of_fits fits_one ?_⟩
  rwa [abs_signed _ (mul_nonneg (Nat.cast_nonneg _) (zpow_nonneg zero_le_two _))]

/-- A tiny angle is at most one. -/
theorem le_one_of_isTinyAngle {m : ℕ} {e : ℤ} (h : isTinyAngle m e = true) :
    (m : ℚ) * 2 ^ e ≤ 1 := by
  have tiny : (m.log2 : ℤ) + 1 + e ≤ 0 := by
    have := of_decide_eq_true h
    omega
  have short : (m : ℚ) ≤ 2 ^ (m.log2 + 1) := by exact_mod_cast Nat.lt_log2_self.le
  calc (m : ℚ) * 2 ^ e ≤ 2 ^ (m.log2 + 1) * 2 ^ e :=
        mul_le_mul_of_nonneg_right short (by positivity)
    _ = 2 ^ ((m.log2 : ℤ) + 1 + e) := by
        rw [zpow_add₀ two_ne_zero, ← zpow_natCast]
        norm_cast
    _ ≤ 2 ^ (0 : ℤ) := zpow_le_zpow_right₀ one_le_two tiny
    _ = 1 := zpow_zero 2

/-- **Sine and cosine are at most one**, unless they are no numbers. -/
theorem sinCos_bounded (x : Float) :
    sinCos x = (nan, nan) ∨ (IsBounded (sinCos x).1 ∧ IsBounded (sinCos x).2) := by
  have one : IsBounded 1 := ⟨1, is_one, abs_one.le⟩
  unfold sinCos
  split
  · rename_i s hu
    exact .inr ⟨⟨0, ⟨by rw [hu]; exact .zero s, by rw [hu]; rfl⟩, by norm_num⟩, one⟩
  · rename_i s m e hm hu
    refine .inr ?_
    split
    · rename_i tiny
      have exact : Exact (unpack x) := exact_unpack (by rw [hu]; rfl)
      refine ⟨⟨_, ⟨exact, rfl⟩, ?_⟩, one⟩
      rw [hu, valueOf_finite, abs_signed _ (by positivity)]
      exact le_one_of_isTinyAngle tiny
    · have bounded := Fixed.sineCosine_le (Fixed.ofUnpacked s m e)
      exact ⟨ofFixed_bounded bounded.1, ofFixed_bounded bounded.2⟩
  · exact .inl rfl

end Double

/-! ## 4. Steps -/

namespace Heading

open Double (IsBounded nan)

theorem snap_bounded {v : Float} (h : IsBounded v) : IsBounded (snap v) := by
  unfold snap
  split
  · exact ⟨0, Double.is_zero, by norm_num⟩
  · exact h

theorem snap_nan : snap nan = nan := by
  decide +kernel

/-- **The step along a heading is at most one long** across and down, unless it is no number. -/
theorem step_bounded (h : Heading) :
    h.step = ⟨nan, nan⟩ ∨ (IsBounded h.step.x ∧ IsBounded h.step.y) := by
  unfold step
  rcases Double.sinCos_bounded (h.degrees * radiansPerDegree) with nowhere | ⟨s, c⟩
  · rw [nowhere]
    exact .inl (congrArg₂ Point.mk snap_nan snap_nan)
  · exact .inr ⟨snap_bounded c, snap_bounded s⟩

end Heading

end Relief
