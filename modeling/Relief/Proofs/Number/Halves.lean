import Relief.Proofs.Number.Conversions

/-!
# Single precision where it does not round

Whole numbers and halves of whole numbers are singles as long as they are short. Their sums and
differences are exact then.

* `unpack_pack`: what fits the format is unpacked as it was packed;
* `Is`: a finite single that is this rational number;
* `Is.add`, `Is.sub`, `Is.half`: **sums, differences and halves that fit are exact**;
* `is_word`, `held_half`: short words, and halves of short integers;
* `Is.square_eq`: **opposite numbers have one square**.
-/

namespace Relief.Single

open Float.Model (UnpackedFloat Format)
open Float.Model.UnpackedFloat (Sign)
open Double (Fields Held valueOf)

/-! ## 1. What fits the format -/

theorem Canonical.kept {m : ℕ} {e : ℤ} (h : Canonical m e) : Double.Kept .binary32 m e where
  pos := h.pos
  short := (Nat.log2_lt h.pos.ne').mpr h.lt
  le := h.le
  lt := by
    show e + (127 : ℕ) + (23 : ℕ) + 1 < 2 ^ 8
    have := h.le'
    omega
  full := h.full.imp_left fun full =>
    congrArg (· + 1) ((Nat.log2_eq_iff h.pos.ne').mpr ⟨full, h.lt⟩)

theorem aimed : Double.Aimed .binary32 Canonical :=
  ⟨Canonical.pos, fun h => h.kept.target⟩

/-- **What fits the format is unpacked as it was packed.** -/
theorem unpack_pack {u : UnpackedFloat} (h : Fields Canonical u) : unpack (pack u) = u := by
  cases h with
  | zero s => cases s <;> rfl
  | finite s _ h => exact h.kept.unpack_pack s

/-- **A multiple of a power of two fits** if it is not too long, nor the power too small. -/
theorem held_of_lt {n e : ℤ} (lt : n.natAbs < 2 ^ 24) (he : -126 ≤ e) (he' : e ≤ 104) :
    Held Canonical (n * 2 ^ e) := by
  rcases eq_or_ne n 0 with rfl | nonzero
  · exact .inl (by simp)
  have hm : n.natAbs ≠ 0 := Int.natAbs_ne_zero.mpr nonzero
  have log : n.natAbs.log2 < 24 := (Nat.log2_lt hm).mpr lt
  have longer := Double.log2_mul_pow hm (23 - n.natAbs.log2)
  have pos : n.natAbs * 2 ^ (23 - n.natAbs.log2) ≠ 0 := by positivity
  exact .of_mul_pow (k := 23 - n.natAbs.log2) ⟨Nat.pos_of_ne_zero pos,
    (Nat.log2_lt pos).mp (by omega), by omega, by omega, .inl ((Nat.le_log2 pos).mp (by omega))⟩

/-- Halves of short integers fit. -/
theorem held_half {n : ℤ} (lt : n.natAbs < 2 ^ 24) : Held Canonical (n / 2) := by
  simpa [div_eq_mul_inv] using
    held_of_lt lt (show (-126 : ℤ) ≤ -1 by norm_num) (show (-1 : ℤ) ≤ 104 by norm_num)

/-! ## 2. Exact numbers -/

/-- The number is finite, and it is this one exactly. -/
structure Is (x : Float32) (q : ℚ) : Prop where
  fields : Fields Canonical (unpack x)
  value : value x = q

theorem is_pack {u : UnpackedFloat} {q : ℚ} (h : Fields Canonical u ∧ valueOf u = q) :
    Is (pack u) q := by
  refine ⟨?_, ?_⟩
  · rw [unpack_pack h.1]
    exact h.1
  · rw [Single.value, unpack_pack h.1, h.2]

variable {x y : Float32} {p q : ℚ}

/-- **A sum that fits is exact.** -/
theorem Is.add (hx : Is x p) (hy : Is y q) (h : Held Canonical (p + q)) : Is (x + y) (p + q) := by
  obtain ⟨fx, rfl⟩ := hx
  obtain ⟨fy, rfl⟩ := hy
  exact is_pack (aimed.add fx fy h)

theorem Is.neg (hx : Is x p) : Is (-x) (-p) := by
  obtain ⟨fx, rfl⟩ := hx
  exact is_pack fx.neg

/-- **A difference that fits is exact.** -/
theorem Is.sub (hx : Is x p) (hy : Is y q) (h : Held Canonical (p - q)) : Is (x - y) (p - q) := by
  have packed : unpack (-y) = (unpack y).neg := unpack_pack hy.fields.neg.1
  have same : x - y = x + -y := by
    show pack (UnpackedFloat.sub Format.binary32 (unpack x) (unpack y))
      = pack (UnpackedFloat.add Format.binary32 (unpack x) (unpack (-y)))
    rw [packed, hx.fields.sub_eq hy.fields]
  rw [same, sub_eq_add_neg]
  exact hx.add hy.neg (sub_eq_add_neg p q ▸ h)

/-- A number that is not less than one is far from the least ones. -/
theorem Canonical.lt_of_one_le {m : ℕ} {e : ℤ} (h : Canonical m e) (large : 1 ≤ (m : ℚ) * 2 ^ e) :
    -24 < e := by
  by_contra least
  have short : (m : ℚ) < 2 ^ (24 : ℤ) := by exact_mod_cast h.lt
  have bound : (m : ℚ) * 2 ^ e < 1 := by
    calc (m : ℚ) * 2 ^ e < 2 ^ (24 : ℤ) * 2 ^ e := mul_lt_mul_of_pos_right short (by positivity)
      _ = 2 ^ (24 + e) := (zpow_add₀ two_ne_zero _ _).symm
      _ ≤ 2 ^ (0 : ℤ) := zpow_le_zpow_right₀ one_le_two (by omega)
      _ = 1 := zpow_zero 2
  exact absurd large bound.not_ge

/-- To multiply a number by a half is to lower its exponent. -/
theorem mul_half (s : Sign) {m : ℕ} {e : ℤ} (h : Canonical m (e - 1)) :
    UnpackedFloat.mul Format.binary32 (.finite s m e h.pos) (unpack 0.5)
      = .finite s m (e - 1) h.pos := by
  have half : unpack 0.5 = .finite .positive (2 ^ 23) (-24) (by positivity) := rfl
  have lower : e + -24 + ((23 : ℕ) : ℤ) = e - 1 := by omega
  have target : Format.binary32.targetExponent
      (Float.Model.totalExponent m (e + -24 + ((23 : ℕ) : ℤ))) = e + -24 + ((23 : ℕ) : ℤ) := by
    rw [lower, h.kept.target]
  have rounded := Double.roundWithAccuracy_of_target (s * .positive) h.pos target
  have sign : s * Sign.positive = s := by cases s <;> rfl
  rw [half]
  refine Eq.trans rounded ?_
  simp only [lower, sign]

/-- **Half of a number that is not less than one is exact.** -/
theorem Is.half (hx : Is x q) (large : q = 0 ∨ 1 ≤ |q|) : Is (x * 0.5) (q / 2) := by
  obtain ⟨fx, rfl⟩ := hx
  refine is_pack (u := UnpackedFloat.mul Format.binary32 (unpack x) (unpack 0.5)) ?_
  unfold Single.value at large ⊢
  generalize unpack x = u at fx large ⊢
  cases fx with
  | zero s => exact ⟨.zero _, (zero_div 2).symm⟩
  | @finite s m e pos h =>
    have positive : (0 : ℚ) < m * 2 ^ e := mul_pos (Nat.cast_pos.mpr pos) (by positivity)
    have size : |valueOf (.finite s m e pos)| = m * 2 ^ e := by
      rw [Double.valueOf_finite, Double.abs_signed s positive.le]
    have above : -24 < e := by
      refine h.lt_of_one_le (size ▸ large.resolve_left fun zero => ?_)
      rw [zero, abs_zero] at size
      exact positive.ne size
    have canonical : Canonical m (e - 1) :=
      ⟨pos, h.lt, by omega, by have := h.le'; omega, .inl (h.full.resolve_right (by omega))⟩
    rw [mul_half s canonical]
    refine ⟨.finite s pos canonical, ?_⟩
    rw [Double.valueOf_finite, Double.valueOf_finite, zpow_sub_one₀ two_ne_zero]
    cases s <;> simp only [Double.signed] <;> ring

/-- A short word is itself. -/
theorem is_word {n : UInt32} (h : n.toNat < 2 ^ 24) : Is n.toFloat32 n.toNat := by
  have held : Held Canonical (((n.toNat : ℤ) : ℚ) * 2 ^ (0 : ℤ)) :=
    held_of_lt (by omega) (by norm_num) (by norm_num)
  obtain ⟨fields, value⟩ := aimed.normalize held .positive
  refine is_pack ⟨fields, value.trans ?_⟩
  rw [zpow_zero, mul_one, Int.cast_natCast]

theorem is_half : Is 0.5 (1 / 2) where
  fields := fields rfl
  value := by
    show ((2 ^ 23 : ℕ) : ℚ) * 2 ^ (-24 : ℤ) = 1 / 2
    norm_num

theorem Canonical.unique {m m' : ℕ} {e e' : ℤ} (h : Canonical m e) (h' : Canonical m' e')
    (same : (m : ℚ) * 2 ^ e = m' * 2 ^ e') : m = m' ∧ e = e' := by
  have equal := (h.comparable h').compare_value
  rw [compare_eq_iff_eq.mpr same, Ordering.then_eq_eq] at equal
  exact ⟨compare_eq_iff_eq.mp equal.2, compare_eq_iff_eq.mp equal.1⟩

/-- **Opposite numbers have one square**, zeros among them whatever their signs are. -/
theorem Is.square_eq (hx : Is x q) (hy : Is y (-q)) : x * x = y * y := by
  show pack (UnpackedFloat.mul Format.binary32 (unpack x) (unpack x))
    = pack (UnpackedFloat.mul Format.binary32 (unpack y) (unpack y))
  obtain ⟨fx, rfl⟩ := hx
  obtain ⟨fy, same⟩ := hy
  unfold Single.value at same
  generalize unpack x = u at fx same ⊢
  generalize unpack y = v at fy same ⊢
  have positive {m : ℕ} {e : ℤ} (pos : 0 < m) : (0 : ℚ) < m * 2 ^ e :=
    mul_pos (Nat.cast_pos.mpr pos) (by positivity)
  have size (s : Sign) {m : ℕ} {e : ℤ} (pos : 0 < m) :
      |valueOf (.finite s m e pos)| = m * 2 ^ e := by
    rw [Double.valueOf_finite, Double.abs_signed s (positive pos).le]
  have sizes := congrArg abs same
  rw [abs_neg] at sizes
  cases fx with
  | zero s =>
    cases fy with
    | zero s' => cases s <;> cases s' <;> rfl
    | finite s' pos' h' =>
      rw [size s' pos', show valueOf (.zero s) = 0 from rfl, abs_zero] at sizes
      exact absurd sizes (positive pos').ne'
  | finite s pos h =>
    cases fy with
    | zero s' =>
      rw [size s pos, show valueOf (.zero s') = 0 from rfl, abs_zero] at sizes
      exact absurd sizes (positive pos).ne
    | finite s' pos' h' =>
      rw [size s pos, size s' pos'] at sizes
      obtain ⟨rfl, rfl⟩ := h.unique h' sizes.symm
      cases s <;> cases s' <;> rfl

end Relief.Single
