import Mathlib
import Relief.Number.Exact

/-!
# Double precision where it does not round

A finite number in double precision is a whole multiple of a power of two. Where the exact result of
an operation is such a multiple with a short mantissa, the operation gives it.

* `Kept`: mantissas and exponents as a format keeps them, and `Kept.unpack_pack`: **they are unpacked
  as they were packed**; `Canonical`, `Exact`: those of double precision;
* `unpack_pack`, `normalize_exact`: **what fits the format is neither changed nor rounded**;
  `Aimed`, `Fields` and `Held` say what of this does not depend on the format;
* `Is`: a number in double precision that is this rational number;
* `Is.add`, `Is.sub`, `Is.neg`, `Is.abs`: sums and differences that fit, and changes of the sign;
* `compare_valueOf`, `Is.le_iff`, `Is.lt_iff`: **the order is that of the rational numbers**;
* `fits_of_lt`, `is_word`, `is_count`: short multiples fit, and so do counts;
* `Is.toUInt64`, `Is.isNegative_iff`: whole parts and signs.
-/

namespace Relief.Double

open Float.Model (UnpackedFloat Format)
open Float.Model.UnpackedFloat (Sign)

/-! ## 1. What a format keeps -/

section Kept

/-- A mantissa and an exponent as a format keeps them: the mantissa fills all of its places, unless
    the exponent is the least of all. -/
structure Kept (fmt : Format) (m : ℕ) (e : ℤ) : Prop where
  pos : 0 < m
  short : m.log2 + 1 ≤ fmt.mantissaBits
  le : fmt.minExponent ≤ e
  lt : e + fmt.exponentBias + fmt.mantissaBitsWithoutImplicit + 1 < 2 ^ fmt.exponentBits
  full : m.log2 + 1 = fmt.mantissaBits ∨ e = fmt.minExponent

variable {fmt : Format}

/-- The least exponent is the one after which the packed exponent counts from one. -/
theorem minExponent_eq (fmt : Format) :
    fmt.minExponent + fmt.exponentBias + fmt.mantissaBitsWithoutImplicit = 1 := by
  have pos : 0 < 2 ^ (fmt.exponentBits - 1) := Nat.two_pow_pos _
  unfold Format.minExponent Format.exponentBias Format.mantissaBits
  push_cast [Nat.cast_sub (Nat.one_le_of_lt pos)]
  ring

theorem unpack_packComponents_normal (s : Sign) {b m : ℕ} (h : 0 < b)
    (hb : b + 1 < 2 ^ fmt.exponentBits) (hm : 2 ^ fmt.mantissaBitsWithoutImplicit ≤ m)
    (hm' : m < 2 ^ (fmt.mantissaBitsWithoutImplicit + 1)) :
    UnpackedFloat.unpack fmt
      (UnpackedFloat.packComponents fmt s (BitVec.ofNat _ b) (BitVec.ofNat _ m))
      = .finite s m (b - (fmt.exponentBias + fmt.mantissaBitsWithoutImplicit))
        (Nat.zero_lt_of_lt (Nat.lt_of_lt_of_le (Nat.two_pow_pos _) hm)) := by
  have value : (BitVec.ofNat fmt.exponentBits b).toNat = b := Nat.mod_eq_of_lt (by omega)
  have ne1 : BitVec.ofNat fmt.exponentBits b ≠ -1#_ := fun same => by
    have := congrArg BitVec.toNat same
    rw [value, BitVec.toNat_neg, BitVec.toNat_one fmt.he, Nat.mod_eq_of_lt (by omega)] at this
    omega
  have ne0 : BitVec.ofNat fmt.exponentBits b ≠ 0#_ := fun same => h.ne' (by
    rw [← value, same, BitVec.toNat_ofNat, Nat.zero_mod])
  unfold UnpackedFloat.unpack
  simp only [UnpackedFloat.unpackMantissa_packComponents,
    UnpackedFloat.unpackExponent_packComponents, UnpackedFloat.unpackSign_packComponents,
    Sign.ofBitVec_toBitVec]
  rw [if_neg ne1, if_neg ne0]
  congr 1
  · rw [BitVec.toNat_append, BitVec.toNat_ofNat, BitVec.toNat_ofNat,
      ← Nat.shiftLeft_add_eq_or_of_lt (Nat.mod_lt _ (Nat.two_pow_pos _)), Nat.shiftLeft_eq]
    have high : m % 2 ^ fmt.mantissaBitsWithoutImplicit
        = m - 2 ^ fmt.mantissaBitsWithoutImplicit := by
      rw [Nat.mod_eq_sub_mod hm, Nat.mod_eq_of_lt (by rw [pow_succ] at hm'; omega)]
    rw [high]
    omega
  · rw [value]

theorem unpack_packComponents_subnormal (s : Sign) {m : ℕ} (hm : 0 < m)
    (hm' : m < 2 ^ fmt.mantissaBitsWithoutImplicit) :
    UnpackedFloat.unpack fmt (UnpackedFloat.packComponents fmt s 0#_ (BitVec.ofNat _ m))
      = .finite s m fmt.minExponent hm := by
  have value : (BitVec.ofNat fmt.mantissaBitsWithoutImplicit m).toNat = m :=
    Nat.mod_eq_of_lt hm'
  have ne1 : (0#_ : BitVec fmt.exponentBits) ≠ -1#_ := fun same => by
    have bits := Nat.one_lt_two_pow fmt.he.ne'
    have := congrArg BitVec.toNat same
    rw [BitVec.toNat_neg, BitVec.toNat_one fmt.he, Nat.mod_eq_of_lt (by omega)] at this
    simp at this
    omega
  have ne0 : BitVec.ofNat fmt.mantissaBitsWithoutImplicit m ≠ 0#_ := fun same => hm.ne' (by
    rw [← value, same, BitVec.toNat_ofNat, Nat.zero_mod])
  have least := minExponent_eq fmt
  unfold UnpackedFloat.unpack
  simp only [UnpackedFloat.unpackMantissa_packComponents,
    UnpackedFloat.unpackExponent_packComponents, UnpackedFloat.unpackSign_packComponents,
    Sign.ofBitVec_toBitVec]
  rw [if_neg ne1, if_pos trivial, dif_neg ne0]
  congr 1
  rw [BitVec.toNat_ofNat, Nat.zero_mod]
  omega

/-- The exponent of what a format keeps is the one that the format aims at. -/
theorem Kept.target {m : ℕ} {e : ℤ} (h : Kept fmt m e) :
    fmt.targetExponent (Float.Model.totalExponent m e) = e := by
  unfold Format.targetExponent Float.Model.totalExponent
  have := h.short
  have := h.le
  rcases h.full with full | rfl <;> omega

/-- **What a format keeps is unpacked as it was packed.** -/
theorem Kept.unpack_pack {m : ℕ} {e : ℤ} (h : Kept fmt m e) (s : Sign) :
    UnpackedFloat.unpack fmt (UnpackedFloat.pack fmt (.finite s m e h.pos))
      = .finite s m e h.pos := by
  have least := minExponent_eq fmt
  have := h.le
  have lt := h.lt
  have short := h.short
  have bits : fmt.mantissaBits = fmt.mantissaBitsWithoutImplicit + 1 := Nat.add_comm _ _
  rw [bits] at short
  unfold UnpackedFloat.pack
  dsimp only
  have high : ¬ 2 ^ fmt.exponentBits
      ≤ (e + fmt.exponentBias + fmt.mantissaBitsWithoutImplicit).toNat + 1 := by
    zify
    omega
  rw [if_neg high]
  split
  · rename_i full
    rw [bits, Nat.add_right_cancel_iff, Nat.log2_eq_iff h.pos.ne'] at full
    rw [unpack_packComponents_normal s (by omega) (by omega) full.1 full.2]
    congr 1
    omega
  · rename_i short
    obtain rfl := h.full.resolve_left short
    refine unpack_packComponents_subnormal s h.pos ((Nat.log2_lt h.pos.ne').mp ?_)
    omega

end Kept

/-! ## 2. Canonical mantissas -/

/-- A mantissa and an exponent as the format keeps them. -/
structure Canonical (m : ℕ) (e : ℤ) : Prop where
  pos : 0 < m
  lt : m < 2 ^ 53
  le : -1074 ≤ e
  le' : e ≤ 971
  full : 2 ^ 52 ≤ m ∨ e = -1074

/-- Zero, or a number in canonical form. -/
inductive Exact : UnpackedFloat → Prop
  | zero (s : Sign) : Exact (.zero s)
  | finite (s : Sign) {m : ℕ} {e : ℤ} (h : Canonical m e) : Exact (.finite s m e h.pos)

theorem Canonical.kept {m : ℕ} {e : ℤ} (h : Canonical m e) : Kept .binary64 m e where
  pos := h.pos
  short := (Nat.log2_lt h.pos.ne').mpr h.lt
  le := h.le
  lt := by
    show e + (1023 : ℕ) + (52 : ℕ) + 1 < 2 ^ 11
    have := h.le'
    omega
  full := h.full.imp_left fun full =>
    congrArg (· + 1) ((Nat.log2_eq_iff h.pos.ne').mpr ⟨full, h.lt⟩)

/-- **What fits the format is unpacked as it was packed.** -/
theorem unpack_pack {u : UnpackedFloat} (h : Exact u) : unpack (pack u) = u := by
  cases h with
  | zero s => cases s <;> rfl
  | finite s h => exact h.kept.unpack_pack s

/-- The number that the fields stand for. -/
def valueOf : UnpackedFloat → ℚ
  | .finite s m e _ => s.apply m * 2 ^ e
  | _ => 0

/-! ## 3. Rounding what fits -/

theorem log2_mul_pow {m : ℕ} (hm : m ≠ 0) (k : ℕ) : (m * 2 ^ k).log2 = m.log2 + k := by
  induction k with
  | zero => simp
  | succ k ih =>
    rw [show m * 2 ^ (k + 1) = 2 * (m * 2 ^ k) by ring, Nat.log2_two_mul (by positivity), ih]
    rfl

theorem totalExponent_mul_pow {m : ℕ} (hm : m ≠ 0) (e : ℤ) (k : ℕ) :
    Float.Model.totalExponent (m * 2 ^ k) e = Float.Model.totalExponent m (e + k) := by
  unfold Float.Model.totalExponent
  rw [log2_mul_pow hm]
  push_cast
  ring

/-- Places that are zero are shifted out without a loss. -/
theorem repeat_shiftRightOne (m k : ℕ) :
    Nat.repeat UnpackedFloat.ExtendedMantissa.shiftRightOne k ⟨m * 2 ^ k, false, false⟩
      = ⟨m, false, false⟩ := by
  induction k generalizing m with
  | zero => simp [Nat.repeat]
  | succ k ih =>
    have even : m * 2 ^ (k + 1) = (m * 2) * 2 ^ k := by ring
    rw [Nat.repeat, even, ih]
    simp [UnpackedFloat.ExtendedMantissa.shiftRightOne]

theorem shiftToExponent_mul_pow (m k : ℕ) (e : ℤ) :
    UnpackedFloat.shiftToExponent (m * 2 ^ k) e .exact (e + k) = (⟨m, false, false⟩, e + k) := by
  unfold UnpackedFloat.shiftToExponent
  have amount : (e + k - e).toNat = k := by omega
  rw [amount]
  exact congrArg (·, e + (k : ℤ)) (repeat_shiftRightOne m k)

/-- **What a format aims at is not rounded**, also where it is given with a longer mantissa. -/
theorem roundWithAccuracy_of_target {fmt : Format} (s : Sign) {m k : ℕ} {e : ℤ} (pos : 0 < m)
    (target : fmt.targetExponent (Float.Model.totalExponent m (e + k)) = e + k) :
    UnpackedFloat.roundWithAccuracy fmt s (m * 2 ^ k) e .exact = .finite s m (e + k) pos := by
  have first : UnpackedFloat.shiftToTargetExponent fmt (m * 2 ^ k) e .exact
      = (⟨m, false, false⟩, e + k) := by
    unfold UnpackedFloat.shiftToTargetExponent
    rw [totalExponent_mul_pow pos.ne', target, shiftToExponent_mul_pow]
  have second : UnpackedFloat.shiftToTargetExponent fmt m (e + k) .exact
      = (⟨m, false, false⟩, e + k) := by
    have := shiftToExponent_mul_pow m 0 (e + k)
    unfold UnpackedFloat.shiftToTargetExponent
    rw [target]
    simpa using this
  unfold UnpackedFloat.roundWithAccuracy
  rw [first]
  show (let (final, exponent) := UnpackedFloat.shiftToTargetExponent fmt m (e + k) .exact
    if h : final.mantissa = 0 then UnpackedFloat.zero s
      else .finite s final.mantissa exponent (Nat.pos_of_ne_zero h)) = _
  rw [second]
  exact dif_neg pos.ne'

theorem natCast_mul_zpow_inj {m m' k : ℕ} {e : ℤ} (h : (m : ℚ) * 2 ^ (e + k) = m' * 2 ^ e) :
    m' = m * 2 ^ k := by
  have positive : (2 : ℚ) ^ e ≠ 0 := by positivity
  rw [zpow_add₀ two_ne_zero, zpow_natCast, mul_left_comm, mul_comm ((2 : ℚ) ^ e)] at h
  exact_mod_cast (mul_right_cancel₀ positive h).symm

/-- **What a format aims at is not rounded**, however it is given. -/
theorem round_of_target {fmt : Format} (s : Sign) {m m' : ℕ} {e e' : ℤ} (pos : 0 < m')
    (target : fmt.targetExponent (Float.Model.totalExponent m' e') = e')
    (same : (m : ℚ) * 2 ^ e = m' * 2 ^ e') :
    UnpackedFloat.round fmt s m e = .finite s m' e' pos := by
  rcases le_total e' e with le | le
  · obtain ⟨k, rfl⟩ := Int.le.dest le
    obtain rfl := natCast_mul_zpow_inj same
    have aim : fmt.targetExponent (Float.Model.totalExponent m (e' + k)) = e' := by
      rw [← totalExponent_mul_pow (left_ne_zero_of_mul pos.ne'), target]
    have amount : (e' + k - e').toNat = k := by omega
    unfold UnpackedFloat.round UnpackedFloat.decreaseExponent
    dsimp only
    rw [aim, amount, Nat.shiftLeft_eq, add_sub_cancel_right]
    have exact := roundWithAccuracy_of_target (k := 0) s (e := e') pos (by simpa using target)
    simpa using exact
  · obtain ⟨k, rfl⟩ := Int.le.dest le
    obtain rfl := natCast_mul_zpow_inj same.symm
    have amount : (e - (e + k)).toNat = 0 := by omega
    unfold UnpackedFloat.round UnpackedFloat.decreaseExponent
    dsimp only
    rw [totalExponent_mul_pow pos.ne', target, amount]
    simpa using roundWithAccuracy_of_target s pos target

/-- A number that the format holds. -/
def Fits (q : ℚ) : Prop :=
  q = 0 ∨ ∃ m e, Canonical m e ∧ |q| = m * 2 ^ e

/-- Mantissas and exponents that a format aims at. -/
structure Aimed (fmt : Format) (C : ℕ → ℤ → Prop) : Prop where
  pos {m : ℕ} {e : ℤ} : C m e → 0 < m
  target {m : ℕ} {e : ℤ} : C m e → fmt.targetExponent (Float.Model.totalExponent m e) = e

theorem aimed : Aimed Format.binary64 Canonical :=
  ⟨Canonical.pos, fun h => h.kept.target⟩

/-- Zero, or a mantissa and an exponent of a kind. -/
inductive Fields (C : ℕ → ℤ → Prop) : UnpackedFloat → Prop
  | zero (s : Sign) : Fields C (.zero s)
  | finite (s : Sign) {m : ℕ} {e : ℤ} (pos : 0 < m) (h : C m e) : Fields C (.finite s m e pos)

theorem exact_iff {u : UnpackedFloat} : Exact u ↔ Fields Canonical u := by
  constructor
  · rintro (s | ⟨s, h⟩)
    · exact .zero s
    · exact .finite s h.pos h
  · rintro (s | ⟨s, _, h⟩)
    · exact .zero s
    · exact .finite s h

/-- A number that fields of a kind stand for. -/
def Held (C : ℕ → ℤ → Prop) (q : ℚ) : Prop :=
  q = 0 ∨ ∃ m e, C m e ∧ |q| = m * 2 ^ e

section Formats

variable {fmt : Format} {C : ℕ → ℤ → Prop} {u v : UnpackedFloat}

theorem Held.natAbs {n e : ℤ} (h : Held C (n * 2 ^ e)) (hn : n ≠ 0) :
    ∃ m e', C m e' ∧ (n.natAbs : ℚ) * 2 ^ e = m * 2 ^ e' := by
  have positive : (0 : ℚ) < 2 ^ e := by positivity
  rcases h with product | ⟨m, e', canonical, value⟩
  · rcases mul_eq_zero.mp product with zero | zero
    · exact absurd (Int.cast_eq_zero.mp zero) hn
    · exact absurd zero positive.ne'
  · refine ⟨m, e', canonical, ?_⟩
    rw [← value, abs_mul, abs_of_pos positive, Nat.cast_natAbs, Int.cast_abs]

/-- A mantissa to which zeros are appended, under an exponent that is as much lower. -/
theorem Held.of_mul_pow {n e : ℤ} {k : ℕ} (h : C (n.natAbs * 2 ^ k) (e - k)) :
    Held C (n * 2 ^ e) := by
  refine .inr ⟨_, _, h, ?_⟩
  rw [abs_mul, abs_of_pos (show (0 : ℚ) < 2 ^ e by positivity)]
  push_cast
  rw [zpow_sub₀ two_ne_zero, zpow_natCast, Nat.cast_natAbs, Int.cast_abs]
  field_simp

/-- **A number that a format holds is not rounded.** -/
theorem Aimed.normalize (a : Aimed fmt C) {n e : ℤ} (h : Held C (n * 2 ^ e)) (s : Sign) :
    Fields C (UnpackedFloat.normalize fmt n e s) ∧
      valueOf (UnpackedFloat.normalize fmt n e s) = n * 2 ^ e := by
  unfold UnpackedFloat.normalize
  rcases lt_trichotomy n 0 with neg | rfl | pos
  · obtain ⟨m, e', canonical, same⟩ := h.natAbs neg.ne
    rw [compare_lt_iff_lt.mpr neg]
    dsimp only
    rw [show (-n).toNat = n.natAbs by omega,
      round_of_target .negative (a.pos canonical) (a.target canonical) same]
    refine ⟨.finite _ _ canonical, ?_⟩
    rw [Nat.cast_natAbs, abs_of_neg neg] at same
    show (((-(m : ℤ)) : ℤ) : ℚ) * 2 ^ e' = n * 2 ^ e
    push_cast at same ⊢
    linarith
  · exact ⟨.zero s, by simp [valueOf]⟩
  · obtain ⟨m, e', canonical, same⟩ := h.natAbs pos.ne'
    rw [compare_gt_iff_gt.mpr pos]
    dsimp only
    rw [show n.toNat = n.natAbs by omega,
      round_of_target .positive (a.pos canonical) (a.target canonical) same]
    refine ⟨.finite _ _ canonical, ?_⟩
    rw [Nat.cast_natAbs, abs_of_pos pos] at same
    exact same.symm

theorem valueOf_decreaseExponent (s : Sign) {m : ℕ} {e e' : ℤ} (h : e' ≤ e) :
    ((s.apply (UnpackedFloat.decreaseExponent m e e').1 : ℤ) : ℚ) * 2 ^ e' = s.apply m * 2 ^ e := by
  obtain ⟨k, rfl⟩ := Int.le.dest h
  have amount : (e' + k - e').toNat = k := by omega
  unfold UnpackedFloat.decreaseExponent
  dsimp only
  rw [amount, Nat.shiftLeft_eq, zpow_add₀ two_ne_zero, zpow_natCast]
  cases s <;> simp only [Sign.apply] <;> push_cast <;> ring

/-- **A sum that a format holds is not rounded.** -/
theorem Aimed.add (a : Aimed fmt C) (hu : Fields C u) (hv : Fields C v)
    (h : Held C (valueOf u + valueOf v)) :
    Fields C (UnpackedFloat.add fmt u v) ∧
      valueOf (UnpackedFloat.add fmt u v) = valueOf u + valueOf v := by
  cases hu with
  | zero s =>
    cases hv with
    | zero s' => cases s <;> cases s' <;> exact ⟨.zero _, (add_zero 0).symm⟩
    | finite s' pos hm => exact ⟨.finite s' pos hm, (zero_add _).symm⟩
  | @finite s m e pos hm =>
    cases hv with
    | zero s' => exact ⟨.finite s pos hm, (add_zero _).symm⟩
    | @finite s' m' e' pos' hm' =>
      have sum : ((s.apply (UnpackedFloat.decreaseExponent m e (min e e')).1
            + s'.apply (UnpackedFloat.decreaseExponent m' e' (min e e')).1 : ℤ) : ℚ)
          * 2 ^ (min e e') = s.apply m * 2 ^ e + s'.apply m' * 2 ^ e' := by
        rw [Int.cast_add, add_mul, valueOf_decreaseExponent s (min_le_left e e'),
          valueOf_decreaseExponent s' (min_le_right e e')]
      have exact := a.normalize (sum ▸ h) .positive
      rw [sum] at exact
      exact exact

theorem apply_neg (s : Sign) (n : ℤ) : (-s).apply n = -s.apply n := by
  cases s
  · exact (neg_neg n).symm
  · rfl

theorem Fields.neg (h : Fields C u) : Fields C u.neg ∧ valueOf u.neg = -valueOf u := by
  cases h with
  | zero s => exact ⟨.zero (-s), neg_zero.symm⟩
  | @finite s m e pos hm =>
    refine ⟨.finite (-s) pos hm, ?_⟩
    show (((-s).apply m : ℤ) : ℚ) * 2 ^ e = -(s.apply m * 2 ^ e)
    rw [apply_neg]
    push_cast
    ring

/-- To subtract is to add the opposite. -/
theorem Fields.sub_eq (hu : Fields C u) (hv : Fields C v) :
    UnpackedFloat.sub fmt u v = UnpackedFloat.add fmt u v.neg := by
  cases hu with
  | zero s => cases hv <;> rfl
  | finite s pos hm =>
    cases hv with
    | zero s' => rfl
    | @finite s' m' e' pos' hm' =>
      unfold UnpackedFloat.sub UnpackedFloat.neg UnpackedFloat.add
      dsimp only
      rw [apply_neg, Int.sub_eq_add_neg]

end Formats

/-- **A sum that fits the format is not rounded.** -/
theorem normalize_exact {n e : ℤ} (h : Fits (n * 2 ^ e)) (s : Sign) :
    Exact (UnpackedFloat.normalize Format.binary64 n e s) ∧
      valueOf (UnpackedFloat.normalize Format.binary64 n e s) = n * 2 ^ e := by
  rw [exact_iff]
  exact aimed.normalize h s

/-! ## 4. Exact numbers -/

/-- The number is finite, and it is this one exactly. -/
structure Is (x : Float) (q : ℚ) : Prop where
  exact : Exact (unpack x)
  value : valueOf (unpack x) = q

theorem is_pack {u : UnpackedFloat} (h : Exact u) : Is (pack u) (valueOf u) := by
  refine ⟨?_, ?_⟩ <;> rw [unpack_pack h]
  exact h

section Arithmetic

variable {x y : Float} {p q : ℚ}

/-- **A sum that fits is exact.** -/
theorem Is.add (hx : Is x p) (hy : Is y q) (h : Fits (p + q)) : Is (x + y) (p + q) := by
  obtain ⟨ex, rfl⟩ := hx
  obtain ⟨ey, rfl⟩ := hy
  obtain ⟨fields, value⟩ := aimed.add (exact_iff.mp ex) (exact_iff.mp ey) h
  have packed := is_pack (exact_iff.mpr fields)
  rwa [value] at packed

theorem Exact.neg {u : UnpackedFloat} (h : Exact u) :
    Exact u.neg ∧ valueOf u.neg = -valueOf u := by
  rw [exact_iff] at h ⊢
  exact h.neg

theorem Is.neg (hx : Is x p) : Is (-x) (-p) := by
  have packed := is_pack hx.exact.neg.1
  rwa [hx.exact.neg.2, hx.value] at packed

/-- To subtract is to add the opposite. -/
theorem Is.sub_eq (hx : Is x p) (hy : Is y q) : x - y = x + -y := by
  have packed : unpack (-y) = (unpack y).neg := unpack_pack hy.exact.neg.1
  show pack (UnpackedFloat.sub Format.binary64 (unpack x) (unpack y))
    = pack (UnpackedFloat.add Format.binary64 (unpack x) (unpack (-y)))
  rw [packed, (exact_iff.mp hx.exact).sub_eq (exact_iff.mp hy.exact)]

/-- **A difference that fits is exact.** -/
theorem Is.sub (hx : Is x p) (hy : Is y q) (h : Fits (p - q)) : Is (x - y) (p - q) := by
  rw [hx.sub_eq hy, Rat.sub_eq_add_neg]
  exact hx.add hy.neg (Rat.sub_eq_add_neg p q ▸ h)

/-- Where the greater exponent has a full mantissa, it decides. -/
theorem value_lt_of_exponent_lt {p m m' : ℕ} {e e' : ℤ} (short : m < 2 ^ (p + 1))
    (full : 2 ^ p ≤ m') (lt : e < e') : (m : ℚ) * 2 ^ e < m' * 2 ^ e' := by
  calc (m : ℚ) * 2 ^ e < 2 ^ (p + 1) * 2 ^ e :=
        mul_lt_mul_of_pos_right (by exact_mod_cast short) (by positivity)
    _ = 2 ^ p * 2 ^ (e + 1) := by
        rw [zpow_add₀ two_ne_zero]
        ring
    _ ≤ 2 ^ p * 2 ^ e' :=
        mul_le_mul_of_nonneg_left (zpow_le_zpow_right₀ (by norm_num) (by omega)) (by positivity)
    _ ≤ m' * 2 ^ e' := mul_le_mul_of_nonneg_right (by exact_mod_cast full) (by positivity)

/-- Mantissas and exponents of one format, which compares exponents first. -/
structure Comparable (p m m' : ℕ) (e e' : ℤ) : Prop where
  short : m < 2 ^ (p + 1)
  short' : m' < 2 ^ (p + 1)
  full : e' < e → 2 ^ p ≤ m
  full' : e < e' → 2 ^ p ≤ m'

theorem Comparable.compare_value {p m m' : ℕ} {e e' : ℤ} (h : Comparable p m m' e e') :
    (compare e e').then (compare m m') = compare ((m : ℚ) * 2 ^ e) (m' * 2 ^ e') := by
  rcases lt_trichotomy e e' with lt | rfl | gt
  · rw [compare_lt_iff_lt.mpr lt,
      compare_lt_iff_lt.mpr (value_lt_of_exponent_lt h.short (h.full' lt) lt)]
    rfl
  · have positive : (0 : ℚ) < 2 ^ e := by positivity
    rw [compare_eq_iff_eq.mpr (rfl : e = e)]
    show compare m m' = _
    rcases lt_trichotomy m m' with lt | rfl | gt
    · rw [compare_lt_iff_lt.mpr lt, eq_comm, compare_lt_iff_lt]
      exact mul_lt_mul_of_pos_right (Nat.cast_lt.mpr lt) positive
    · rw [compare_eq_iff_eq.mpr rfl, eq_comm, compare_eq_iff_eq]
    · rw [compare_gt_iff_gt.mpr gt, eq_comm, compare_gt_iff_gt]
      exact mul_lt_mul_of_pos_right (Nat.cast_lt.mpr gt) positive
  · rw [compare_gt_iff_gt.mpr gt,
      compare_gt_iff_gt.mpr (value_lt_of_exponent_lt h.short' (h.full gt) gt)]
    rfl

theorem swap_compare (a b : ℚ) : (compare a b).swap = compare (-a) (-b) := by
  rcases lt_trichotomy a b with lt | rfl | gt
  · rw [compare_lt_iff_lt.mpr lt, compare_gt_iff_gt.mpr (neg_lt_neg lt)]; rfl
  · rw [compare_eq_iff_eq.mpr rfl, compare_eq_iff_eq.mpr rfl]; rfl
  · rw [compare_gt_iff_gt.mpr gt, compare_lt_iff_lt.mpr (neg_lt_neg gt)]; rfl

/-- **The order of fields of one format is that of the numbers they stand for.** -/
theorem compare_valueOf {C : ℕ → ℤ → Prop} {p : ℕ}
    (comparable : ∀ {m m' : ℕ} {e e' : ℤ}, C m e → C m' e' → Comparable p m m' e e')
    {u v : UnpackedFloat} (hu : Fields C u) (hv : Fields C v) :
    UnpackedFloat.compare u v = some (compare (valueOf u) (valueOf v)) := by
  have size {m : ℕ} {e : ℤ} (pos : 0 < m) : (0 : ℚ) < m * 2 ^ e :=
    mul_pos (Nat.cast_pos.mpr pos) (by positivity)
  have above {m : ℕ} {e : ℤ} (pos : 0 < m) :
      valueOf (.finite .positive m e pos) = m * 2 ^ e := rfl
  have below {m : ℕ} {e : ℤ} (pos : 0 < m) :
      valueOf (.finite .negative m e pos) = -(m * 2 ^ e) := by
    show (((-(m : ℤ)) : ℤ) : ℚ) * 2 ^ e = _
    push_cast
    ring
  have null (s : Sign) : valueOf (.zero s) = 0 := rfl
  cases hu with
  | zero s =>
    cases hv with
    | zero s' => rw [null, null, compare_eq_iff_eq.mpr rfl]; rfl
    | finite s' pos =>
      cases s' with
      | positive => rw [null, above pos, compare_lt_iff_lt.mpr (size pos)]; rfl
      | negative => rw [null, below pos, compare_gt_iff_gt.mpr (neg_lt_zero.mpr (size pos))]; rfl
  | @finite s m e pos hm =>
    cases hv with
    | zero s' =>
      cases s with
      | positive => rw [null, above pos, compare_gt_iff_gt.mpr (size pos)]; rfl
      | negative => rw [null, below pos, compare_lt_iff_lt.mpr (neg_lt_zero.mpr (size pos))]; rfl
    | @finite s' m' e' pos' hm' =>
      have value := (comparable hm hm').compare_value
      have one := size (e := e) pos
      have other := size (e := e') pos'
      cases s <;> cases s'
      · rw [below pos, below pos', ← swap_compare, ← value]; rfl
      · rw [below pos, above pos', compare_lt_iff_lt.mpr (by linarith)]; rfl
      · rw [above pos, below pos', compare_gt_iff_gt.mpr (by linarith)]; rfl
      · rw [above pos, above pos', ← value]; rfl

theorem Canonical.comparable {m m' : ℕ} {e e' : ℤ} (h : Canonical m e) (h' : Canonical m' e') :
    Comparable 52 m m' e e' where
  short := h.lt
  short' := h'.lt
  full lt := h.full.resolve_right (by have := h'.le; omega)
  full' lt := h'.full.resolve_right (by have := h.le; omega)

theorem compare_exact {u v : UnpackedFloat} (hu : Exact u) (hv : Exact v) :
    UnpackedFloat.compare u v = some (compare (valueOf u) (valueOf v)) :=
  compare_valueOf Canonical.comparable (exact_iff.mp hu) (exact_iff.mp hv)

theorem Is.le_iff (hx : Is x p) (hy : Is y q) : x ≤ y ↔ p ≤ q := by
  show decide ((UnpackedFloat.compare (unpack x) (unpack y)).any (·.isLE) = true) = true ↔ _
  rw [decide_eq_true_iff, compare_exact hx.exact hy.exact, hx.value, hy.value, Option.any_some,
    ← Ordering.ne_gt_iff_isLE]
  exact compare_le_iff_le

theorem Is.lt_iff (hx : Is x p) (hy : Is y q) : x < y ↔ p < q := by
  show decide ((UnpackedFloat.compare (unpack x) (unpack y) == some .lt) = true) = true ↔ _
  rw [decide_eq_true_iff, compare_exact hx.exact hy.exact, hx.value, hy.value, ← compare_lt_iff_lt]
  simp

end Arithmetic

/-! ## 5. Whole numbers -/

/-- **A multiple of a power of two fits** if it is not too long, nor the power too small. -/
theorem fits_of_lt {n e : ℤ} (lt : n.natAbs < 2 ^ 53) (he : -1074 ≤ e) (he' : e ≤ 971) :
    Fits (n * 2 ^ e) := by
  rcases eq_or_ne n 0 with rfl | nonzero
  · exact .inl (by simp)
  have hm : n.natAbs ≠ 0 := Int.natAbs_ne_zero.mpr nonzero
  have log : n.natAbs.log2 < 53 := (Nat.log2_lt hm).mpr lt
  -- as many zeros are appended as there is room for
  let k := min (52 - n.natAbs.log2) (e + 1074).toNat
  have longer : (n.natAbs * 2 ^ k).log2 = n.natAbs.log2 + k := log2_mul_pow hm k
  have pos : n.natAbs * 2 ^ k ≠ 0 := by positivity
  refine Held.of_mul_pow (C := Canonical) (k := k)
    ⟨Nat.pos_of_ne_zero pos, (Nat.log2_lt pos).mp (by omega), by omega, by omega, ?_⟩
  by_cases room : 52 - n.natAbs.log2 ≤ (e + 1074).toNat
  · exact .inl ((Nat.le_log2 pos).mp (by omega))
  · exact .inr (by omega)

theorem fits_intCast {n : ℤ} (hn : n.natAbs < 2 ^ 53) : Fits n := by
  simpa using fits_of_lt hn (show (-1074 : ℤ) ≤ 0 by norm_num) (by norm_num)

theorem is_ofNat {n : ℕ} (hn : n < 2 ^ 53) :
    Is (pack (UnpackedFloat.ofNat Format.binary64 n)) n := by
  have fits : Fits (((n : ℤ) : ℚ) * 2 ^ (0 : ℤ)) := by
    simpa using fits_intCast (n := (n : ℤ)) (by omega)
  obtain ⟨exact, value⟩ := normalize_exact fits .positive
  have packed := is_pack exact
  rw [value, zpow_zero, mul_one] at packed
  exact packed

theorem is_word (n : UInt32) : Is n.toFloat n.toNat :=
  is_ofNat (n.toNat_lt.trans (by norm_num))

theorem is_count {n : ℕ} (hn : n < 2 ^ 53) : Is n.toUInt64.toFloat n := by
  have same : n.toUInt64.toNat = n := Nat.mod_eq_of_lt (by omega)
  have exact : Is n.toUInt64.toFloat n.toUInt64.toNat := is_ofNat (by rwa [same])
  rwa [same] at exact

section Conversions

variable {x : Float} {q : ℚ}

theorem Exact.abs {u : UnpackedFloat} (h : Exact u) :
    Exact u.abs ∧ valueOf u.abs = |valueOf u| := by
  cases h with
  | zero s => exact ⟨.zero .positive, abs_zero.symm⟩
  | @finite s m e hm =>
    refine ⟨.finite .positive hm, ?_⟩
    have size : (0 : ℚ) < m * 2 ^ e := mul_pos (Nat.cast_pos.mpr hm.pos) (by positivity)
    cases s with
    | positive => exact (abs_of_pos size).symm
    | negative =>
      show (m : ℚ) * 2 ^ e = |((-(m : ℤ) : ℤ) : ℚ) * 2 ^ e|
      push_cast
      rw [neg_mul, abs_neg, abs_of_pos size]

theorem Is.abs (hx : Is x q) : Is x.abs |q| := by
  have packed := is_pack hx.exact.abs.1
  rwa [hx.exact.abs.2, hx.value] at packed

theorem mantissa_repeat_shiftRightOne (m : UnpackedFloat.ExtendedMantissa) (k : ℕ) :
    (Nat.repeat UnpackedFloat.ExtendedMantissa.shiftRightOne k m).mantissa
      = m.mantissa / 2 ^ k := by
  induction k with
  | zero => simp [Nat.repeat]
  | succ k ih =>
    show (Nat.repeat UnpackedFloat.ExtendedMantissa.shiftRightOne k m).mantissa / 2 = _
    rw [ih, Nat.div_div_eq_div_mul, pow_succ]

/-- The whole part of a number that is not negative. -/
theorem roundToInt_positive (m : ℕ) (e : ℤ) :
    UnpackedFloat.roundToInt .positive m e = ⌊(m : ℚ) * 2 ^ e⌋₊ := by
  unfold UnpackedFloat.roundToInt UnpackedFloat.decreaseExponent UnpackedFloat.shiftToExponent
  show (((Nat.repeat UnpackedFloat.ExtendedMantissa.shiftRightOne _ _).mantissa : ℕ) : ℤ) = _
  rw [mantissa_repeat_shiftRightOne]
  show ((m <<< (e - 0).toNat / 2 ^ (0 - (e - (e - 0).toNat)).toNat : ℕ) : ℤ) = _
  rw [Int.natCast_inj, Nat.shiftLeft_eq]
  rcases Int.eq_nat_or_neg e with ⟨k, rfl | rfl⟩
  · have left : ((k : ℤ) - 0).toNat = k := by omega
    have right : (0 - ((k : ℤ) - k)).toNat = 0 := by omega
    have whole : (m : ℚ) * 2 ^ (k : ℤ) = ((m * 2 ^ k : ℕ) : ℚ) := by
      push_cast
      rw [zpow_natCast]
    rw [left, right, whole, Nat.floor_natCast, pow_zero, Nat.div_one]
  · have left : (-(k : ℤ) - 0).toNat = 0 := by omega
    have right : (0 - (-(k : ℤ) - (0 : ℕ))).toNat = k := by omega
    have quotient : (m : ℚ) * 2 ^ (-(k : ℤ)) = (m : ℚ) / ((2 ^ k : ℕ) : ℚ) := by
      push_cast
      rw [zpow_neg, zpow_natCast, div_eq_mul_inv]
    rw [left, right, quotient, Nat.floor_div_eq_div, pow_zero, mul_one]

/-- **The word of a number is its whole part**, if it is not negative, and the greatest word if that
    is too great. -/
theorem Is.toUInt64_eq (hx : Is x q) (low : 0 ≤ q) :
    x.toUInt64.toNat = min ⌊q⌋₊ (2 ^ 64 - 1) := by
  have part : UnpackedFloat.toInt 0 (UInt64.size - 1) (unpack x) = ⌊q⌋₊ := by
    obtain ⟨ex, rfl⟩ := hx
    generalize unpack x = u at ex low ⊢
    cases ex with
    | zero s => rfl
    | @finite s m e hm =>
      cases s with
      | positive => exact roundToInt_positive m e
      | negative =>
        have size : (0 : ℚ) < m * 2 ^ e := mul_pos (Nat.cast_pos.mpr hm.pos) (by positivity)
        have below : valueOf (.finite .negative m e hm.pos) = -(m * 2 ^ e) := by
          show ((-(m : ℤ) : ℤ) : ℚ) * 2 ^ e = _
          push_cast
          ring
        rw [below] at low
        linarith
  show (UInt64.ofNatClamp (UnpackedFloat.toInt 0 (UInt64.size - 1) (unpack x)).toNat).toNat = _
  rw [part, Int.toNat_natCast]
  unfold UInt64.ofNatClamp
  split
  · rename_i short
    exact (min_eq_left (Nat.le_sub_one_of_lt short)).symm
  · rename_i long
    exact (min_eq_right ((Nat.sub_le _ _).trans (not_lt.mp long))).symm

theorem Is.toUInt64 (hx : Is x q) (low : 0 ≤ q) (high : q < 2 ^ 64) :
    x.toUInt64.toNat = ⌊q⌋₊ := by
  have whole : ⌊q⌋₊ < 2 ^ 64 := (Nat.floor_lt low).mpr (by exact_mod_cast high)
  rw [hx.toUInt64_eq low, min_eq_left (Nat.le_sub_one_of_lt whole)]

theorem isNegative_iff (x : Float) :
    isNegative x = true ↔ @UnpackedFloat.unpackSign Format.binary64 x.toBits.toBitVec ≠ 0#1 := by
  have bit : (@UnpackedFloat.unpackSign Format.binary64 x.toBits.toBitVec).toNat
      = (x.toBits >>> 63).toNat := by
    unfold UnpackedFloat.unpackSign
    rw [BitVec.toNat_cast, BitVec.extractLsb_toNat, UInt64.toNat_shiftRight,
      Nat.shiftRight_eq_div_pow, Nat.shiftRight_eq_div_pow]
    have := x.toBits.toNat_lt
    show x.toBits.toNat / 2 ^ 63 % 2 = x.toBits.toNat / 2 ^ 63
    omega
  generalize @UnpackedFloat.unpackSign Format.binary64 x.toBits.toBitVec = sign at bit ⊢
  unfold isNegative
  rw [beq_iff_eq, ← UInt64.toNat_inj, ← bit, ne_eq, ← BitVec.toNat_inj]
  have := sign.isLt
  show sign.toNat = 1 ↔ ¬ sign.toNat = 0
  omega

/-- **The sign bit tells whether a number is negative**, unless it is zero. -/
theorem Is.isNegative_iff (hx : Is x q) (hq : q ≠ 0) : isNegative x = true ↔ q < 0 := by
  rw [Double.isNegative_iff]
  obtain ⟨ex, rfl⟩ := hx
  have sign {s : Sign} {m : ℕ} {e : ℤ} {h : 0 < m} (hu : unpack x = .finite s m e h) :
      s = Sign.ofBitVec (@UnpackedFloat.unpackSign Format.binary64 x.toBits.toBitVec) := by
    change UnpackedFloat.unpack Format.binary64 x.toBits.toBitVec = _ at hu
    unfold UnpackedFloat.unpack at hu
    dsimp only at hu
    split at hu
    · split at hu <;> cases hu
    · split at hu
      · split at hu
        · cases hu
        · injection hu with hs
          exact hs.symm
      · injection hu with hs
        exact hs.symm
  cases hu : unpack x with
  | zero s => rw [hu] at hq; exact absurd rfl hq
  | infinity s => rw [hu] at ex; cases ex
  | notANumber => rw [hu] at ex; cases ex
  | finite s m e h =>
    have size : (0 : ℚ) < m * 2 ^ e := mul_pos (Nat.cast_pos.mpr h) (by positivity)
    have bit := sign hu
    unfold Sign.ofBitVec at bit
    split at bit
    · rename_i upright
      subst bit
      exact ⟨fun below => absurd upright below, fun neg => absurd size neg.not_gt⟩
    · rename_i below
      subst bit
      refine ⟨fun _ => ?_, fun _ => below⟩
      show (((-(m : ℤ)) : ℤ) : ℚ) * 2 ^ e < 0
      push_cast
      linarith

end Conversions

end Relief.Double
