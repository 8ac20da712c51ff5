import Relief.Proofs.Number.Nearest

/-!
# Double precision

What the 64 bits of a double stand for.

* `exact_unpack`: **the fields of a finite double are a zero or in canonical form**, so that every
  double that has a value is some number exactly;
* `Is.unique`: **a number other than zero is one double only**;
* `nan`: what is not a number stays so in sums, differences and products.
-/

namespace Relief.Double

open Float.Model (UnpackedFloat Format)
open Float.Model.UnpackedFloat (Sign)

/-! ## 1. Fields -/

/-- **A double is determined by its fields.** -/
theorem unpack_injective : Function.Injective unpack := by
  intro x y h
  have same : x.toModel.toBits.toBitVec = y.toModel.toBits.toBitVec :=
    (UnpackedFloat.unpack_inj_of_valid x.toModel.valid y.toModel.valid).mp h
  exact Float.toBits_inj.mp (UInt64.toBitVec_inj.mp same)

/-- **The fields of a finite double** are a zero or in canonical form. -/
theorem exact_unpack {x : Float} (h : (unpack x).isFinite = true) : Exact (unpack x) := by
  have bias : (Format.binary64.exponentBias : ℤ) = 1023 := rfl
  have places : (Format.binary64.mantissaBitsWithoutImplicit : ℤ) = 52 := rfl
  change (UnpackedFloat.unpack Format.binary64 x.toModel.toBits.toBitVec).isFinite = true at h
  change Exact (UnpackedFloat.unpack Format.binary64 x.toModel.toBits.toBitVec)
  have lt := (@UnpackedFloat.unpackMantissa Format.binary64 x.toModel.toBits.toBitVec).isLt
  have lt' := (@UnpackedFloat.unpackExponent Format.binary64 x.toModel.toBits.toBitVec).isLt
  rw [UnpackedFloat.unpack] at h ⊢
  split_ifs at h ⊢ with h1 h2 h3 h4
  · exact absurd h Bool.false_ne_true
  · exact absurd h Bool.false_ne_true
  · exact .zero _
  · have zero : (@UnpackedFloat.unpackExponent Format.binary64 x.toModel.toBits.toBitVec).toNat
        = 0 := by
      rw [h3]
      rfl
    have pos := Nat.pos_of_ne_zero fun zero => h4 (BitVec.eq_of_toNat_eq zero)
    exact .finite _ (h := ⟨pos, lt.trans (by decide), by omega, by omega, .inr (by omega)⟩)
  · have long (m : BitVec 52) : (1#1 ++ m).toNat = 2 ^ 52 + m.toNat := by
      rw [BitVec.toNat_append, ← Nat.shiftLeft_add_eq_or_of_lt m.isLt, Nat.shiftLeft_eq]
      rfl
    have full := long (@UnpackedFloat.unpackMantissa Format.binary64 x.toModel.toBits.toBitVec)
    have nonzero : (@UnpackedFloat.unpackExponent Format.binary64 x.toModel.toBits.toBitVec).toNat
        ≠ 0 := fun zero => h3 (BitVec.eq_of_toNat_eq zero)
    have below : (@UnpackedFloat.unpackExponent Format.binary64 x.toModel.toBits.toBitVec).toNat
        ≠ 2 ^ 11 - 1 := fun top => h1 (BitVec.eq_of_toNat_eq top)
    change _ < 2 ^ 52 at lt
    change _ < 2 ^ 11 at lt'
    refine .finite _ (h := ⟨?_, ?_, ?_, ?_, .inl ?_⟩)
    · exact full ▸ (by omega)
    · exact full ▸ (by omega)
    · omega
    · omega
    · exact full ▸ (by omega)

/-- A double whose fields are known has the value that they stand for. -/
theorem is_of_unpack {x : Float} {s : Sign} {m : ℕ} {e : ℤ} (hm : 0 < m)
    (h : unpack x = .finite s m e hm) : Is x (signed s (m * 2 ^ e)) :=
  ⟨exact_unpack (by rw [h]; rfl), by rw [h, valueOf_finite]⟩

/-- Canonical mantissas and exponents are told apart by the numbers they stand for. -/
theorem Canonical.unique {m m' : ℕ} {e e' : ℤ} (h : Canonical m e) (h' : Canonical m' e')
    (same : (m : ℚ) * 2 ^ e = m' * 2 ^ e') : m = m' ∧ e = e' := by
  have exponent : e = e' := by rw [← h.unitOf_eq, ← h'.unitOf_eq, same]
  subst exponent
  exact ⟨Nat.cast_injective (mul_right_cancel₀ (by positivity) same), rfl⟩

/-- A number that is finite and not zero has one canonical form. -/
theorem Exact.eq_of_valueOf {u v : UnpackedFloat} (hu : Exact u) (hv : Exact v)
    (same : valueOf u = valueOf v) (nonzero : valueOf u ≠ 0) : u = v := by
  have size {m : ℕ} {e : ℤ} (h : Canonical m e) : (0 : ℚ) < m * 2 ^ e :=
    mul_pos (Nat.cast_pos.mpr h.pos) (by positivity)
  cases hu with
  | zero s => exact absurd rfl nonzero
  | @finite s m e hm =>
    cases hv with
    | zero s' => exact absurd same nonzero
    | @finite s' m' e' hm' =>
      have := size hm
      have := size hm'
      rw [valueOf_finite, valueOf_finite] at same
      cases s <;> cases s' <;> dsimp only [signed] at same
      · obtain ⟨rfl, rfl⟩ := hm.unique hm' (neg_injective same)
        rfl
      · linarith
      · linarith
      · obtain ⟨rfl, rfl⟩ := hm.unique hm' same
        rfl

/-- **A number other than zero is one double only.** -/
theorem Is.unique {x y : Float} {q : ℚ} (hx : Is x q) (hy : Is y q) (hq : q ≠ 0) : x = y :=
  unpack_injective <| hx.exact.eq_of_valueOf hy.exact (hx.value.trans hy.value.symm)
    (hx.value.symm ▸ hq)

/-! ## 2. What is not a number -/

/-- What is not a number. -/
def nan : Float :=
  pack .notANumber

theorem unpack_nan : unpack nan = .notANumber := by
  rfl

section

variable (x : Float)

theorem nan_add : nan + x = nan := by
  show pack (UnpackedFloat.add Format.binary64 (unpack nan) (unpack x)) = nan
  rw [unpack_nan]
  cases unpack x <;> rfl

theorem add_nan : x + nan = nan := by
  show pack (UnpackedFloat.add Format.binary64 (unpack x) (unpack nan)) = nan
  rw [unpack_nan]
  cases unpack x <;> rfl

theorem nan_sub : nan - x = nan := by
  show pack (UnpackedFloat.sub Format.binary64 (unpack nan) (unpack x)) = nan
  rw [unpack_nan]
  cases unpack x <;> rfl

theorem sub_nan : x - nan = nan := by
  show pack (UnpackedFloat.sub Format.binary64 (unpack x) (unpack nan)) = nan
  rw [unpack_nan]
  cases unpack x <;> rfl

theorem nan_mul : nan * x = nan := by
  show pack (UnpackedFloat.mul Format.binary64 (unpack nan) (unpack x)) = nan
  rw [unpack_nan]
  cases unpack x <;> rfl

theorem not_nan_le : ¬ nan ≤ x := by
  show ¬ decide ((UnpackedFloat.compare (unpack nan) (unpack x)).any (·.isLE) = true) = true
  rw [unpack_nan]
  cases unpack x <;> exact Bool.false_ne_true

theorem not_le_nan : ¬ x ≤ nan := by
  show ¬ decide ((UnpackedFloat.compare (unpack x) (unpack nan)).any (·.isLE) = true) = true
  rw [unpack_nan]
  cases unpack x <;> exact Bool.false_ne_true

end

theorem sqrt_nan : nan.sqrt = nan := by
  decide +kernel

end Relief.Double
