import Relief.Proofs.Number.Dyadic
import Relief.Proofs.Number.Singles

/-!
# Singles that stay finite

Rounding makes a number greater by a factor of two at most. What is well below the greatest single
is still a finite one when it has been rounded.

* `isFinite_pack`: an exponent that is not too great is packed as a finite number;
* `isFinite_roundWithAccuracy`: **so is the result of a rounding**;
* `isFinite_toFloat32`, `isFinite_div_255`: 32-bit words, and finite numbers divided by 255.
-/

namespace Relief.Single

open Float.Model (UnpackedFloat Format)
open Float.Model.UnpackedFloat (Sign Accuracy ExtendedMantissa)

/-! ## 1. Packing -/

/-- Bits whose exponent is not the greatest stand for a finite number. -/
theorem isFinite_packComponents (s : Sign) {exponent : BitVec 8} (mantissa : BitVec 23)
    (h : exponent ≠ -1#8) :
    (UnpackedFloat.unpack Format.binary32
      (UnpackedFloat.packComponents Format.binary32 s exponent mantissa)).isFinite = true := by
  unfold UnpackedFloat.unpack
  simp only [UnpackedFloat.unpackMantissa_packComponents,
    UnpackedFloat.unpackExponent_packComponents]
  rw [if_neg h]
  split_ifs <;> rfl

/-- **A number whose exponent is not too great is packed as a finite one.** -/
theorem isFinite_pack {s : Sign} {m : ℕ} {e : ℤ} {hm : 0 < m} (he : e ≤ 104) :
    (pack (.finite s m e hm)).isFinite = true := by
  show (UnpackedFloat.unpack Format.binary32
    (UnpackedFloat.pack Format.binary32 (.finite s m e hm))).isFinite = true
  have bias : (Format.binary32.exponentBias : ℤ) = 127 := rfl
  unfold UnpackedFloat.pack
  dsimp only
  rw [if_neg (by rw [bias]; omega)]
  split
  · refine isFinite_packComponents s _ fun h => ?_
    have wide := congrArg BitVec.toNat h
    rw [BitVec.toNat_ofNat, bias] at wide
    have greatest : (-1#8).toNat = 255 := rfl
    rw [greatest] at wide
    omega
  · exact isFinite_packComponents s _ (by decide)

theorem isFinite_pack_zero (s : Sign) : (pack (.zero s)).isFinite = true := by
  cases s <;> rfl

/-! ## 2. Rounding -/

/-- Shifting places out divides the mantissa. -/
theorem mantissa_shiftRight (em : ExtendedMantissa) (k : ℕ) :
    (em >>> k).mantissa = em.mantissa / 2 ^ k := by
  show (Nat.repeat ExtendedMantissa.shiftRightOne k em).mantissa = _
  induction k with
  | zero => simp [Nat.repeat]
  | succ k ih =>
    rw [Nat.repeat, ExtendedMantissa.shiftRightOne, ih, Nat.div_div_eq_div_mul, pow_succ]

/-- Rounding adds one to the mantissa at most. -/
theorem roundedMantissa_le (em : ExtendedMantissa) : em.roundedMantissa ≤ em.mantissa + 1 := by
  have odd := Nat.mod_lt em.mantissa two_pos
  obtain ⟨m, r, s⟩ := em
  cases r <;> cases s <;>
    simp only [ExtendedMantissa.roundedMantissa, ExtendedMantissa.accuracy,
      Accuracy.roundToNearestEven] at odd ⊢ <;> omega

/-- A number below a power of two that is rounded is at most that power. -/
theorem rounded_le {m : ℕ} {k b : ℕ} (h : m < 2 ^ (b + k)) (acc : Accuracy) :
    ((ExtendedMantissa.ofMantissaAndAccuracy m acc >>> k).roundedMantissa) ≤ 2 ^ b := by
  refine le_trans (roundedMantissa_le _) ?_
  have same : (ExtendedMantissa.ofMantissaAndAccuracy m acc).mantissa = m := by
    cases acc with
    | exact => rfl
    | inexact o => cases o <;> rfl
  rw [mantissa_shiftRight, same, Nat.succ_le_iff, Nat.div_lt_iff_lt_mul (by positivity), ← pow_add]
  exact h

/-- The place of the first bit of a number that is at most a power of two. -/
theorem log2_le_of_le {m b : ℕ} (h : m ≤ 2 ^ b) : m.log2 ≤ b := by
  rcases Nat.eq_zero_or_pos m with rfl | pos
  · exact Nat.zero_le b
  · exact Nat.le_of_lt_succ ((Nat.log2_lt pos.ne').mpr
      (lt_of_le_of_lt h (Nat.pow_lt_pow_right one_lt_two (Nat.lt_succ_self b))))

/-- **What is well below the greatest single is finite after rounding.** -/
theorem isFinite_roundWithAccuracy (s : Sign) {m : ℕ} {e : ℤ} (acc : Accuracy) (he : e ≤ 104)
    (ht : Float.Model.totalExponent m e ≤ 127) :
    (pack (UnpackedFloat.roundWithAccuracy Format.binary32 s m e acc)).isFinite = true := by
  have bits : (Format.binary32.mantissaBits : ℤ) = 24 := rfl
  have least : Format.binary32.minExponent = -149 := rfl
  have width : m < 2 ^ (m.log2 + 1) := Nat.lt_log2_self
  unfold UnpackedFloat.roundWithAccuracy UnpackedFloat.shiftToTargetExponent
    UnpackedFloat.shiftToExponent Format.targetExponent
  dsimp only
  unfold Float.Model.totalExponent at ht ⊢
  rw [bits, least]
  -- the exponent after the first shift, and the mantissa as it is rounded there
  generalize hk : (max ((m.log2 : ℤ) + 1 + e - 24) (-149) - e).toNat = k
  have rounded := rounded_le (k := k) (b := m.log2 + 1 - k)
    (lt_of_lt_of_le width (Nat.pow_le_pow_right two_pos (by omega))) acc
  generalize (ExtendedMantissa.ofMantissaAndAccuracy m acc >>> k).roundedMantissa = M at rounded ⊢
  have wide := log2_le_of_le rounded
  split
  · exact isFinite_pack_zero s
  · exact isFinite_pack (by omega)

/-- A number that is given exactly is finite after rounding. -/
theorem isFinite_round (s : Sign) {m : ℕ} {e : ℤ} (he : e ≤ 104)
    (ht : Float.Model.totalExponent m e ≤ 127) :
    (pack (UnpackedFloat.round Format.binary32 s m e)).isFinite = true := by
  unfold UnpackedFloat.round UnpackedFloat.decreaseExponent
  dsimp only
  generalize (e - Format.binary32.targetExponent (Float.Model.totalExponent m e)).toNat = k
  refine isFinite_roundWithAccuracy s _ (by omega) ?_
  unfold Float.Model.totalExponent at ht ⊢
  rw [Nat.shiftLeft_eq]
  rcases Nat.eq_zero_or_pos m with rfl | pos
  · rw [Nat.zero_mul]
    simp only [Nat.log2_zero] at ht ⊢
    omega
  · rw [Double.log2_mul_pow pos.ne']
    push_cast
    omega

/-! ## 3. Words and quotients -/

/-- **A 32-bit word is a finite single.** -/
theorem isFinite_toFloat32 (n : UInt32) : n.toFloat32.isFinite = true := by
  show (pack (UnpackedFloat.normalize Format.binary32 (n.toNat : ℤ) 0 .positive)).isFinite = true
  have lt := n.toNat_lt
  unfold UnpackedFloat.normalize
  split
  · rename_i h
    have := compare_lt_iff_lt.mp h
    omega
  · exact isFinite_pack_zero _
  · refine isFinite_round _ (by norm_num) ?_
    unfold Float.Model.totalExponent
    have log := log2_le_of_le (m := n.toNat) (b := 32) (by omega)
    simp only [Int.toNat_natCast]
    omega

theorem unpack_255 :
    unpack 255 = .finite .positive 16711680 (-16) (by decide) := rfl

/-- **A finite single divided by 255 is finite.** -/
theorem isFinite_div_255 {x : Float32} (h : x.isFinite = true) : (x / 255).isFinite = true := by
  show (pack (UnpackedFloat.div Format.binary32 (unpack x) (unpack 255))).isFinite = true
  rw [unpack_255]
  rcases exists_finite h with ⟨s, hx⟩ | ⟨s, m, e, c, hx⟩
  · rw [hx]
    cases s <;> rfl
  · have bits : (Format.binary32.mantissaBits : ℤ) = 24 := rfl
    have least : Format.binary32.minExponent = -149 := rfl
    have log : Nat.log2 16711680 = 23 := by decide
    have most : m.log2 < 24 := (Nat.log2_lt c.pos.ne').mpr c.lt
    have le := c.le
    have le' := c.le'
    rw [hx]
    unfold UnpackedFloat.div UnpackedFloat.divCore
    dsimp only
    unfold Format.targetExponent Float.Model.totalExponent
    rw [bits, least, log]
    generalize hk : (e - -16 - min (e - -16)
      (max ((m.log2 : ℤ) + 1 + e - (((23 : ℕ) : ℤ) + 1 + -16) - 24) (-149))).toNat = k
    refine isFinite_roundWithAccuracy _ _ (by omega) ?_
    -- the divisor takes at least 23 places off the dividend
    have quotient : (m <<< k / 16711680).log2 ≤ m.log2 + k + 1 - 23 := by
      refine log2_le_of_le (le_of_lt ?_)
      rw [Nat.div_lt_iff_lt_mul (by norm_num), Nat.shiftLeft_eq]
      calc m * 2 ^ k < 2 ^ (m.log2 + 1) * 2 ^ k :=
            Nat.mul_lt_mul_of_pos_right Nat.lt_log2_self (by positivity)
        _ = 2 ^ (m.log2 + k + 1) := by ring
        _ ≤ 2 ^ (m.log2 + k + 1 - 23 + 23) := Nat.pow_le_pow_right two_pos (by omega)
        _ ≤ 2 ^ (m.log2 + k + 1 - 23) * 16711680 := by
            rw [pow_add]
            exact Nat.mul_le_mul_left _ (by norm_num)
    unfold Float.Model.totalExponent
    omega

end Relief.Single
