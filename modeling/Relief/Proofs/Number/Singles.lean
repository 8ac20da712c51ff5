import Mathlib
import Relief.Number.Exact

/-!
# Single precision

What the 32 bits of a single stand for.

* `Canonical`: mantissas and exponents as the format keeps them;
* `ofParts`: the fields of a number, from the three parts of its bits;
* `unpack_injective`: **a single is determined by its fields**;
* `exists_finite`: the fields of a finite single are a zero or in canonical form.
-/

namespace Relief.Single

open Float.Model (UnpackedFloat Format)
open Float.Model.UnpackedFloat (Sign)

/-- A mantissa and an exponent as the format keeps them: the mantissa fills all of its places,
    unless the exponent is the least of all. -/
structure Canonical (m : ℕ) (e : ℤ) : Prop where
  pos : 0 < m
  lt : m < 2 ^ 24
  le : -149 ≤ e
  le' : e ≤ 104
  full : 2 ^ 23 ≤ m ∨ e = -149

/-! ## 1. Bits and fields -/

theorem toBitVec_ofBitVec (b : BitVec 1) : (Sign.ofBitVec b).toBitVec = b := by
  revert b
  decide

theorem ofBitVec_injective {b b' : BitVec 1} (h : Sign.ofBitVec b = Sign.ofBitVec b') : b = b' := by
  rw [← toBitVec_ofBitVec b, h, toBitVec_ofBitVec]

/-- The fields of a number whose bits have these three parts. -/
def ofParts (sign : BitVec 1) (exponent : BitVec 8) (mantissa : BitVec 23) : UnpackedFloat :=
  if exponent = -1#8 then
    if mantissa = 0#23 then .infinity (.ofBitVec sign) else .notANumber
  else if exponent = 0#8 then
    if h : mantissa = 0#23 then .zero (.ofBitVec sign)
    else .finite (.ofBitVec sign) mantissa.toNat (-149) (by
      simpa [BitVec.toNat_pos, BitVec.pos_iff_ne_zero])
  else .finite (.ofBitVec sign) (2 ^ 23 + mantissa.toNat) (exponent.toNat - 150) (by positivity)

theorem unpack_eq (b : BitVec 32) :
    UnpackedFloat.unpack Format.binary32 b
      = ofParts (b.extractLsb' 31 1) (b.extractLsb' 23 8) (b.extractLsb' 0 23) := by
  have s : (@UnpackedFloat.unpackSign Format.binary32 b) = b.extractLsb' 31 1 := rfl
  have e : (@UnpackedFloat.unpackExponent Format.binary32 b) = b.extractLsb' 23 8 := rfl
  have m : (@UnpackedFloat.unpackMantissa Format.binary32 b) = b.extractLsb' 0 23 := rfl
  unfold UnpackedFloat.unpack ofParts
  simp only [s, e, m]
  have bias : (Format.binary32.exponentBias : ℤ) = 127 := rfl
  split_ifs with h1 h2 h3 h4
  · rfl
  · rfl
  · rfl
  · congr 1
    rw [h3, bias]
    rfl
  · congr 1
    rw [BitVec.toNat_append, ← Nat.shiftLeft_add_eq_or_of_lt (BitVec.isLt _), Nat.shiftLeft_eq]
    rfl


/-- Bits that stand for a number at all are determined by it. -/
theorem ofParts_injective {s s' : BitVec 1} {e e' : BitVec 8} {m m' : BitVec 23}
    (hn : ofParts s e m ≠ .notANumber) (h : ofParts s e m = ofParts s' e' m') :
    s = s' ∧ e = e' ∧ m = m' := by
  have lt := m.isLt
  have lt' := m'.isLt
  unfold ofParts at h hn
  split_ifs at h hn with h1 h2 h3 h4 h5 h6 h7 h8 h9 h10 h11
  -- different classes have different fields, and in each class the fields are the parts
  all_goals first
    | exact absurd rfl hn
    | injection h
  all_goals refine ⟨ofBitVec_injective ‹_›, ?_, ?_⟩ <;> bv_omega

/-- The three parts of some bits are all of them. -/
theorem append_parts (b : BitVec 32) :
    b.extractLsb' 31 1 ++ b.extractLsb' 23 8 ++ b.extractLsb' 0 23 = b := by
  apply BitVec.eq_of_getLsbD_eq
  intro i hi
  simp only [BitVec.getLsbD_append, BitVec.getLsbD_extractLsb']
  grind

/-! ## 2. Singles -/

/-- **A single is determined by its fields.** -/
theorem unpack_injective : Function.Injective unpack := by
  intro x y h
  obtain ⟨⟨b, hb⟩⟩ := x
  obtain ⟨⟨b', hb'⟩⟩ := y
  change UnpackedFloat.unpack Format.binary32 b.toBitVec
    = UnpackedFloat.unpack Format.binary32 b'.toBitVec at h
  suffices same : b.toBitVec = b'.toBitVec by
    obtain rfl := UInt32.toBitVec_inj.mp same
    rfl
  by_cases hn : UnpackedFloat.unpack Format.binary32 b.toBitVec = .notANumber
  · have nan : ∀ {b : BitVec 32}, Format.binary32.Valid b →
        UnpackedFloat.unpack Format.binary32 b = .notANumber →
        b = UnpackedFloat.packedNaN Format.binary32 := by
      intro b valid hn
      unfold UnpackedFloat.unpack at hn
      dsimp only at hn
      split_ifs at hn with h1 h2
      exact valid.eq_packedNaN h1 h2
    rw [nan hb hn, nan hb' (h ▸ hn)]
  · rw [unpack_eq] at h hn
    rw [unpack_eq] at h
    obtain ⟨s, e, m⟩ := ofParts_injective hn h
    rw [← append_parts b.toBitVec, ← append_parts b'.toBitVec, s, e, m]

/-- **The fields of a finite single** are a zero or in canonical form. -/
theorem exists_finite {x : Float32} (h : x.isFinite = true) :
    (∃ s, unpack x = .zero s) ∨ ∃ s m e, ∃ c : Canonical m e, unpack x = .finite s m e c.pos := by
  have hf : (unpack x).isFinite = true := h
  have e : unpack x = ofParts (x.toModel.toBits.toBitVec.extractLsb' 31 1)
      (x.toModel.toBits.toBitVec.extractLsb' 23 8)
      (x.toModel.toBits.toBitVec.extractLsb' 0 23) := unpack_eq _
  rw [e] at hf ⊢
  generalize x.toModel.toBits.toBitVec.extractLsb' 31 1 = s at hf ⊢
  generalize x.toModel.toBits.toBitVec.extractLsb' 23 8 = e at hf ⊢
  generalize x.toModel.toBits.toBitVec.extractLsb' 0 23 = m at hf ⊢
  have lt := m.isLt
  have lt' := e.isLt
  unfold ofParts at hf ⊢
  split_ifs at hf ⊢ with h1 h2 h3 h4
  · exact absurd hf Bool.false_ne_true
  · exact absurd hf Bool.false_ne_true
  · exact .inl ⟨_, rfl⟩
  · have pos : 0 < m.toNat := Nat.pos_of_ne_zero fun zero => h4 (BitVec.eq_of_toNat_eq zero)
    exact .inr ⟨_, _, _, ⟨pos, by omega, by omega, by omega, .inr rfl⟩, rfl⟩
  · refine .inr ⟨_, _, _, ⟨by omega, by omega, ?_, ?_, .inl (by omega)⟩, rfl⟩ <;> bv_omega

end Relief.Single
