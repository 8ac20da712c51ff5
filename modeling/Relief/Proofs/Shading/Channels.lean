import Relief.Depth.Finish
import Relief.Proofs.Number.Singles
import Relief.Proofs.Shading.Bytes

/-!
# Channels that are zero

A channel is read as a number, compared with others and with an edge, and stored again. Whether it
has been zero can be told at every stage.

* `quantize_unquantize`, `quantize_flipped`: what is stored for a channel, as it stands or taken from
  one;
* `Marks x p`: the number is zero where `p` holds, and no test takes it for zero elsewhere;
* `marks_unquantize`, `marks_flipped`: a channel marks that it is zero, and taken from one it marks
  that it is full;
* `Marks.least`: **the lesser of two numbers marks what either of them does**;
* `quantize_mul_zero`: what is multiplied by zero is stored as zero, be it a number or not.
-/

namespace Relief.Shading

open Float.Model (UnpackedFloat Format)

/-- A number that no test takes for zero. -/
structure Solid (x : Float32) : Prop where
  number : x.isNaN = false
  nonneg : 0 ≤ x
  pos : ¬ x ≤ 0
  edge : Finish.edge ≤ x
  quantize : quantize x ≠ 0

instance (x : Float32) : Decidable (Solid x) :=
  decidable_of_iff (x.isNaN = false ∧ 0 ≤ x ∧ ¬ x ≤ 0 ∧ Finish.edge ≤ x ∧ quantize x ≠ 0)
    ⟨fun ⟨a, b, c, d, e⟩ => ⟨a, b, c, d, e⟩, fun ⟨a, b, c, d, e⟩ => ⟨a, b, c, d, e⟩⟩

/-- A number is zero where something holds, and no test takes it for zero elsewhere. -/
structure Marks (x : Float32) (p : Prop) : Prop where
  zero : p → x = 0
  solid : ¬ p → Solid x

/-! ## 1. Bytes -/

/-- **A channel is stored as it has been read.** -/
theorem quantize_unquantize (c : UInt8) : quantize (unquantize c) = c := by
  revert c
  exact forall_byte (by decide +kernel)

/-- A channel that is taken from one is stored as what is left of 255. -/
theorem quantize_flipped (c : UInt8) : quantize (1 - unquantize c) = 255 - c := by
  revert c
  exact forall_byte (by decide +kernel)

/-- A channel that is multiplied by one stays what it is. -/
theorem unquantize_mul_one (c : UInt8) : unquantize c * 1 = unquantize c := by
  revert c
  exact forall_byte (by decide +kernel)

theorem tests_unquantize (c : UInt8) : c ≠ 0 →
    (unquantize c).isNaN = false ∧ 0 ≤ unquantize c ∧ ¬ unquantize c ≤ 0 ∧
      Finish.edge ≤ unquantize c := by
  revert c
  exact forall_byte (by decide +kernel)

theorem tests_flipped (c : UInt8) : c ≠ 255 →
    (1 - unquantize c).isNaN = false ∧ 0 ≤ 1 - unquantize c ∧ ¬ 1 - unquantize c ≤ 0 ∧
      Finish.edge ≤ 1 - unquantize c := by
  revert c
  exact forall_byte (by decide +kernel)

/-- **A channel marks that it is zero.** -/
theorem marks_unquantize (c : UInt8) : Marks (unquantize c) (c = 0) where
  zero h := by
    rw [h]
    rfl
  solid h := by
    obtain ⟨number, nonneg, pos, edge⟩ := tests_unquantize c h
    exact ⟨number, nonneg, pos, edge, by rwa [quantize_unquantize]⟩

/-- **A channel that is taken from one marks that it is full.** -/
theorem marks_flipped (c : UInt8) : Marks (1 - unquantize c) (c = 255) where
  zero h := by
    rw [h]
    rfl
  solid h := by
    obtain ⟨number, nonneg, pos, edge⟩ := tests_flipped c h
    refine ⟨number, nonneg, pos, edge, ?_⟩
    rw [quantize_flipped, ne_eq, sub_eq_zero]
    exact h ∘ Eq.symm

/-! ## 2. Numbers -/

namespace Marks

variable {a b : Float32} {p q : Prop}

/-- **The lesser of two numbers marks what either of them does.** -/
theorem least (ha : Marks a p) (hb : Marks b q) : Marks (least a b) (p ∨ q) := by
  unfold Shading.least
  by_cases hp : p
  · rw [ha.zero hp]
    by_cases hq : q
    · rw [hb.zero hq]
      exact ⟨fun _ => rfl, fun h => absurd (.inl hp) h⟩
    · rw [if_neg (by decide), if_neg (hb.solid hq).pos]
      exact ⟨fun _ => rfl, fun h => absurd (.inl hp) h⟩
  · have solid := ha.solid hp
    rw [if_neg (by rw [solid.number]; exact Bool.false_ne_true)]
    by_cases hq : q
    · rw [hb.zero hq, if_pos solid.nonneg]
      exact ⟨fun _ => rfl, fun h => absurd (.inr hq) h⟩
    · refine ⟨fun h => absurd h (not_or.mpr ⟨hp, hq⟩), fun _ => ?_⟩
      split
      · exact hb.solid hq
      · exact solid

/-- It is stored as zero exactly where it marks. -/
theorem quantize_eq_zero_iff (h : Marks a p) : quantize a = 0 ↔ p := by
  by_cases hp : p
  · rw [h.zero hp]
    exact iff_of_true (by decide) hp
  · exact iff_of_false (h.solid hp).quantize hp

/-- It is beyond the edge exactly where it does not mark. -/
theorem threshold (h : Marks a p) :
    (p → threshold Finish.edge a = 0) ∧ (¬ p → threshold Finish.edge a = 1) := by
  refine ⟨fun hp => ?_, fun hp => if_pos (h.solid hp).edge⟩
  rw [h.zero hp]
  exact if_neg (by decide)

end Marks

/-- **What is multiplied by zero is stored as zero**, be it a number or not. -/
theorem quantize_mul_zero (x : Float32) : quantize (x * 0) = 0 := by
  have product : x * 0 = Single.pack
      (UnpackedFloat.mul Format.binary32 (Single.unpack x) (Single.unpack 0)) := rfl
  rw [product]
  cases Single.unpack x with
  | zero s => cases s <;> decide +kernel
  | finite s m e hm =>
    show quantize (Single.pack (.zero _)) = 0
    cases s <;> decide +kernel
  | infinity s =>
    show quantize (Single.pack .notANumber) = 0
    decide +kernel
  | notANumber => decide +kernel

end Relief.Shading
