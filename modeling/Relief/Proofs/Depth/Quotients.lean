import Relief.Proofs.Depth.Masks
import Relief.Proofs.Number.Conversions

/-!
# The bytes of a slope field

The channels of a normal map are read as singles, divided and compared, and stored again. What is
stored as a validity is exact even so: a number that has been read from a byte, or taken from one
after that, is nearer to its own byte than to any other, and the least of such numbers stands for
the least of the bytes.

* `Single.div_self`, `quantize_zero_div`: quotients of equal numbers, and of zero;
* `Stands x c`: the single is nearest to a byte, and is stored as that byte;
* `Stands.least`: **the least of two numbers stands for the least of two bytes**;
* `Extraction.stands_upwardOf`: green, read as the convention says, stands for a byte;
* `Extraction.slopes_bytes`: **the slope field of a normal map, byte by byte**.
-/

namespace Relief

open Shading
open Float.Model (UnpackedFloat Format)
open Float.Model.UnpackedFloat (Sign)

/-! ## 1. Quotients -/

namespace Single

/-- The quotient of a mantissa by itself has one bit. -/
theorem divCore_self {m : ℕ} (e : ℤ) (pos : 0 < m) :
    UnpackedFloat.divCore Format.binary32 m e m e = (2 ^ 24, -24, .exact) := by
  have target : Format.binary32.targetExponent 0 = -24 := rfl
  unfold UnpackedFloat.divCore
  simp only [sub_self, target]
  show (m <<< 24 / m, _, UnpackedFloat.accuracyOfFraction (m <<< 24 % m) m) = _
  rw [Nat.shiftLeft_eq, Nat.mul_div_cancel_left _ pos, Nat.mul_mod_right]
  rfl

variable {x : Float32}

theorem exists_fields (finite : x.isFinite = true) (pos : ¬ x ≤ 0) :
    ∃ s m e, ∃ hm : 0 < m, unpack x = .finite s m e hm := by
  rcases exists_finite finite with ⟨s, h⟩ | ⟨s, m, e, canonical, h⟩
  · refine absurd ?_ pos
    show decide ((UnpackedFloat.compare (unpack x) (unpack 0)).any (·.isLE) = true) = true
    rw [h]
    cases s <;> rfl
  · exact ⟨s, m, e, canonical.pos, h⟩

/-- **A finite number, divided by itself, is one.** -/
theorem div_self (finite : x.isFinite = true) (pos : ¬ x ≤ 0) : x / x = 1 := by
  obtain ⟨s, m, e, hm, h⟩ := exists_fields finite pos
  have quotient : x / x = pack (UnpackedFloat.div Format.binary32 (unpack x) (unpack x)) := rfl
  rw [quotient, h]
  show pack (let (m', e', accuracy) := UnpackedFloat.divCore Format.binary32 m e m e
    UnpackedFloat.roundWithAccuracy Format.binary32 (s / s) m' e' accuracy) = 1
  rw [divCore_self e hm]
  cases s <;> rfl

/-- **Zero, divided by a finite number, is stored as zero.** -/
theorem quantize_zero_div (finite : x.isFinite = true) (pos : ¬ x ≤ 0) :
    quantize (0 / x) = 0 := by
  obtain ⟨s, m, e, hm, h⟩ := exists_fields finite pos
  have quotient : 0 / x = pack (UnpackedFloat.div Format.binary32 (unpack 0) (unpack x)) := rfl
  rw [quotient, h]
  show quantize (pack (.zero (.positive / s))) = 0
  cases s <;> decide +kernel

end Single

/-! ## 2. Bytes -/

namespace Shading

/-- A single is nearer to a byte than to any other one, and is stored as that byte. -/
structure Stands (x : Float32) (c : UInt8) : Prop where
  finite : x.isFinite = true
  near : |Single.value x * 255 - c.toNat| < 1 / 2
  stored : quantize x = c

theorem near_unquantize (c : UInt8) : (unquantize c).isFinite = true ∧
    |Single.value (unquantize c) * 255 - c.toNat| < 1 / 2 := by
  revert c
  exact forall_byte (by decide +kernel)

theorem near_flipped (c : UInt8) : (1 - unquantize c).isFinite = true ∧
    |Single.value (1 - unquantize c) * 255 - (255 - c).toNat| < 1 / 2 := by
  revert c
  exact forall_byte (by decide +kernel)

/-- A channel stands for itself. -/
theorem stands_unquantize (c : UInt8) : Stands (unquantize c) c :=
  ⟨(near_unquantize c).1, (near_unquantize c).2, quantize_unquantize c⟩

/-- A channel that is taken from one stands for what is left of 255. -/
theorem stands_flipped (c : UInt8) : Stands (1 - unquantize c) (255 - c) :=
  ⟨(near_flipped c).1, (near_flipped c).2, quantize_flipped c⟩

namespace Stands

variable {x y : Float32} {c d : UInt8}

theorem isNaN (h : Stands x c) : x.isNaN = false := by
  show (Single.unpack x).isNaN = false
  rcases Single.exists_finite h.finite with ⟨s, hx⟩ | ⟨s, m, e, canonical, hx⟩ <;> rw [hx] <;> rfl

/-- Numbers that stand for bytes are in the order of these. -/
theorem le_of_value_le (hx : Stands x c) (hy : Stands y d)
    (le : Single.value x ≤ Single.value y) : c ≤ d := by
  have above := (abs_lt.mp hx.near).1
  have below := (abs_lt.mp hy.near).2
  have next : ((c.toNat : ℕ) : ℚ) < (d.toNat + 1 : ℕ) := by
    push_cast
    linarith
  exact UInt8.le_iff_toNat_le.mpr (Nat.lt_succ_iff.mp (Nat.cast_lt.mp next))

/-- **The least of two numbers stands for the least of two bytes.** -/
theorem least (hx : Stands x c) (hy : Stands y d) : Stands (least x y) (min c d) := by
  unfold Shading.least
  rw [hx.isNaN, if_neg Bool.false_ne_true, UInt8.min_def]
  by_cases le : y ≤ x
  · have order : d ≤ c := hy.le_of_value_le hx ((Single.le_iff hy.finite hx.finite).mp le)
    rw [if_pos le]
    split
    · rename_i order'
      rwa [UInt8.le_antisymm order' order]
    · exact hy
  · rw [if_neg le]
    rw [Single.le_iff hy.finite hx.finite, not_le] at le
    rwa [if_pos (hx.le_of_value_le hy le.le)]

end Stands

end Shading

/-! ## 3. Green -/

namespace Extraction

/-- The green byte as it would be if green pointed up. -/
def upwardByte (convention : Convention) (green : UInt8) : UInt8 :=
  match convention with
  | .openGl => green
  | .directX => 255 - green

/-- **Green, read as the convention says, stands for a byte.** -/
theorem stands_upwardOf (convention : Convention) (green : UInt8) :
    Stands (upwardOf convention green) (upwardByte convention green) := by
  cases convention with
  | openGl => exact stands_unquantize green
  | directX => exact stands_flipped green

theorem upwardByte_eq_zero_iff {convention : Convention} {green : UInt8} :
    upwardByte convention green = 0 ↔ green = sunk convention := by
  rw [← (marks_upwardOf convention green).quantize_eq_zero_iff,
    (stands_upwardOf convention green).stored]

/-- What is left of one, divided by what is left of 255, is one but for its roundings. -/
theorem flipped_div (c : UInt8) : c ≠ 255 →
    (1 - unquantize c) / unquantize (255 - c) = 1 ∨
    (1 - unquantize c) / unquantize (255 - c) = .ofBits 0x3f7fffff ∨
    (1 - unquantize c) / unquantize (255 - c) = .ofBits 0x3f7ffffe := by
  revert c
  exact forall_byte (by decide +kernel)

/-- **A channel that equals blue is stored as full.** -/
theorem quantize_upwardOf_div {convention : Convention} {green blue : UInt8} (hb : blue ≠ 0)
    (h : upwardByte convention green = blue) :
    quantize (upwardOf convention green / unquantize blue) = 255 := by
  cases convention with
  | openGl =>
    obtain rfl : green = blue := h
    show quantize (unquantize green / unquantize green) = 255
    rw [Single.div_self (stands_unquantize green).finite ((marks_unquantize green).solid hb).pos]
    decide
  | directX =>
    obtain rfl : 255 - green = blue := h
    have short : green ≠ 255 := by
      rintro rfl
      exact hb rfl
    show quantize ((1 - unquantize green) / unquantize (255 - green)) = 255
    rcases flipped_div green short with one | below | below
    · rw [one]
      decide
    · rw [below]
      decide +kernel
    · rw [below]
      decide +kernel

/-! ## 4. Slope fields -/

/-- What is stored for a pixel of a normal map. -/
theorem pixel?_fieldAt (convention : Convention) (p : Pixel) :
    (fieldAt convention p).pixel? = some
      ⟨quantize (unquantize p.red / unquantize p.blue),
        quantize (upwardOf convention p.green / unquantize p.blue),
        min p.red (min (upwardByte convention p.green) p.blue), 255⟩ := by
  have known := (stands_unquantize p.blue).least
    ((stands_unquantize p.red).least (stands_upwardOf convention p.green))
  have least : min p.blue (min p.red (upwardByte convention p.green))
      = min p.red (min (upwardByte convention p.green) p.blue) := by
    simp only [UInt8.min_def]
    grind
  have solid : quantize 1 = 255 := by decide
  simp only [fieldAt, Value.pixel?, pixelOf, known.stored, least, solid]

/-- What alpha is does not matter. -/
theorem slopes_eq_of_alpha {map map' : Image} (hh : map.toExtent.isHoldable = true)
    (convention : Convention) (extent : map'.toExtent = map.toExtent)
    (same : ∀ x y p, map.pixel? x y = some p → ∃ alpha, map'.pixel? x y = some { p with alpha }) :
    slopes map' convention = slopes map convention := by
  obtain ⟨s, taken, size, pixels⟩ := slopes_pixels hh convention
  obtain ⟨s', taken', size', pixels'⟩ := slopes_pixels (extent ▸ hh) convention
  have images : s'.image = s.image := by
    refine Image.ext_pixel? (size'.trans (extent.trans size.symm)) fun x y hx hy => ?_
    have inside : s'.image.toExtent = map.toExtent := size'.trans extent
    rw [inside] at hx hy
    obtain ⟨p, hp⟩ := map.exists_pixel hx hy
    obtain ⟨alpha, hp'⟩ := same x y p hp
    rw [pixels x y p hp, pixels' x y _ hp']
    rfl
  have fields : s' = s := congrArg Slopes.mk images
  rw [taken, taken', fields]

/-- **The slope field of a normal map, byte by byte.** Its blue is the least of the three channels,
    with green read as the convention says, and its alpha is full. Red and green are quotients by
    blue: where blue is not zero, full for a channel that equals blue, and zero for one that is
    zero. The alpha of the map does not matter. -/
theorem slopes_bytes {map : Image} (hh : map.toExtent.isHoldable = true)
    (convention : Convention) :
    ∃ s, slopes map convention = .ok s ∧ s.extent = map.toExtent ∧
      (∀ x y p, map.pixel? x y = some p → ∃ q, s.image.pixel? x y = some q ∧
        q.blue = min p.red (min (upwardByte convention p.green) p.blue) ∧ q.alpha = 255 ∧
        q.red = quantize (unquantize p.red / unquantize p.blue) ∧
        q.green = quantize (upwardOf convention p.green / unquantize p.blue) ∧
        (p.blue ≠ 0 →
          (p.red = p.blue → q.red = 255) ∧
          (p.red = 0 → q.red = 0) ∧
          (upwardByte convention p.green = p.blue → q.green = 255) ∧
          (upwardByte convention p.green = 0 → q.green = 0))) ∧
      ∀ map' : Image, map'.toExtent = map.toExtent →
        (∀ x y p, map.pixel? x y = some p →
          ∃ alpha, map'.pixel? x y = some { p with alpha }) →
        slopes map' convention = .ok s := by
  obtain ⟨s, taken, size, pixels⟩ := slopes_pixels hh convention
  refine ⟨s, taken, size, ?_, ?_⟩
  · intro x y p hp
    refine ⟨_, (pixels x y p hp).trans (pixel?_fieldAt convention p), rfl, rfl, rfl, rfl, ?_⟩
    intro hb
    have finite := (stands_unquantize p.blue).finite
    have pos := ((marks_unquantize p.blue).solid hb).pos
    refine ⟨?_, ?_, quantize_upwardOf_div hb, ?_⟩
    · intro equal
      have full : quantize (upwardOf .openGl p.red / unquantize p.blue) = 255 :=
        quantize_upwardOf_div hb equal
      exact full
    · intro zero
      show quantize (unquantize p.red / unquantize p.blue) = 0
      rw [(marks_unquantize p.red).zero zero]
      exact Single.quantize_zero_div finite pos
    · intro zero
      show quantize (upwardOf convention p.green / unquantize p.blue) = 0
      rw [(marks_upwardOf convention p.green).zero (upwardByte_eq_zero_iff.mp zero)]
      exact Single.quantize_zero_div finite pos
  · intro map' extent same
    rw [slopes_eq_of_alpha hh convention extent same, taken]

theorem ledge_is_divided : ledge.toExtent.isHoldable = true ∧
    ∃ s, slopes ledge .openGl = .ok s ∧ s.extent = ⟨2, 1⟩ ∧
      (∃ q, s.image.pixel? 0 0 = some q ∧ q.green = 255 ∧ q.blue = 128 ∧ q.alpha = 255) ∧
      (∃ q, s.image.pixel? 1 0 = some q ∧ q.red = 0 ∧ q.blue = 0 ∧ q.alpha = 255) ∧
      slopes ⟨⟨2, 1⟩, #[⟨128, 255, 255, 0⟩, ⟨0, 255, 200, 9⟩], rfl⟩ .openGl = .ok s := by
  have holdable : ledge.toExtent.isHoldable = true := rfl
  obtain ⟨s, taken, extent, pixels, alphas⟩ := slopes_bytes holdable .openGl
  refine ⟨holdable, s, taken, extent, ?_, ?_, alphas _ rfl fun x y p hp => ?_⟩
  · obtain ⟨q, here, blue, alpha, _, _, known⟩ := pixels 0 0 ⟨128, 255, 255, 255⟩ rfl
    exact ⟨q, here, (known (by decide)).2.2.1 rfl, blue, alpha⟩
  · obtain ⟨q, here, blue, alpha, _, _, known⟩ := pixels 1 0 ⟨0, 255, 200, 255⟩ rfl
    exact ⟨q, here, (known (by decide)).2.1 rfl, blue, alpha⟩
  · obtain ⟨hx, hy⟩ := inside_of_pixel? hp
    have column : x < 2 := hx
    have row : y < 1 := hy
    obtain ⟨rfl | rfl, rfl⟩ : (x = 0 ∨ x = 1) ∧ y = 0 := by
      simp only [← UInt32.toNat_inj, UInt32.lt_iff_toNat_lt] at *
      exact ⟨Nat.le_one_iff_eq_zero_or_eq_one.mp (Nat.le_of_lt_succ column), Nat.lt_one_iff.mp row⟩
    · cases hp
      exact ⟨0, rfl⟩
    · cases hp
      exact ⟨9, rfl⟩

end Extraction

end Relief
