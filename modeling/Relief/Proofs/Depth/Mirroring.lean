import Relief.Proofs.Depth.Finishing
import Relief.Proofs.Number.Halves
import Relief.Proofs.Shading.Bytes

/-!
# Mirrored depth maps

The term against perspective grows with the distance from the middle of the image. The middle of a
pixel and the middle of the image are halves of whole numbers, so that their distance is exact, and
a pixel and its mirror image lie equally far on either side.

* `Image.mirrored`: an image with its columns, or its rows, in the opposite order;
* `Finish.offsetAt_is`: **how far a pixel is from the middle, exactly**;
* `Finish.squaredAt_place`: so that the squared distance is that of the mirrored pixel;
* `Finish.mirror_images_are_finished_alike`: **finishing and mirroring commute**.
-/

namespace Relief

open Shading

/-! ## 1. Mirrored images -/

/-- How an image is mirrored. -/
inductive Mirror where
  /-- Left and right are exchanged. -/
  | sideways
  /-- Top and bottom are exchanged. -/
  | upsideDown
  deriving DecidableEq, Repr

/-- The place at which an image has what its mirror image has at the given one. -/
def Mirror.place (m : Mirror) (e : Extent) (x y : UInt32) : UInt32 × UInt32 :=
  match m with
  | sideways => (e.width - 1 - x, y)
  | upsideDown => (x, e.height - 1 - y)

/-- The mirror image of an image. -/
def Image.mirrored (image : Image) (m : Mirror) : Image :=
  .tabulate image.toExtent fun x y =>
    let (x, y) := m.place image.toExtent x.toUInt32 y.toUInt32
    sample image x y

/-- Places are counted from the other end as places. -/
theorem toNat_opposite {x n : UInt32} (h : x < n) :
    (n - 1 - x).toNat = n.toNat - 1 - x.toNat ∧ n - 1 - x < n := by
  have lt := UInt32.lt_iff_toNat_lt.mp h
  have one : (1 : UInt32) ≤ n := UInt32.le_iff_toNat_le.mpr (Nat.one_le_of_lt lt)
  have less := UInt32.toNat_sub_of_le n 1 one
  have le : x ≤ n - 1 := by
    rw [UInt32.le_iff_toNat_le, less]
    exact Nat.le_pred_of_lt lt
  have opposite := UInt32.toNat_sub_of_le (n - 1) x le
  rw [less] at opposite
  refine ⟨opposite, UInt32.lt_iff_toNat_lt.mpr ?_⟩
  rw [opposite]
  show n.toNat - 1 - x.toNat < n.toNat
  omega

/-- What is inside an image is mirrored inside it. -/
theorem Mirror.place_lt (m : Mirror) {e : Extent} {x y : UInt32} (hx : x < e.width)
    (hy : y < e.height) : (m.place e x y).1 < e.width ∧ (m.place e x y).2 < e.height := by
  cases m with
  | sideways => exact ⟨(toNat_opposite hx).2, hy⟩
  | upsideDown => exact ⟨hx, (toNat_opposite hy).2⟩

namespace Image

variable {image : Image} {x y : UInt32}

/-- **The pixels of a mirror image.** -/
theorem pixel?_mirrored (m : Mirror) (hx : x < image.width) (hy : y < image.height) :
    (image.mirrored m).pixel? x y
      = image.pixel? (m.place image.toExtent x y).1 (m.place image.toExtent x y).2 := by
  obtain ⟨hx', hy'⟩ := m.place_lt hx hy
  obtain ⟨p, here⟩ := image.exists_pixel hx' hy'
  rw [mirrored, pixel?_tabulate hx hy, here]
  simp only [Nat.toUInt32, UInt32.ofNat_toNat, sample_of_pixel? here]

theorem sample_mirrored (m : Mirror) (hx : x < image.width) (hy : y < image.height) :
    sample (image.mirrored m) x y
      = sample image (m.place image.toExtent x y).1 (m.place image.toExtent x y).2 := by
  rw [sample, pixel?_mirrored m hx hy, sample]

end Image

namespace Finish

/-! ## 2. Distances from the middle -/

open Single (Is)

/-- **How far the middle of a pixel is from that of its row**, exactly: it is half of a whole
    number. -/
theorem offsetAt_is {place length : UInt32} (inside : place < length)
    (short : length.toNat ≤ 2 ^ 22) :
    Is (offsetAt place length) (((2 * place.toNat + 1 - length.toNat : ℤ) : ℚ) / 2) := by
  have lt := UInt32.lt_iff_toNat_lt.mp inside
  have middle : Is (place.toFloat32 + 0.5) (((2 * place.toNat + 1 : ℤ) : ℚ) / 2) := by
    have sum : ((2 * place.toNat + 1 : ℤ) : ℚ) / 2 = place.toNat + 1 / 2 := by
      push_cast
      ring
    rw [sum]
    exact (Single.is_word (by omega)).add Single.is_half
      (sum ▸ Single.held_half (by omega))
  have half : Is (length.toFloat32 * 0.5) ((length.toNat : ℚ) / 2) := by
    refine (Single.is_word (by omega)).half (.inr ?_)
    rw [Nat.abs_cast]
    exact_mod_cast Nat.one_le_of_lt lt
  have difference : ((2 * place.toNat + 1 - length.toNat : ℤ) : ℚ) / 2
      = ((2 * place.toNat + 1 : ℤ) : ℚ) / 2 - (length.toNat : ℚ) / 2 := by
    push_cast
    ring
  rw [offsetAt, difference]
  exact middle.sub half (difference ▸ Single.held_half (by omega))

/-- Counted from the other end, a pixel is as far from the middle. -/
theorem offsetAt_opposite {place length : UInt32} (inside : place < length)
    (short : length.toNat ≤ 2 ^ 22) :
    offsetAt (length - 1 - place) length * offsetAt (length - 1 - place) length
      = offsetAt place length * offsetAt place length := by
  obtain ⟨count, inside'⟩ := toNat_opposite inside
  have lt := UInt32.lt_iff_toNat_lt.mp inside
  have here := offsetAt_is inside short
  have there := offsetAt_is inside' short
  have opposite : ((2 * (length - 1 - place).toNat + 1 - length.toNat : ℤ) : ℚ) / 2
      = -(((2 * place.toNat + 1 - length.toNat : ℤ) : ℚ) / 2) := by
    rw [← neg_div, ← Int.cast_neg]
    congr 2
    omega
  exact (here.square_eq (opposite ▸ there)).symm

/-- **A pixel is as far from the middle as its mirror image.** -/
theorem squaredAt_place (m : Mirror) {e : Extent} {x y : UInt32} (hx : x < e.width)
    (hy : y < e.height) (wide : e.width.toNat ≤ 2 ^ 22) (high : e.height.toNat ≤ 2 ^ 22) :
    squaredAt e (m.place e x y).1 (m.place e x y).2 = squaredAt e x y := by
  cases m with
  | sideways => rw [squaredAt, squaredAt, Mirror.place, offsetAt_opposite hx wide]
  | upsideDown => rw [squaredAt, squaredAt, Mirror.place, offsetAt_opposite hy high]

/-! ## 3. Mirrored maps -/

variable (f : Finish) (m : Mirror) {depth : Image} {mask : Option Image}

/-- A mask is used, or it is not, whichever way it lies. -/
theorem isIdle_mirrored :
    f.isIdle (mask.map fun i => i.mirrored m) = f.isIdle mask := by
  rw [isIdle, isIdle, mask?, mask?]
  split
  · rw [Option.isNone_map]
  · rfl

/-- What a mirrored mask has at a place. -/
theorem sample_mask {e : Extent} (hmask : ∀ i ∈ mask, i.toExtent = e) {x y : UInt32}
    (hx : x < e.width) (hy : y < e.height) :
    (mask.map fun i => i.mirrored m).map (sample · x y)
      = mask.map (sample · (m.place e x y).1 (m.place e x y).2) := by
  cases mask with
  | none => rfl
  | some i =>
    obtain rfl := hmask i rfl
    exact congrArg some (Image.sample_mirrored m hx hy)

/-- **Finishing and mirroring commute.** Take a depth map of at most 2²² columns and rows and a mask
    of its extent, or none. Whatever corrections are asked for, and at any strength, the map can be
    finished; and when the map and the mask are mirrored, sideways or upside down, what is finished
    is the mirror image of that, byte for byte. -/
theorem mirror_images_are_finished_alike (wide : depth.width.toNat ≤ 2 ^ 22)
    (high : depth.height.toNat ≤ 2 ^ 22) (hmask : ∀ i ∈ mask, i.toExtent = depth.toExtent) :
    ∃ finished, f.image depth mask = .ok finished ∧ finished.toExtent = depth.toExtent ∧
      f.image (depth.mirrored m) (mask.map fun i => i.mirrored m) = .ok (finished.mirrored m) := by
  have used : f.isIdle (mask.map fun i => i.mirrored m) = f.isIdle mask := f.isIdle_mirrored m
  cases idle : f.isIdle mask with
  | true => exact ⟨depth, image_of_isIdle idle, rfl, image_of_isIdle (used.trans idle)⟩
  | false =>
    have holdable : depth.toExtent.isHoldable = true := by
      have area : depth.toExtent.area ≤ 2 ^ 22 * 2 ^ 22 := Nat.mul_le_mul wide high
      exact decide_eq_true (by omega)
    have mirrored : ∀ i ∈ mask.map fun i => i.mirrored m,
        i.toExtent = (depth.mirrored m).toExtent := by
      intro i hi
      obtain ⟨original, here, rfl⟩ := Option.mem_map.mp hi
      exact hmask original here
    obtain ⟨finished, drawn, extent, pixels⟩ := drawn_pixels mask idle hmask holdable
    obtain ⟨finished', drawn', extent', pixels'⟩ :=
      drawn_pixels _ (used.trans idle) mirrored holdable
    suffices same : finished' = finished.mirrored m by
      exact ⟨finished, drawn, extent, same ▸ drawn'⟩
    replace extent' : finished'.toExtent = depth.toExtent := extent'
    refine Image.ext_pixel? (extent'.trans extent.symm) fun x y hx hy => ?_
    rw [extent'] at hx hy
    obtain ⟨hx', hy'⟩ := m.place_lt hx hy
    -- both maps show the value of one place, raised by the distance of either place
    have raised (value : Float32) : f.raisedAt depth.toExtent x y value
        = f.raisedAt depth.toExtent (m.place depth.toExtent x y).1
            (m.place depth.toExtent x y).2 value := by
      rw [raisedAt, raisedAt, squaredAt_place m hx hy wide high]
    refine (pixels' x y hx hy).trans ?_
    rw [Image.pixel?_mirrored m (extent ▸ hx) (extent ▸ hy), extent, pixels _ _ hx' hy',
      sample_mask m hmask hx hy, Image.sample_mirrored m hx hy, ← raised]
    rfl

/-- Corrections of a negative strength, whose masked pixels are transparent. -/
def hollow : Finish :=
  { perspective := -40, clears := true }

theorem dunes_are_mirrored : dunes.width.toNat ≤ 2 ^ 22 ∧ dunes.height.toNat ≤ 2 ^ 22 ∧
    (∀ i ∈ some shore, i.toExtent = dunes.toExtent) ∧
    dunes.mirrored .sideways = ⟨⟨2, 1⟩, #[.grey 200, .grey 90], rfl⟩ ∧
    ∃ finished, hollow.image dunes (some shore) = .ok finished ∧
      finished.toExtent = dunes.toExtent ∧
      hollow.image (dunes.mirrored .sideways) (some (shore.mirrored .sideways))
        = .ok (finished.mirrored .sideways) := by
  have wide : dunes.width.toNat ≤ 2 ^ 22 := by decide
  have high : dunes.height.toNat ≤ 2 ^ 22 := by decide
  have fits : ∀ i ∈ some shore, i.toExtent = dunes.toExtent := by
    rintro _ ⟨⟩
    rfl
  exact ⟨wide, high, fits, by decide,
    mirror_images_are_finished_alike hollow .sideways wide high fits⟩

end Finish

end Relief
