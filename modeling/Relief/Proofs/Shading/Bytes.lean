import Relief.Image

/-!
# Pixels in bytes

An image is stored row by row, and each of its pixels in four bytes.

* `forall_byte`: what holds of all bytes can be decided;
* `place_injective`, `place_lt`: no two pixels have the same place, and all places are inside;
* `Extent.toNat_offset`: the words in which the offset of a pixel is computed do not wrap;
* `Image.ext_pixel?`: an image is determined by its pixels;
* `Image.getElem?_bytes`: **where the channels of a pixel are stored**;
* `Image.ofBytes?_eq_ok`: **an image is made of the bytes that hold its pixels**;
* `Pixel.store`, `Pixel.getElem?_store`, `Pixel.getElem?_store_of_outside`: storing a pixel changes
  its four bytes, and no others.
-/

namespace Relief

/-- What holds of the numbers below 256 holds of all bytes. -/
theorem forall_byte {p : UInt8 → Prop} (h : ∀ n < 256, p (.ofNat n)) (c : UInt8) : p c := by
  have byte := h c.toNat c.toNat_lt
  rwa [UInt8.ofNat_toNat] at byte

/-! ## 1. Places -/

/-- Lists of one length, laid end to end. -/
theorem length_flatten_of_forall {α : Type} {lists : List (List α)} {n : Nat}
    (h : ∀ l ∈ lists, l.length = n) : lists.flatten.length = lists.length * n := by
  rw [List.length_flatten, List.map_congr_left h, List.map_const', List.sum_replicate_nat]

/-- The place in lists of one length, laid end to end. -/
theorem getElem?_flatten {α : Type} {lists : List (List α)} {n : Nat}
    (h : ∀ l ∈ lists, l.length = n) (k : Nat) {j : Nat} (hj : j < n) :
    lists.flatten[k * n + j]? = lists[k]?.bind fun l => l[j]? := by
  induction lists generalizing k with
  | nil => rfl
  | cons l rest ih =>
    have length := h l List.mem_cons_self
    cases k with
    | zero =>
      rw [Nat.zero_mul, Nat.zero_add, List.flatten_cons, List.getElem?_append_left (by omega)]
      rfl
    | succ k =>
      have index : (k + 1) * n + j = l.length + (k * n + j) := by
        rw [length, Nat.add_mul, Nat.one_mul]
        omega
      rw [index, List.flatten_cons, List.getElem?_append_right (Nat.le_add_right _ _),
        Nat.add_sub_cancel_left]
      exact ih (fun l hl => h l (List.mem_cons_of_mem _ hl)) k

/-- Places in rows of one width are told apart by their numbers. -/
theorem place_injective {w x x' y y' : Nat} (hx : x < w) (hx' : x' < w)
    (h : y * w + x = y' * w + x') : x = x' ∧ y = y' := by
  have columns := congrArg (· % w) h
  simp only [Nat.mul_add_mod_of_lt hx, Nat.mul_add_mod_of_lt hx'] at columns
  subst columns
  exact ⟨rfl, Nat.eq_of_mul_eq_mul_right (Nat.zero_lt_of_lt hx) (Nat.add_right_cancel h)⟩

/-- The number of a place is less than that of all places. -/
theorem place_lt {w h x y : Nat} (hx : x < w) (hy : y < h) : y * w + x < w * h := by
  calc y * w + x < y * w + w := Nat.add_lt_add_left hx _
    _ = (y + 1) * w := (Nat.succ_mul y w).symm
    _ ≤ h * w := Nat.mul_le_mul_right w hy
    _ = w * h := Nat.mul_comm h w

/-- Every number that is less than the area is that of a place. -/
theorem Extent.exists_place {e : Extent} {i : Nat} (hi : i < e.area) :
    ∃ x y : UInt32, x < e.width ∧ y < e.height ∧ y.toNat * e.width.toNat + x.toNat = i := by
  have wide : 0 < e.width.toNat := Nat.pos_of_ne_zero fun zero => by
    rw [Extent.area, zero, Nat.zero_mul] at hi
    exact Nat.not_lt_zero i hi
  have hx : i % e.width.toNat < e.width.toNat := Nat.mod_lt i wide
  have hy : i / e.width.toNat < e.height.toNat :=
    (Nat.div_lt_iff_lt_mul wide).mpr (Nat.mul_comm _ _ ▸ hi)
  have column : (UInt32.ofNat (i % e.width.toNat)).toNat = i % e.width.toNat :=
    UInt32.toNat_ofNat_of_lt' (Nat.lt_trans hx e.width.toNat_lt)
  have row : (UInt32.ofNat (i / e.width.toNat)).toNat = i / e.width.toNat :=
    UInt32.toNat_ofNat_of_lt' (Nat.lt_trans hy e.height.toNat_lt)
  refine ⟨.ofNat (i % e.width.toNat), .ofNat (i / e.width.toNat), ?_, ?_, ?_⟩
  · rwa [UInt32.lt_iff_toNat_lt, column]
  · rwa [UInt32.lt_iff_toNat_lt, row]
  · rw [column, row]
    exact Nat.div_add_mod' i _

/-- What memory can hold, a machine word can count. -/
theorem Extent.count_lt {e : Extent} (h : e.isHoldable = true) : 4 * e.area < 2 ^ 64 :=
  Nat.lt_trans (of_decide_eq_true h) (by decide)

/-- The offset of the first byte of a pixel, computed in words that wrap. -/
def Extent.offset (e : Extent) (x y : UInt32) : UInt64 :=
  (y.toUInt64 * e.width.toUInt64 + x.toUInt64) * 4

/-- **No word wraps on the way to the bytes of a pixel.** -/
theorem Extent.toNat_offset {e : Extent} {x y : UInt32} (hx : x < e.width) (hy : y < e.height)
    (count : 4 * e.area < 2 ^ 64) :
    (e.offset x y).toNat = (y.toNat * e.width.toNat + x.toNat) * 4 := by
  have inside := place_lt (UInt32.lt_iff_toNat_lt.mp hx) (UInt32.lt_iff_toNat_lt.mp hy)
  rw [Extent.area] at count
  have four : (4 : UInt64).toNat = 4 := rfl
  rw [offset, UInt64.toNat_mul, UInt64.toNat_add, UInt64.toNat_mul, UInt32.toNat_toUInt64,
    UInt32.toNat_toUInt64, UInt32.toNat_toUInt64, four, Nat.mod_eq_of_lt (by omega),
    Nat.mod_eq_of_lt (by omega), Nat.mod_eq_of_lt (by omega)]

/-! ## 2. The bytes of an image -/

namespace Image

variable (image : Image)

theorem length_of_mem_bytes : ∀ l ∈ image.pixels.toList.map Pixel.bytes, l.length = 4 := by
  intro l hl
  obtain ⟨pixel, _, rfl⟩ := List.mem_map.mp hl
  rfl

theorem length_bytes : image.bytes.length = 4 * image.area := by
  rw [bytes, List.flatMap_def, length_flatten_of_forall image.length_of_mem_bytes,
    List.length_map, Array.length_toList, image.size_pixels, Nat.mul_comm]
  rfl

/-- There is a pixel in every place. -/
theorem exists_pixel {x y : UInt32} (hx : x < image.width) (hy : y < image.height) :
    ∃ pixel, image.pixel? x y = some pixel := by
  have inside : y.toNat * image.width.toNat + x.toNat < image.pixels.size := by
    rw [image.size_pixels]
    exact place_lt (UInt32.lt_iff_toNat_lt.mp hx) (UInt32.lt_iff_toNat_lt.mp hy)
  exact ⟨_, (if_pos ⟨hx, hy⟩).trans (Array.getElem?_eq_getElem inside)⟩

/-- **Where the channels of a pixel are stored.** -/
theorem getElem?_bytes {x y : UInt32} (hx : x < image.width) (hy : y < image.height) {c : Nat}
    (hc : c < 4) :
    image.bytes[(y.toNat * image.width.toNat + x.toNat) * 4 + c]?
      = (image.pixel? x y).bind fun pixel => pixel.bytes[c]? := by
  rw [bytes, List.flatMap_def, getElem?_flatten image.length_of_mem_bytes _ hc, List.getElem?_map,
    Array.getElem?_toList, pixel?, if_pos ⟨hx, hy⟩, Option.bind_map]
  rfl

/-- Four bytes that are the channels of a pixel make that pixel. -/
theorem getElem_pixelsOfBytes {bytes : Array UInt8} {i : Nat} (hi : i < (pixelsOfBytes bytes).size)
    {pixel : Pixel} (h : ∀ c < 4, bytes[i * 4 + c]? = pixel.bytes[c]?) :
    (pixelsOfBytes bytes)[i] = pixel := by
  rw [Nat.mul_comm i 4] at h
  have red := (Array.getElem?_eq_some_iff.mp (h 0 (by decide))).2
  have green := (Array.getElem?_eq_some_iff.mp (h 1 (by decide))).2
  have blue := (Array.getElem?_eq_some_iff.mp (h 2 (by decide))).2
  have alpha := (Array.getElem?_eq_some_iff.mp (h 3 (by decide))).2
  simp only [pixelsOfBytes, Array.getElem_ofFn]
  rw [green, blue, alpha]
  exact congrArg (fun channel : UInt8 => Pixel.mk channel _ _ _) red

variable {image}

/-- The pixels of an image that is made of a function. -/
theorem pixel?_tabulate {e : Extent} {x y : UInt32} {f : (x y : Nat) → Pixel} (hx : x < e.width)
    (hy : y < e.height) : (tabulate e f).pixel? x y = some (f x.toNat y.toNat) := by
  have column := UInt32.lt_iff_toNat_lt.mp hx
  have inside : y.toNat * e.width.toNat + x.toNat < e.area :=
    place_lt column (UInt32.lt_iff_toNat_lt.mp hy)
  have row : (y.toNat * e.width.toNat + x.toNat) / e.width.toNat = y.toNat := by
    rw [Nat.mul_comm, Nat.mul_add_div (Nat.zero_lt_of_lt column), Nat.div_eq_of_lt column,
      Nat.add_zero]
  rw [pixel?, tabulate, if_pos ⟨hx, hy⟩, Array.getElem?_ofFn, dif_pos inside]
  simp only [row, Nat.mul_add_mod_self_right, Nat.mod_eq_of_lt column]

/-- **An image is determined by the pixels inside it.** -/
theorem ext_pixel? {image' : Image} (extent : image.toExtent = image'.toExtent)
    (same : ∀ x y, x < image.width → y < image.height → image.pixel? x y = image'.pixel? x y) :
    image = image' := by
  obtain ⟨e, pixels, size⟩ := image
  obtain ⟨e', pixels', size'⟩ := image'
  obtain rfl : e = e' := extent
  have stored : pixels = pixels' := by
    refine Array.ext (size.trans size'.symm) fun i hi hi' => ?_
    obtain ⟨x, y, hx, hy, place⟩ := Extent.exists_place (size ▸ hi)
    have here := same x y hx hy
    simp only [pixel?, if_pos (And.intro hx hy), place] at here
    rwa [Array.getElem?_eq_getElem hi, Array.getElem?_eq_getElem hi', Option.some.injEq] at here
  subst stored
  rfl

/-- **An image is made of the bytes that hold its pixels.** -/
theorem ofBytes?_eq_ok (count : 4 * image.area < 2 ^ 64) {bytes : Array UInt8}
    (size : bytes.size = 4 * image.area)
    (stored : ∀ x y, x < image.width → y < image.height → ∃ pixel,
      image.pixel? x y = some pixel ∧
      ∀ c < 4, bytes[(y.toNat * image.width.toNat + x.toNat) * 4 + c]? = pixel.bytes[c]?) :
    ofBytes? image.toExtent bytes = .ok image := by
  have sizes : (pixelsOfBytes bytes).size = image.pixels.size := by
    rw [size_pixelsOfBytes, size, image.size_pixels]
    exact Nat.mul_div_cancel_left _ (by decide)
  have pixels : pixelsOfBytes bytes = image.pixels := by
    refine Array.ext sizes fun i hi hi' => getElem_pixelsOfBytes hi ?_
    rw [image.size_pixels] at hi'
    obtain ⟨x, y, hx, hy, place⟩ := Extent.exists_place (e := image.toExtent) hi'
    obtain ⟨pixel, here, channels⟩ := stored x y hx hy
    rw [pixel?, if_pos ⟨hx, hy⟩, place, Array.getElem?_eq_some_iff] at here
    obtain ⟨_, rfl⟩ := here
    rw [place] at channels
    exact channels
  simp only [ofBytes?, Extent.byteCount?, if_pos count, dif_pos size]
  congr 2

end Image

/-! ## 3. Storing pixels -/

namespace Pixel

/-- Stores the four channels of a pixel from an offset on. -/
def store (pixel : Pixel) (bytes : Array UInt8) (offset : Nat) : Array UInt8 :=
  (((bytes.setIfInBounds offset pixel.red).setIfInBounds (offset + 1) pixel.green).setIfInBounds
    (offset + 2) pixel.blue).setIfInBounds (offset + 3) pixel.alpha

variable (pixel : Pixel)

theorem size_store (bytes : Array UInt8) (offset : Nat) :
    (pixel.store bytes offset).size = bytes.size := by
  simp only [store, Array.size_setIfInBounds]

/-- The channels of a pixel are where it was stored. -/
theorem getElem?_store {bytes : Array UInt8} {offset : Nat} (h : offset + 4 ≤ bytes.size) {c : Nat}
    (hc : c < 4) : (pixel.store bytes offset)[offset + c]? = pixel.bytes[c]? := by
  obtain rfl | rfl | rfl | rfl : c = 0 ∨ c = 1 ∨ c = 2 ∨ c = 3 := by omega
  all_goals
    simp only [store, Pixel.bytes, Array.getElem?_setIfInBounds, Array.size_setIfInBounds]
    grind

/-- All other bytes stay as they are. -/
theorem getElem?_store_of_outside (bytes : Array UInt8) {offset i : Nat}
    (h : i < offset ∨ offset + 4 ≤ i) : (pixel.store bytes offset)[i]? = bytes[i]? := by
  unfold store
  rw [Array.getElem?_setIfInBounds_ne (by omega), Array.getElem?_setIfInBounds_ne (by omega),
    Array.getElem?_setIfInBounds_ne (by omega), Array.getElem?_setIfInBounds_ne (by omega)]

end Pixel

end Relief
