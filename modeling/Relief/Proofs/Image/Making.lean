import Relief.Proofs.Shading.Bytes

/-!
# Making images and reading their pixels

Images are made of bytes or of the answers of a function, and a pixel is read from four bytes at an
offset that is computed in machine words. What has been put in is what is read.

* `Extent.places`: the places of an image, row by row;
* `Image.callAll`, `Image.ofCalls?`: a function that may do more than answer is called for all of them;
* `Image.callAll_eq`: **it is called once for each place, in this order**, whatever else it does;
* `Image.ofBytes?_eq_ok_iff`: **which bytes make an image**, and which one;
* `Image.Made`, `Image.made_iff`: the images that can be made, which are those that their own bytes
  make;
* `Image.Made.read`: **the bytes of a pixel are inside**, and the words of their places do not wrap;
* `images_are_read_as_made`: all of it.
-/

namespace Relief

/-! ## 1. Places -/

namespace Extent

variable {e : Extent}

/-- The places of an image, row by row from the top. -/
def places (e : Extent) : List (Nat × Nat) :=
  (List.range e.height.toNat).flatMap fun y => (List.range e.width.toNat).map fun x => (x, y)

theorem length_of_mem_rows (e : Extent) : ∀ row ∈ (List.range e.height.toNat).map (fun y =>
    (List.range e.width.toNat).map fun x => (x, y)), row.length = e.width.toNat := by
  intro row mem
  obtain ⟨y, -, rfl⟩ := List.mem_map.mp mem
  rw [List.length_map, List.length_range]

/-- There are as many places as pixels. -/
theorem length_places (e : Extent) : e.places.length = e.area := by
  rw [places, List.flatMap_def, length_flatten_of_forall e.length_of_mem_rows, List.length_map,
    List.length_range, Nat.mul_comm]
  rfl

/-- **Where a place comes in the order.** -/
theorem getElem?_places {x y : Nat} (hx : x < e.width.toNat) (hy : y < e.height.toNat) :
    e.places[y * e.width.toNat + x]? = some (x, y) := by
  rw [places, List.flatMap_def, getElem?_flatten e.length_of_mem_rows y hx, List.getElem?_map,
    List.getElem?_range hy]
  simp [hx]

end Extent

/-! ## 2. Calls -/

namespace Image

section Calls

variable {m : Type → Type} [Monad m]

/-- The bytes of the pixels that a function answers, which may do more than answer: it is called for the
    rows from the top, and in each of them for the columns from the left. -/
def callAll (e : Extent) (f : (x y : Nat) → m Pixel) : m (Array UInt8) :=
  (List.range e.height.toNat).foldlM (fun bytes y =>
    (List.range e.width.toNat).foldlM (fun bytes x => do
      let p ← f x y
      return bytes ++ p.bytes.toArray) bytes) #[]

/-- The image of the pixels that a function answers. It is not called where there is no such image. -/
def ofCalls? (e : Extent) (f : (x y : Nat) → m Pixel) : m (Except Unfit Image) :=
  match e.byteCount? with
  | none => return .error .tooLarge
  | some _ =>
    if e.isHoldable then do
      let bytes ← callAll e f
      return ofBytes? e bytes
    else return .error .unholdable

variable [LawfulMonad m]

/-- A loop over rows, in each of which there is a loop over columns, is one loop over the places. -/
theorem foldlM_rows {α β γ : Type} (step : γ → α × β → m γ) (columns : List α) (rows : List β)
    (start : γ) :
    rows.foldlM (fun state y => columns.foldlM (fun state x => step state (x, y)) state) start
      = (rows.flatMap fun y => columns.map fun x => (x, y)).foldlM step start := by
  induction rows generalizing start with
  | nil => rfl
  | cons y rest ih =>
    rw [List.foldlM_cons, List.flatMap_cons, List.foldlM_append, List.foldlM_map]
    exact bind_congr ih

/-- What is appended call after call is what all calls answer together. -/
theorem foldlM_append_bytes {α : Type} (call : α → m Pixel) (items : List α) (start : Array UInt8) :
    items.foldlM (fun bytes a => do
        let p ← call a
        return bytes ++ p.bytes.toArray) start
      = (fun pixels => start ++ (pixels.flatMap Pixel.bytes).toArray) <$> items.mapM call := by
  induction items generalizing start with
  | nil => simp
  | cons a rest ih =>
    simp only [List.foldlM_cons, List.mapM_cons, bind_assoc, pure_bind, map_bind, map_pure, ih]
    refine bind_congr fun p => ?_
    rw [← bind_pure_comp]
    simp

/-- **A function is called once for each place, row by row**, and what the calls answer is kept in this
    order. -/
theorem callAll_eq (e : Extent) (f : (x y : Nat) → m Pixel) :
    callAll e f = (fun pixels => (pixels.flatMap Pixel.bytes).toArray) <$>
      e.places.mapM fun p => f p.1 p.2 := by
  have loop := foldlM_rows (fun bytes (p : Nat × Nat) => do
    let q ← f p.1 p.2
    return bytes ++ q.bytes.toArray) (List.range e.width.toNat) (List.range e.height.toNat) #[]
  rw [callAll, loop, foldlM_append_bytes (fun p : Nat × Nat => f p.1 p.2)]
  simp [Extent.places]

end Calls

/-! ## 3. Bytes -/

/-- Bytes that are grouped by fours are the channels of the pixels, in order. -/
theorem flatMap_pixelsOfBytes {bytes : Array UInt8} {n : Nat} (size : bytes.size = 4 * n) :
    (pixelsOfBytes bytes).toList.flatMap Pixel.bytes = bytes.toList := by
  have four : ∀ l ∈ (pixelsOfBytes bytes).toList.map Pixel.bytes, l.length = 4 := by
    intro l mem
    obtain ⟨p, -, rfl⟩ := List.mem_map.mp mem
    rfl
  refine List.ext_getElem? fun i => ?_
  have channel : i % 4 < 4 := Nat.mod_lt i (by decide)
  rw [List.flatMap_def, ← Nat.div_add_mod' i 4, getElem?_flatten four _ channel,
    List.getElem?_map, Array.getElem?_toList, Array.getElem?_toList, pixelsOfBytes,
    Array.getElem?_ofFn]
  by_cases inside : i / 4 < bytes.size / 4
  · rw [dif_pos inside, Nat.mul_comm _ 4]
    generalize i / 4 = k at inside ⊢
    simp only [Option.map_some, Option.bind_some, Pixel.bytes]
    obtain h | h | h | h : i % 4 = 0 ∨ i % 4 = 1 ∨ i % 4 = 2 ∨ i % 4 = 3 := by omega
    all_goals
      rw [h, Array.getElem?_eq_getElem (by omega)]
      rfl
  · rw [dif_neg inside, Array.getElem?_eq_none (by omega)]
    rfl

/-- **Which bytes make an image, and which one**: four for each pixel, as far as a word can count them,
    and the image that has these bytes. -/
theorem ofBytes?_eq_ok_iff {e : Extent} {bytes : Array UInt8} {image : Image} :
    ofBytes? e bytes = .ok image ↔
      4 * e.area < 2 ^ 64 ∧ image.toExtent = e ∧ image.bytes = bytes.toList := by
  constructor
  · intro made
    unfold ofBytes? Extent.byteCount? at made
    split at made
    · cases made
    · rename_i counted
      split at made
      · rename_i size
        cases made
        split at counted
        · rename_i count
          exact ⟨count, rfl, flatMap_pixelsOfBytes size⟩
        · cases counted
      · cases made
  · rintro ⟨count, rfl, stored⟩
    have size : bytes.size = 4 * image.area := by
      rw [← Array.length_toList, ← stored, length_bytes]
    refine ofBytes?_eq_ok count size fun x y hx hy => ?_
    obtain ⟨p, here⟩ := image.exists_pixel hx hy
    refine ⟨p, here, fun c hc => ?_⟩
    rw [← Array.getElem?_toList, ← stored, getElem?_bytes image hx hy hc, here]
    rfl

/-- **When bytes make an image.** -/
theorem exists_ofBytes?_iff {e : Extent} {bytes : Array UInt8} :
    (∃ image, ofBytes? e bytes = .ok image) ↔ 4 * e.area < 2 ^ 64 ∧ bytes.size = 4 * e.area := by
  constructor
  · rintro ⟨image, made⟩
    obtain ⟨count, rfl, stored⟩ := ofBytes?_eq_ok_iff.mp made
    exact ⟨count, by rw [← Array.length_toList, ← stored, length_bytes]⟩
  · rintro ⟨count, size⟩
    refine ⟨⟨e, pixelsOfBytes bytes, ?_⟩, ofBytes?_eq_ok_iff.mpr
      ⟨count, rfl, flatMap_pixelsOfBytes size⟩⟩
    rw [size_pixelsOfBytes, size, Nat.mul_div_cancel_left _ (by decide)]
    rfl

/-! ## 4. Images of functions -/

/-- The pixels of the image of a function, in the order of their places. -/
theorem toList_pixels_tabulate (e : Extent) (f : (x y : Nat) → Pixel) :
    (tabulate e f).pixels.toList = e.places.map fun p => f p.1 p.2 := by
  refine List.ext_getElem? fun i => ?_
  by_cases inside : i < e.area
  · obtain ⟨x, y, hx, hy, rfl⟩ := Extent.exists_place inside
    have here := pixel?_tabulate (f := f) hx hy
    rw [pixel?, if_pos ⟨hx, hy⟩] at here
    rw [Array.getElem?_toList, List.getElem?_map, Extent.getElem?_places
      (UInt32.lt_iff_toNat_lt.mp hx) (UInt32.lt_iff_toNat_lt.mp hy)]
    exact here
  · have size : (tabulate e f).pixels.toList.length = e.area := (tabulate e f).size_pixels
    have places : (e.places.map fun p => f p.1 p.2).length = e.area := by
      rw [List.length_map, e.length_places]
    rw [List.getElem?_eq_none (by omega), List.getElem?_eq_none (by omega)]

theorem ofFunction?_eq_ok {e : Extent} (hh : e.isHoldable = true) (f : (x y : Nat) → Pixel) :
    ofFunction? e f = .ok (tabulate e f) := by
  simp only [ofFunction?, Extent.byteCount?, if_pos (Extent.count_lt hh), if_pos hh]

/-- The answers of the calls make the image of the function. -/
theorem ofBytes?_places {e : Extent} (hh : e.isHoldable = true) (f : (x y : Nat) → Pixel) :
    ofBytes? e ((e.places.map fun p => f p.1 p.2).flatMap Pixel.bytes).toArray
      = ofFunction? e f := by
  rw [ofFunction?_eq_ok hh, ofBytes?_eq_ok_iff, bytes, toList_pixels_tabulate]
  exact ⟨Extent.count_lt hh, rfl, rfl⟩

/-- A function that takes note of the places that it is called for. -/
def noted (f : (x y : Nat) → Pixel) (x y : Nat) : StateM (List (Nat × Nat)) Pixel := do
  modify fun notes => notes ++ [(x, y)]
  return f x y

theorem run_mapM_noted (f : (x y : Nat) → Pixel) (places notes : List (Nat × Nat)) :
    (places.mapM fun p => noted f p.1 p.2).run notes
      = (places.map fun p => f p.1 p.2, notes ++ places) := by
  induction places generalizing notes with
  | nil =>
    rw [List.append_nil]
    rfl
  | cons p rest ih =>
    have here : (noted f p.1 p.2).run notes = (f p.1 p.2, notes ++ [p]) := rfl
    have behind : notes ++ p :: rest = notes ++ [p] ++ rest := by simp
    rw [behind, List.mapM_cons, StateT.run_bind, here]
    show ((rest.mapM fun p => noted f p.1 p.2) >>= fun pixels =>
      pure (f p.1 p.2 :: pixels)).run (notes ++ [p]) = _
    rw [StateT.run_bind, ih]
    rfl

/-- **Calling a function place by place makes the image of the function**, and it is called for the
    places in their order, or not at all. -/
theorem run_ofCalls?_noted (e : Extent) (f : (x y : Nat) → Pixel) (notes : List (Nat × Nat)) :
    (ofCalls? e (noted f)).run notes
      = (ofFunction? e f, if e.isHoldable then notes ++ e.places else notes) := by
  by_cases hh : e.isHoldable = true
  · rw [← ofBytes?_places hh f]
    simp only [ofCalls?, Extent.byteCount?, if_pos (Extent.count_lt hh), if_pos hh, callAll_eq,
      bind_map_left, StateT.run_bind, run_mapM_noted]
    rfl
  · rw [if_neg hh, ofCalls?, ofFunction?]
    cases e.byteCount? with
    | none => rfl
    | some n =>
      dsimp only
      rw [if_neg hh, if_neg hh]
      rfl

/-! ## 5. Images that are made -/

/-- The images that the ways to make one answer. -/
inductive Made : Image → Prop where
  | ofBytes {e : Extent} {bytes : Array UInt8} {image : Image}
      (h : ofBytes? e bytes = .ok image) : Made image
  | ofPixels {e : Extent} {pixels : Array Pixel} {image : Image}
      (h : ofPixels? e pixels = .ok image) : Made image
  | ofFunction {e : Extent} {f : (x y : Nat) → Pixel} {image : Image}
      (h : ofFunction? e f = .ok image) : Made image
  | filled {e : Extent} {p : Pixel} {image : Image}
      (h : filled? e p = .ok image) : Made image

/-- Whatever is made only after its bytes have been counted. -/
theorem of_counted {e : Extent} {make : Nat → Except Unfit Image} {image : Image}
    (h : (match e.byteCount? with
      | none => Except.error Unfit.tooLarge
      | some n => make n) = .ok image) :
    4 * e.area < 2 ^ 64 ∧ ∃ n, make n = .ok image := by
  unfold Extent.byteCount? at h
  split at h
  · cases h
  · rename_i n counted
    split at counted
    · rename_i count
      exact ⟨count, n, h⟩
    · cases counted

/-- A word can count the bytes of whatever is made. -/
theorem Made.count_lt {image : Image} (h : Made image) : 4 * image.area < 2 ^ 64 := by
  cases h with
  | ofBytes h =>
    obtain ⟨count, rfl, -⟩ := ofBytes?_eq_ok_iff.mp h
    exact count
  | ofPixels h | ofFunction h | filled h =>
    obtain ⟨count, n, made⟩ := of_counted h
    split at made
    · cases made
      exact count
    · cases made

/-- **Images that are made are those that their own bytes make.** -/
theorem made_iff {image : Image} :
    Made image ↔ ofBytes? image.toExtent image.bytes.toArray = .ok image :=
  ⟨fun h => ofBytes?_eq_ok_iff.mpr ⟨h.count_lt, rfl, rfl⟩, .ofBytes⟩

/-- **The bytes of a pixel are inside**, and no word wraps on the way to them. -/
theorem Made.read {image : Image} (h : Made image) {x y : UInt32} (hx : x < image.width)
    (hy : y < image.height) :
    ∃ p, image.pixel? x y = some p ∧ ∀ c : UInt64, c < 4 →
      (image.offset x y + c).toNat = (y.toNat * image.width.toNat + x.toNat) * 4 + c.toNat ∧
      (image.offset x y + c).toNat < image.bytes.length ∧
      image.bytes[(image.offset x y + c).toNat]? = p.bytes[c.toNat]? := by
  obtain ⟨p, here⟩ := image.exists_pixel hx hy
  refine ⟨p, here, fun c hc => ?_⟩
  have count := h.count_lt
  have channel : c.toNat < 4 := UInt64.lt_iff_toNat_lt.mp hc
  have inside := place_lt (UInt32.lt_iff_toNat_lt.mp hx) (UInt32.lt_iff_toNat_lt.mp hy)
  have area : image.area = image.width.toNat * image.height.toNat := rfl
  have place : (image.offset x y + c).toNat
      = (y.toNat * image.width.toNat + x.toNat) * 4 + c.toNat := by
    rw [UInt64.toNat_add, Extent.toNat_offset hx hy count, Nat.mod_eq_of_lt (by omega)]
  refine ⟨place, ?_, ?_⟩
  · rw [place, image.length_bytes]
    omega
  · rw [place, image.getElem?_bytes hx hy channel, here, Option.bind_some]

end Image

open Image in
/-- **Images are read as they are made.** For every extent of which memory can hold the bytes, and every
    function, there is an image of this extent and this function: the function is called for every
    place once, row by row, and the image has its answer for a place there, and no pixel elsewhere.
    Whatever image is made, and in whatever way, it has four bytes for each pixel, and a pixel is read
    from four of them, at an offset that is computed in words without a wrap. Bytes make an image if
    there are four for each pixel, as far as a word can count them, and then it has these bytes. -/
theorem images_are_read_as_made :
    (∀ (e : Extent) (f : (x y : Nat) → Pixel), e.isHoldable = true →
      ∃ image, ofFunction? e f = .ok image ∧ image.toExtent = e ∧
        (ofCalls? e (noted f)).run [] = (.ok image, e.places) ∧
        e.places.length = e.width.toNat * e.height.toNat ∧
        (∀ x y : UInt32, x < e.width → y < e.height →
          e.places[y.toNat * e.width.toNat + x.toNat]? = some (x.toNat, y.toNat)) ∧
        ∀ x y, image.pixel? x y
          = if x < e.width ∧ y < e.height then some (f x.toNat y.toNat) else none) ∧
    (∀ image : Image, Made image →
      image.bytes.length = image.width.toNat * image.height.toNat * 4 ∧
      ∀ x y : UInt32,
        (x < image.width ∧ y < image.height → ∃ p, image.pixel? x y = some p ∧
          ∀ c : UInt64, c < 4 →
            (image.offset x y + c).toNat
              = (y.toNat * image.width.toNat + x.toNat) * 4 + c.toNat ∧
            (image.offset x y + c).toNat < image.bytes.length ∧
            image.bytes[(image.offset x y + c).toNat]? = p.bytes[c.toNat]?) ∧
        (¬ (x < image.width ∧ y < image.height) → image.pixel? x y = none)) ∧
    ∀ (e : Extent) (bytes : Array UInt8),
      ((∃ image, ofBytes? e bytes = .ok image) ↔
        bytes.size = e.width.toNat * e.height.toNat * 4 ∧
          e.width.toNat * e.height.toNat * 4 < 2 ^ 64) ∧
      ∀ image, ofBytes? e bytes = .ok image → image.toExtent = e ∧ image.bytes = bytes.toList := by
  have product (e : Extent) : e.width.toNat * e.height.toNat * 4 = 4 * e.area := Nat.mul_comm _ 4
  refine ⟨?_, ?_, ?_⟩
  · intro e f hh
    have calls := run_ofCalls?_noted e f []
    rw [ofFunction?_eq_ok hh, if_pos hh] at calls
    refine ⟨tabulate e f, ofFunction?_eq_ok hh f, rfl, calls, e.length_places, ?_, ?_⟩
    · intro x y hx hy
      exact Extent.getElem?_places (UInt32.lt_iff_toNat_lt.mp hx) (UInt32.lt_iff_toNat_lt.mp hy)
    · intro x y
      split
      · rename_i inside
        exact pixel?_tabulate inside.1 inside.2
      · rename_i outside
        exact if_neg outside
  · intro image made
    refine ⟨?_, fun x y => ⟨fun inside => made.read inside.1 inside.2, fun outside => if_neg outside⟩⟩
    rw [image.length_bytes, product]
  · intro e bytes
    refine ⟨?_, fun image made => (ofBytes?_eq_ok_iff.mp made).2⟩
    rw [exists_ofBytes?_iff, product, and_comm]

/-- Two rows of three pixels. -/
def quilt : Extent :=
  ⟨3, 2⟩

/-- A pixel that shows its place. -/
def patch (x y : Nat) : Pixel :=
  ⟨.ofNat x, .ofNat y, 0, 255⟩

open Image in
theorem quilt_is_read_as_made :
    quilt.isHoldable = true ∧ ∃ image, ofFunction? quilt patch = .ok image ∧
      (ofCalls? quilt (noted patch)).run []
        = (.ok image, [(0, 0), (1, 0), (2, 0), (0, 1), (1, 1), (2, 1)]) ∧
      image.pixel? 1 1 = some ⟨1, 1, 0, 255⟩ ∧ image.pixel? 3 0 = none ∧
      Made image ∧ image.bytes.length = 24 ∧ image.bytes[(image.offset 2 0 + 3).toNat]? = some 255 := by
  obtain ⟨functions, reads, -⟩ := images_are_read_as_made
  have holdable : quilt.isHoldable = true := rfl
  obtain ⟨image, made, extent, calls, -, -, pixels⟩ := functions quilt patch holdable
  obtain ⟨length, inside⟩ := reads image (.ofFunction made)
  obtain ⟨p, here, channels⟩ := (inside 2 0).1 (by rw [extent]; decide)
  obtain rfl : p = ⟨2, 0, 0, 255⟩ := Option.some.inj (here.symm.trans (pixels 2 0))
  refine ⟨holdable, image, made, calls, pixels 1 1, pixels 3 0, .ofFunction made, ?_,
    (channels 3 (by decide)).2.2⟩
  rw [length, extent]
  rfl

end Relief
