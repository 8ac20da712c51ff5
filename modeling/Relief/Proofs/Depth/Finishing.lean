import Relief.Proofs.Number.Range
import Relief.Proofs.Shading.Channels
import Relief.Proofs.Shading.Writing

/-!
# Finished depth maps

A depth map is finished by an expression over the map and a mask. The term against perspective may
bring any number into it, an infinity or what is no number among them, and the mask multiplies by
zero what it blackens.

* `Finish.keepAt_eq`: what a pixel of a mask is multiplied by;
* `Finish.depthOf_writes`: **what is written for a pixel**, whichever corrections are asked for;
* `Finish.drawn_pixels`: the pixels of a finished map, and `Finish.exists_image`: **there always is
  one**, if the mask, where there is one, has the extent of the map;
* `Finish.masked_pixels_are_black`: **what a mask blackens is black at every strength of the
  perspective**, and without any strength all other pixels keep their grey level.
-/

namespace Relief.Finish

open Shading

/-! ## 1. Pixels of a mask -/

/-- One where the surface is known at a pixel of a mask, zero elsewhere. -/
def keepAt (p : Pixel) : Float32 :=
  threshold edge (least (unquantize p.red) (least (unquantize p.green) (unquantize p.blue)))

/-- A pixel of a mask one of whose channels is zero. -/
def IsMasked (p : Pixel) : Prop :=
  p.red = 0 ∨ p.green = 0 ∨ p.blue = 0

instance (p : Pixel) : Decidable (IsMasked p) :=
  inferInstanceAs (Decidable (_ ∨ _ ∨ _))

theorem keepAt_eq (p : Pixel) :
    (IsMasked p → keepAt p = 0) ∧ (¬ IsMasked p → keepAt p = 1) :=
  ((marks_unquantize p.red).least
    ((marks_unquantize p.green).least (marks_unquantize p.blue))).threshold

/-- It is masked where the least of its channels is zero. -/
theorem isMasked_iff (p : Pixel) : IsMasked p ↔ min p.red (min p.green p.blue) = 0 := by
  have least : ∀ a b : UInt8, min a b = 0 ↔ a = 0 ∨ b = 0 := by
    intro a b
    show (if a ≤ b then a else b) = 0 ↔ _
    split <;> grind [UInt8.le_iff_toNat_le]
  rw [least, least]
  exact Iff.rfl

/-! ## 2. What is written -/

/-- The finished value of a pixel under a pixel of a mask, over the value before. -/
def finishedAt (f : Finish) (mask : Pixel) (value : Float32) : Value :=
  let value := if f.blackens then value * keepAt mask else value
  .vec4 value value value (if f.clears then keepAt mask else 1)

/-- The finished value of a pixel, where there may be no mask. -/
def finishedOver (f : Finish) : Option Pixel → Float32 → Value
  | some mask, value => f.finishedAt mask value
  | none, value => .vec4 value value value 1

/-- How far the middle of a pixel is from the middle of its row, or of its column. -/
def offsetAt (place length : UInt32) : Float32 :=
  place.toFloat32 + 0.5 - length.toFloat32 * 0.5

/-- The squared distance of a pixel from the middle of the image. -/
def squaredAt (e : Extent) (x y : UInt32) : Float32 :=
  -0.0 + offsetAt x e.width * offsetAt x e.width + offsetAt y e.height * offsetAt y e.height

/-- A value with the term against perspective. -/
def raisedAt (f : Finish) (e : Extent) (x y : UInt32) (value : Float32) : Float32 :=
  if f.factor == 0 then value else value + squaredAt e x y * (f.factor / 255)

section Writing

variable {target : Extent} {d : Desk target} {x y : UInt32} {f : Finish}

/-- What is written for the term against perspective. -/
theorem addDistance_writes {strength w : Float32} (hs : strength.isFinite = true) {value : Node}
    (h : d.Has x y value (.float w)) :
    Writes (addDistance strength value) d x y fun n d' =>
      d'.Has x y n (.float (w + squaredAt target x y * strength)) := by
  refine d.position.bind fun place d₁ e₁ hplace => ?_
  refine d₁.resolution.bind fun size d₂ e₂ hsize => ?_
  refine (d₂.float rfl).bind fun half d₃ e₃ hhalf => ?_
  refine (Desk.binary (e₃ hsize) hhalf rfl rfl).bind fun middle d₄ e₄ hmiddle => ?_
  replace hplace := e₄ (e₃ (e₂ hplace))
  refine (Desk.binary hplace hmiddle rfl rfl).bind fun fromMiddle d₅ e₅ hfrom => ?_
  refine (Desk.builtin hfrom hfrom rfl rfl).bind fun squared d₆ e₆ hsquared => ?_
  refine (d₆.float hs).bind fun strength d₇ e₇ hstrength => ?_
  refine (Desk.binary (e₇ hsquared) hstrength rfl rfl).bind fun term d₈ e₈ hterm => ?_
  replace h := e₈ (e₇ (e₆ (e₅ (e₄ (e₃ (e₂ (e₁ h)))))))
  exact Desk.binary h hterm rfl rfl

/-- What is written for a mask. -/
theorem known_writes {mask : Texture} (ht : mask.image.toExtent = target) :
    Writes (known mask) d x y fun n d' =>
      d'.Has x y n (.float (keepAt (sample mask.image x y))) := by
  refine (d.texture ht).bind fun texel d₁ _ htexel => ?_
  refine (Desk.lane htexel rfl rfl rfl).bind fun red d₂ e₂ hred => ?_
  refine (Desk.lane (e₂ htexel) rfl rfl rfl).bind fun green d₃ e₃ hgreen => ?_
  refine (Desk.lane (e₃ (e₂ htexel)) rfl rfl rfl).bind fun blue d₄ e₄ hblue => ?_
  refine (Desk.builtin (e₄ hgreen) hblue rfl rfl).bind fun least d₅ e₅ hleast => ?_
  refine (Desk.builtin (e₅ (e₄ (e₃ hred))) hleast rfl rfl).bind fun least d₆ e₆ hleast => ?_
  refine (d₆.float rfl).bind fun edge d₇ e₇ hedge => ?_
  exact Desk.builtin hedge (e₇ hleast) rfl rfl

/-- The strength of the term against perspective can be written: it is finite after all. -/
theorem isFinite_factor (f : Finish) : (f.factor / 255).isFinite = true := by
  refine Single.isFinite_div_255 ?_
  unfold factor
  split
  · assumption
  · rfl

/-- What is written for a mask over some value: nothing, where it is not used at all. -/
theorem applyMask_writes {mask : Image} (ht : mask.toExtent = target) {value alpha : Node}
    {w : Float32} (hvalue : d.Has x y value (.float w)) (halpha : d.Has x y alpha (.float 1)) :
    Writes (f.applyMask (f.mask? (some mask)) value alpha) d x y fun n d' =>
      d'.Has x y n.1 (.float (if f.blackens then w * keepAt (sample mask x y) else w)) ∧
      d'.Has x y n.2 (.float (if f.clears then keepAt (sample mask x y) else 1)) := by
  obtain ⟨perspective, blackens, clears⟩ := f
  cases blackens with
  | false =>
    cases clears with
    | false => exact .pure ⟨hvalue, halpha⟩
    | true =>
      refine (known_writes ht).bind fun keep d₁ e₁ hkeep => ?_
      exact .pure ⟨e₁ hvalue, hkeep⟩
  | true =>
    refine (known_writes ht).bind fun keep d₁ e₁ hkeep => ?_
    refine (Desk.binary (e₁ hvalue) hkeep rfl rfl).bind fun value d₂ e₂ hvalue => ?_
    refine .pure ⟨hvalue, ?_⟩
    cases clears with
    | true => exact e₂ hkeep
    | false => exact e₂ (e₁ halpha)

/-- What is left to be written when the term against perspective has been added. -/
def colour (f : Finish) (mask : Option Image) (value : Node) : Build Node := do
  let solid ← Build.float 1
  let (value, alpha) ← f.applyMask mask value solid
  Build.call (.construct [value, value, value, alpha])

theorem colour_writes {mask : Option Image} (ht : ∀ i ∈ mask, i.toExtent = target) {value : Node}
    {w : Float32} (h : d.Has x y value (.float w)) :
    Writes (f.colour (f.mask? mask) value) d x y fun n d' =>
      d'.Has x y n (f.finishedOver (mask.map (sample · x y)) w) := by
  refine (d.float rfl).bind fun solid d₁ e₁ hsolid => ?_
  cases mask with
  | none =>
    rw [mask?, ite_self]
    exact Desk.construct (.cons (e₁ h) (.cons (e₁ h) (.cons (e₁ h) (.cons hsolid .nil)))) rfl rfl
  | some mask =>
    refine (applyMask_writes (ht mask rfl) (e₁ h) hsolid).bind fun out d₂ _ ⟨hvalue, halpha⟩ => ?_
    exact Desk.construct (.cons hvalue (.cons hvalue (.cons hvalue (.cons halpha .nil)))) rfl rfl

/-- **What is written for a depth map**, with a mask or without one. -/
theorem depthOf_writes {depth : Image} {mask : Option Image} (hdepth : depth.toExtent = target)
    (hmask : ∀ i ∈ mask, i.toExtent = target) :
    Writes (f.depthOf depth mask) d x y fun n d' =>
      d'.Has x y n (f.finishedOver (mask.map (sample · x y))
        (f.raisedAt target x y (unquantize (sample depth x y).red))) := by
  refine (d.texture hdepth).bind fun texel d₁ _ htexel => ?_
  refine (Desk.lane htexel rfl rfl rfl).bind fun red d₂ _ hred => ?_
  show Writes (if (f.factor == 0) = true then f.colour (f.mask? mask) red
    else addDistance (f.factor / 255) red >>= f.colour (f.mask? mask)) d₂ x y _
  rw [raisedAt]
  split
  · exact colour_writes hmask hred
  · exact (addDistance_writes f.isFinite_factor hred).bind fun value d₃ _ hvalue =>
      colour_writes hmask hvalue

end Writing

/-! ## 3. Finished maps -/

variable {f : Finish} {depth mask : Image}

/-- A map that needs no correction is left as it is. -/
theorem image_of_isIdle {mask : Option Image} (h : f.isIdle mask = true) :
    f.image depth mask = .ok depth :=
  if_pos h

/-- **The pixels of a finished map** are those of the values that are written, if it is drawn
    again. -/
theorem drawn_pixels (mask : Option Image) (busy : f.isIdle mask = false)
    (hd : ∀ i ∈ mask, i.toExtent = depth.toExtent) (hh : depth.toExtent.isHoldable = true) :
    ∃ finished, f.image depth mask = .ok finished ∧ finished.toExtent = depth.toExtent ∧
      ∀ x y, x < depth.width → y < depth.height →
        finished.pixel? x y = (f.finishedOver (mask.map (sample · x y))
          (f.raisedAt depth.toExtent x y (unquantize (sample depth x y).red))).pixel? := by
  have drawable (x y) : (f.finishedOver (mask.map (sample · x y))
      (f.raisedAt depth.toExtent x y (unquantize (sample depth x y).red))).kind.isDrawable
        = true := by
    cases mask <;> rfl
  obtain ⟨finished, drawn, extent, pixels⟩ := Build.image_pixels hh drawable
    fun x y => depthOf_writes (d := .blank depth.toExtent) rfl hd
  refine ⟨finished, ?_, extent, pixels⟩
  rw [Finish.image, busy, if_neg Bool.false_ne_true, drawn]

/-- **A depth map can be finished under every mask of its extent**, whatever is asked for. -/
theorem exists_image (f : Finish) (hd : depth.toExtent = mask.toExtent)
    (hh : mask.toExtent.isHoldable = true) :
    ∃ finished, f.image depth (some mask) = .ok finished ∧ finished.toExtent = mask.toExtent := by
  cases h : f.isIdle (some mask) with
  | true => exact ⟨depth, image_of_isIdle h, hd⟩
  | false =>
    obtain ⟨finished, drawn, extent, _⟩ :=
      drawn_pixels _ h (by rintro _ ⟨⟩; exact hd.symm) (hd ▸ hh)
    exact ⟨finished, drawn, extent.trans hd⟩

/-- A mask that blackens is used. -/
theorem isIdle_of_blackens (hb : f.blackens = true) : f.isIdle (some mask) = false := by
  rw [isIdle, mask?, hb, Bool.true_or, if_pos rfl]
  exact Bool.and_false _

/-- What a pixel becomes under a mask that blackens. -/
theorem pixel?_finishedAt (hb : f.blackens = true) (m : Pixel) (w : Float32) :
    (IsMasked m →
      (f.finishedAt m w).pixel? = some ⟨0, 0, 0, if f.clears then 0 else 255⟩) ∧
    (¬ IsMasked m → (f.finishedAt m w).pixel? = some (.grey (quantize (w * 1)))) := by
  have black : quantize 0 = 0 := by decide
  have full : quantize 1 = 255 := by decide
  simp only [finishedAt, hb, if_true, Value.pixel?, pixelOf, Pixel.grey]
  constructor
  · intro masked
    rw [(keepAt_eq m).1 masked, quantize_mul_zero]
    cases f.clears <;> simp [black, full]
  · intro clear
    rw [(keepAt_eq m).2 clear, ite_self, full]

/-- **The pixels of a map that is finished under a mask that blackens**: black where the mask is
    zero, and as they were elsewhere, if there is no term against perspective. -/
theorem image_pixels (hb : f.blackens = true) (hd : depth.toExtent = mask.toExtent)
    (hh : mask.toExtent.isHoldable = true) :
    ∃ finished, f.image depth (some mask) = .ok finished ∧ finished.toExtent = mask.toExtent ∧
      ∀ x y p m, depth.pixel? x y = some p → mask.pixel? x y = some m →
        (IsMasked m → finished.pixel? x y = some ⟨0, 0, 0, if f.clears then 0 else 255⟩) ∧
        (¬ IsMasked m → ∃ grey, finished.pixel? x y = some (.grey grey) ∧
          ((f.factor == 0) = true → grey = p.red)) := by
  obtain ⟨finished, drawn, extent, pixels⟩ :=
    drawn_pixels _ (isIdle_of_blackens hb) (by rintro _ ⟨⟩; exact hd.symm) (hd ▸ hh)
  refine ⟨finished, drawn, extent.trans hd, fun x y p m hp hm => ?_⟩
  obtain ⟨hx, hy⟩ := inside_of_pixel? hp
  have here : finished.pixel? x y
      = (f.finishedAt m (f.raisedAt depth.toExtent x y (unquantize p.red))).pixel? := by
    rw [pixels x y hx hy, Option.map_some, sample_of_pixel? hp, sample_of_pixel? hm, finishedOver]
  obtain ⟨masked, clear⟩ := pixel?_finishedAt hb m
    (f.raisedAt depth.toExtent x y (unquantize p.red))
  rw [here]
  refine ⟨masked, fun kept => ⟨_, clear kept, fun idle => ?_⟩⟩
  rw [raisedAt, if_pos idle, unquantize_mul_one, quantize_unquantize]

/-- Without a finite strength there is no term against perspective. -/
theorem factor_eq_zero (h : f.perspective == 0 ∨ f.perspective.isFinite = false) :
    (f.factor == 0) = true := by
  unfold factor
  rcases h with zero | infinite
  · split
    · exact zero
    · rfl
  · rw [if_neg (by rw [infinite]; decide)]
    rfl

/-! ## 4. Masks at every strength -/

/-- **What a mask blackens is black at every strength of the perspective.** A depth map under a mask
    of its extent, which memory can hold, is finished whatever strength is asked for: no literal is
    refused, and nothing else. Where the least of the mask's three colours is zero, the finished map
    is black, and transparent if masked pixels are to be. Everywhere else it is an opaque grey;
    where the strength is zero or no finite number, that is the red byte of the depth map. -/
theorem masked_pixels_are_black (f : Finish) (hb : f.blackens = true) {depth mask : Image}
    (hd : depth.toExtent = mask.toExtent) (hh : depth.toExtent.isHoldable = true) :
    ∃ finished, f.image depth (some mask) = .ok finished ∧ finished.toExtent = depth.toExtent ∧
      ∀ x y p m, depth.pixel? x y = some p → mask.pixel? x y = some m →
        (min m.red (min m.green m.blue) = 0 →
          finished.pixel? x y = some ⟨0, 0, 0, if f.clears then 0 else 255⟩) ∧
        (min m.red (min m.green m.blue) ≠ 0 →
          ∃ grey, finished.pixel? x y = some ⟨grey, grey, grey, 255⟩ ∧
            (f.perspective == 0 ∨ f.perspective.isFinite = false → grey = p.red)) := by
  obtain ⟨finished, drawn, extent, pixels⟩ := image_pixels hb hd (hd ▸ hh)
  refine ⟨finished, drawn, extent.trans hd.symm, fun x y p m hp hm => ?_⟩
  obtain ⟨masked, clear⟩ := pixels x y p m hp hm
  simp only [ne_eq, ← isMasked_iff]
  refine ⟨masked, fun kept => ?_⟩
  obtain ⟨grey, here, same⟩ := clear kept
  exact ⟨grey, here, fun idle => same (factor_eq_zero idle)⟩

/-- Corrections with an infinite strength, whose masked pixels are transparent. -/
def boundless : Finish :=
  { perspective := 1 / 0, clears := true }

/-- A depth map of two pixels, and a mask of both whose first pixel is masked in green alone. -/
def dunes : Image :=
  ⟨⟨2, 1⟩, #[.grey 90, .grey 200], rfl⟩

def shore : Image :=
  ⟨⟨2, 1⟩, #[⟨255, 0, 7, 255⟩, ⟨1, 255, 3, 0⟩], rfl⟩

theorem shore_of_dunes_is_black : boundless.blackens = true ∧ dunes.toExtent = shore.toExtent ∧
    dunes.toExtent.isHoldable = true ∧
    ∃ finished, boundless.image dunes (some shore) = .ok finished ∧
      finished.toExtent = dunes.toExtent ∧ finished.pixel? 0 0 = some ⟨0, 0, 0, 0⟩ ∧
      finished.pixel? 1 0 = some ⟨200, 200, 200, 255⟩ := by
  have holdable : dunes.toExtent.isHoldable = true := rfl
  refine ⟨rfl, rfl, holdable, ?_⟩
  obtain ⟨finished, drawn, extent, pixels⟩ :=
    @masked_pixels_are_black boundless rfl dunes shore rfl holdable
  refine ⟨finished, drawn, extent, ?_, ?_⟩
  · exact (pixels 0 0 (.grey 90) ⟨255, 0, 7, 255⟩ rfl rfl).1 (by decide)
  · obtain ⟨grey, here, same⟩ := (pixels 1 0 (.grey 200) ⟨1, 255, 3, 0⟩ rfl rfl).2 (by decide)
    rw [here, same (.inr rfl)]
    rfl

end Relief.Finish
