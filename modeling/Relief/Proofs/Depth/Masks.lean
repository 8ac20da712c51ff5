import Relief.Depth.Extraction
import Relief.Proofs.Depth.Finishing
import Relief.Proofs.Shading.Bytes

/-!
# Unknown slopes and masked pixels

Whether the surface is known at a pixel is found twice: when slopes are taken from the normal map,
and when the map masks the finished depths. The first reads green as the convention says, the second
as it stands.

* `Extraction.slopes_pixels`: the slope field of a normal map, pixel by pixel;
* `Extraction.slope?_eq_none_iff`: where a slope is unknown;
* `Finish.Blackens`, `Finish.blackens_iff`: what a mask forces to black;
* `unknown_and_masked_agree_iff`: **both agree on all pixels if green points up**; if it points
  down, they agree except where green alone decides, and is zero or full.
-/

namespace Relief

open Shading

/-! ## 1. Slopes -/

namespace Extraction

/-- The green channel as it would be if green pointed up. -/
def upwardOf (convention : Convention) (green : UInt8) : Float32 :=
  match convention with
  | .openGl => unquantize green
  | .directX => 1 - unquantize green

/-- The green channel of a surface that is not known. -/
def sunk : Convention → UInt8
  | .openGl => 0
  | .directX => 255

/-- What is written for a pixel of a normal map. -/
def fieldAt (convention : Convention) (p : Pixel) : Value :=
  let r := unquantize p.red
  let g := upwardOf convention p.green
  let b := unquantize p.blue
  .vec4 (r / b) (g / b) (least b (least r g)) 1

theorem marks_upwardOf (convention : Convention) (green : UInt8) :
    Marks (upwardOf convention green) (green = sunk convention) := by
  cases convention with
  | openGl => exact marks_unquantize green
  | directX => exact marks_flipped green

variable {target : Extent} {d : Desk target} {x y : UInt32}

theorem upward_writes (convention : Convention) {map : Node} {p : Pixel}
    (h : d.Has x y map (texelValue p)) :
    Writes (upward convention map) d x y fun n d' =>
      d'.Has x y n (.float (upwardOf convention p.green)) := by
  cases convention with
  | openGl => exact Desk.lane h rfl rfl rfl
  | directX =>
    refine (d.float rfl).bind fun one d₁ e₁ hone => ?_
    refine (Desk.lane (e₁ h) rfl rfl rfl).bind fun green d₂ e₂ hgreen => ?_
    exact Desk.binary (e₂ hone) hgreen rfl rfl

/-- **What is written for a normal map.** -/
theorem field_writes {map : Image} (ht : map.toExtent = target) (convention : Convention) :
    Writes (fieldOf map convention) d x y fun n d' =>
      d'.Has x y n (fieldAt convention (sample map x y)) := by
  refine (d.texture ht).bind fun texel d₁ _ htexel => ?_
  refine (Desk.lane htexel rfl rfl rfl).bind fun red d₂ e₂ hred => ?_
  refine (upward_writes convention (e₂ htexel)).bind fun green d₃ e₃ hgreen => ?_
  refine (Desk.lane (e₃ (e₂ htexel)) rfl rfl rfl).bind fun blue d₄ e₄ hblue => ?_
  replace hred := e₄ (e₃ hred)
  replace hgreen := e₄ hgreen
  refine (Desk.builtin hred hgreen rfl rfl).bind fun least d₅ e₅ hleast => ?_
  refine (Desk.builtin (e₅ hblue) hleast rfl rfl).bind fun known d₆ e₆ hknown => ?_
  replace hblue := e₆ (e₅ hblue)
  refine (Desk.binary (e₆ (e₅ hred)) hblue rfl rfl).bind fun across d₇ e₇ hacross => ?_
  replace hgreen := e₇ (e₆ (e₅ hgreen))
  refine (Desk.binary hgreen (e₇ hblue) rfl rfl).bind fun down d₈ e₈ hdown => ?_
  refine (d₈.float rfl).bind fun solid d₉ e₉ hsolid => ?_
  exact Desk.construct (.cons (e₉ (e₈ hacross)) (.cons (e₉ hdown)
    (.cons (e₉ (e₈ (e₇ hknown))) (.cons hsolid .nil)))) rfl rfl

/-- **The slope field of a normal map**, which memory can hold. -/
theorem slopes_pixels {map : Image} (hh : map.toExtent.isHoldable = true)
    (convention : Convention) :
    ∃ s, slopes map convention = .ok s ∧ s.extent = map.toExtent ∧
      ∀ x y p, map.pixel? x y = some p →
        s.image.pixel? x y = (fieldAt convention p).pixel? := by
  obtain ⟨image, drawn, extent, pixels⟩ := Build.image_pixels hh
    (fun x y => (rfl : (fieldAt convention (sample map x y)).kind.isDrawable = true))
    fun x y => field_writes rfl convention
  refine ⟨⟨image⟩, ?_, extent, fun x y p hp => ?_⟩
  · rw [slopes, drawn]
    rfl
  · obtain ⟨hx, hy⟩ := inside_of_pixel? hp
    rw [pixels x y hx hy, sample_of_pixel? hp]

/-- **Where a slope is unknown**: at pixels one of whose channels is zero, with green read as the
    convention says. -/
theorem slope?_eq_none_iff {convention : Convention} {s : Slopes} {x y : UInt32}
    {p : Pixel} (h : s.image.pixel? x y = (fieldAt convention p).pixel?) :
    s.slope? x y = none ↔ p.blue = 0 ∨ p.red = 0 ∨ p.green = sunk convention := by
  rw [← ((marks_unquantize p.blue).least
    ((marks_unquantize p.red).least (marks_upwardOf convention p.green))).quantize_eq_zero_iff]
  unfold Slopes.slope?
  rw [h]
  simp only [fieldAt, Value.pixel?, pixelOf, Slopes.isKnown]
  generalize quantize (least _ _) = blue
  by_cases zero : blue = 0 <;> simp [zero]

end Extraction

/-! ## 2. Masks -/

namespace Finish

/-- Whether a mask forces a pixel to black, whatever the depths and the other corrections. -/
def Blackens (mask : Image) (x y : UInt32) : Prop :=
  ∀ (f : Finish) (depth finished : Image), f.blackens = true → depth.toExtent = mask.toExtent →
    f.image depth (some mask) = .ok finished →
    ∃ alpha, finished.pixel? x y = some ⟨0, 0, 0, alpha⟩

/-- **What a mask forces to black**: pixels one of whose channels is zero. -/
theorem blackens_iff {mask : Image} (hh : mask.toExtent.isHoldable = true) {x y : UInt32}
    {m : Pixel} (hm : mask.pixel? x y = some m) : Blackens mask x y ↔ IsMasked m := by
  constructor
  · intro black
    by_contra clear
    -- the mask is a depth map too, and keeps its red channel where it is not masked
    obtain ⟨finished, drawn, _, pixels⟩ :=
      image_pixels (f := {}) rfl (rfl : mask.toExtent = _) hh
    obtain ⟨alpha, here⟩ := black {} mask finished rfl rfl drawn
    obtain ⟨grey, there, kept⟩ := (pixels x y m m hm hm).2 clear
    have zero : grey = 0 := by
      rw [here, Option.some.injEq, Pixel.grey, Pixel.mk.injEq] at there
      exact there.1.symm
    exact clear (.inl ((kept (by decide)).symm.trans zero))
  · intro masked f depth finished hb hd drawn
    obtain ⟨finished', drawn', _, pixels⟩ := image_pixels hb hd hh
    obtain rfl := Except.ok.inj (drawn.symm.trans drawn')
    obtain ⟨hx, hy⟩ := inside_of_pixel? hm
    obtain ⟨p, hp⟩ := depth.exists_pixel (hd ▸ hx) (hd ▸ hy)
    exact ⟨_, (pixels x y p m hp hm).1 masked⟩

end Finish

/-! ## 3. Both -/

/-- **Where the slopes of a normal map are unknown, and what the map forces to black as a mask.**
    Slopes are unknown where a channel is zero, with green read as the convention says; black are
    the pixels where a channel is zero as it stands. Both agree on all pixels if green points up.
    If it points down, they agree on a pixel unless red and blue are not zero and green is zero or
    full. -/
theorem unknown_and_masked_agree_iff {map : Image} (hh : map.toExtent.isHoldable = true)
    (convention : Convention) :
    (∀ (f : Finish) (depth : Image), f.blackens = true → depth.toExtent = map.toExtent →
      ∃ finished, f.image depth (some map) = .ok finished) ∧
    ∃ s, Extraction.slopes map convention = .ok s ∧ s.extent = map.toExtent ∧
      ∀ x y p, map.pixel? x y = some p →
        (s.slope? x y = none ↔
          p.blue = 0 ∨ p.red = 0 ∨ p.green = Extraction.sunk convention) ∧
        (Finish.Blackens map x y ↔ p.red = 0 ∨ p.green = 0 ∨ p.blue = 0) ∧
        ((s.slope? x y = none ↔ Finish.Blackens map x y) ↔
          convention = .openGl ∨ p.red = 0 ∨ p.blue = 0 ∨ (p.green ≠ 0 ∧ p.green ≠ 255)) := by
  refine ⟨fun f depth hb hd => ?_, ?_⟩
  · obtain ⟨finished, drawn, _⟩ := Finish.image_pixels hb hd hh
    exact ⟨finished, drawn⟩
  · obtain ⟨s, taken, extent, pixels⟩ := Extraction.slopes_pixels hh convention
    refine ⟨s, taken, extent, fun x y p hp => ?_⟩
    have unknown := Extraction.slope?_eq_none_iff (pixels x y p hp)
    have black : Finish.Blackens map x y ↔ p.red = 0 ∨ p.green = 0 ∨ p.blue = 0 :=
      Finish.blackens_iff hh hp
    refine ⟨unknown, black, ?_⟩
    rw [unknown, black]
    by_cases zero : p.red = 0 ∨ p.blue = 0
    · exact iff_of_true (iff_of_true (zero.symm.imp_right .inl) (zero.imp_right .inr))
        (.inr (zero.imp_right .inl))
    · obtain ⟨hr, hb⟩ := not_or.mp zero
      simp only [hr, hb, false_or, or_false]
      cases convention with
      | openGl => exact iff_of_true Iff.rfl (.inl rfl)
      | directX =>
        by_cases hg : p.green = 0
        · simp [hg, Extraction.sunk]
        · simp [hg, Extraction.sunk]

/-- A normal map of two pixels, whose green is full. -/
def ledge : Image :=
  ⟨⟨2, 1⟩, #[⟨128, 255, 255, 255⟩, ⟨0, 255, 200, 255⟩], rfl⟩

theorem ledge_agrees_in_one_pixel : ledge.toExtent.isHoldable = true ∧
    ∃ s, Extraction.slopes ledge .directX = .ok s ∧ s.extent = ledge.toExtent ∧
      ¬ (s.slope? 0 0 = none ↔ Finish.Blackens ledge 0 0) ∧
      (s.slope? 1 0 = none ↔ Finish.Blackens ledge 1 0) := by
  have holdable : ledge.toExtent.isHoldable = true := rfl
  obtain ⟨_, s, taken, extent, pixels⟩ := unknown_and_masked_agree_iff holdable .directX
  refine ⟨holdable, s, taken, extent, fun agree => ?_, ?_⟩
  · exact absurd ((pixels 0 0 ⟨128, 255, 255, 255⟩ rfl).2.2.mp agree) (by decide)
  · exact (pixels 1 0 ⟨0, 255, 200, 255⟩ rfl).2.2.mpr (by decide)

/-- A normal map of one pixel, whose green is full. -/
def cliff : Image :=
  ⟨⟨1, 1⟩, #[⟨128, 255, 255, 255⟩], rfl⟩

/-- **Where green points down and is full, no slope is known, and the map forces nothing to
    black.** -/
theorem cliff_is_unknown_and_kept : ∃ s, Extraction.slopes cliff .directX = .ok s ∧
    s.slope? 0 0 = none ∧ ¬ Finish.Blackens cliff 0 0 := by
  have holdable : cliff.toExtent.isHoldable = true := rfl
  obtain ⟨s, taken, _, pixels⟩ := Extraction.slopes_pixels holdable .directX
  refine ⟨s, taken, ?_, fun black => ?_⟩
  · exact (Extraction.slope?_eq_none_iff (pixels 0 0 _ rfl)).mpr (.inr (.inr rfl))
  · have masked : Finish.IsMasked ⟨128, 255, 255, 255⟩ :=
      (Finish.blackens_iff holdable rfl).mp black
    exact absurd masked (by decide)

end Relief
