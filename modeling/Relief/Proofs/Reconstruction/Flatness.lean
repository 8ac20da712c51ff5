import Relief.Proofs.Depth.Finishing
import Relief.Proofs.Depth.Unknown
import Relief.Proofs.Reconstruction.Answers

/-!
# Flat depth maps

Requests that ask for no corrections are answered with the grey levels of a tally. A map that says
nothing about the surface leaves nothing in it, and so its depth map is flat.

* `Extraction.slopes_of_pixels`: every pixel of a slope field is written for one of the map;
* `Tally.Holds.isLevel`: rays over a field that says nothing leave nothing;
* `Request.IsPlain`: a request that is not refused, and asks for no corrections;
  `Request.Gives`: what whoever has it reconstructed is given, `Gives.of_new`: also from a new
  reconstructor;
* `Errand.gives_planned`: **it is given the grey levels of the planned tally**;
* `unknown_maps_are_flat`: **maps that say nothing are given flat depth maps**.
-/

namespace Relief

/-- A middle grey depth map. -/
def Image.IsFlat (depth : Image) : Prop :=
  ∀ p ∈ depth.pixels, p = ⟨128, 128, 128, 255⟩

/-! ## 1. Slopes of maps -/

/-- Every pixel of an image is that of a place. -/
theorem Image.exists_place {image : Image} {slot : ℕ} {p : Pixel}
    (h : image.pixels[slot]? = some p) : ∃ x y, image.pixel? x y = some p := by
  have area := (Array.getElem?_eq_some_iff.mp h).1
  rw [image.size_pixels] at area
  obtain ⟨x, y, hx, hy, place⟩ := Extent.exists_place (e := image.toExtent) area
  refine ⟨x, y, ?_⟩
  rw [Image.pixel?, if_pos ⟨hx, hy⟩, place]
  exact h

namespace Extraction

/-- **Every pixel of the slope field of a map is written for one of the map.** -/
theorem slopes_of_pixels {map : Image} (hh : map.toExtent.isHoldable = true)
    (convention : Convention) :
    ∃ s, slopes map convention = .ok s ∧ s.extent = map.toExtent ∧
      ∀ x y q, s.image.pixel? x y = some q →
        ∃ p ∈ map.pixels, s.image.pixel? x y = (fieldAt convention p).pixel? := by
  obtain ⟨s, taken, extent, pixels⟩ := slopes_pixels hh convention
  refine ⟨s, taken, extent, fun x y q hq => ?_⟩
  obtain ⟨hx, hy⟩ := Shading.inside_of_pixel? hq
  have same : s.image.toExtent = map.toExtent := extent
  rw [congrArg Extent.width same] at hx
  rw [congrArg Extent.height same] at hy
  obtain ⟨p, hp⟩ := map.exists_pixel hx hy
  refine ⟨p, ?_, pixels x y p hp⟩
  rw [Image.pixel?, if_pos ⟨hx, hy⟩] at hp
  exact Array.mem_of_getElem? hp

/-- A map that says nothing has a field that does not. -/
theorem isBlank_of_pixels {s : Slopes} {convention : Convention} {map : Image}
    (written : ∀ x y q, s.image.pixel? x y = some q →
      ∃ p ∈ map.pixels, s.image.pixel? x y = (fieldAt convention p).pixel?)
    (unknown : ∀ p ∈ map.pixels, p.blue = 0 ∨ p.red = 0 ∨ p.green = sunk convention) :
    s.IsBlank := by
  intro slot q here
  obtain ⟨x, y, hq⟩ := Image.exists_place here
  obtain ⟨p, mem, same⟩ := written x y q hq
  have unseen := (slope?_eq_none_iff same).mpr (unknown p mem)
  unfold Slopes.slope? at unseen
  rw [hq] at unseen
  dsimp only at unseen
  split at unseen
  · cases unseen
  · rename_i blind
    by_contra known
    exact blind (bne_iff_ne.mpr known)

end Extraction

/-! ## 2. Fields that say nothing -/

/-- Visits with nothing leave all sums zero. -/
theorem Tally.Holds.isLevel {t : Tally} {e : Extent} {visits : List Visit} (h : t.Holds e visits)
    (nothing : ∀ v ∈ visits, v.value = 0) : t.IsLevel := by
  intro slot
  have size : t.sums.size = e.area := by rw [t.size_sums, h.extent]
  unfold sumAt
  by_cases hs : slot < e.area
  · have zero : balance slot visits = 0 := by
      refine List.sum_eq_zero fun n hn => ?_
      obtain ⟨v, hv, rfl⟩ := List.mem_map.mp hn
      rw [Visit.amount, nothing v hv, Int32.toInt_zero, ite_self]
    rw [h.sums, sum_post hs, zero]
    rfl
  · rw [Array.getElem?_eq_none (size ▸ not_lt.mp hs)]
    rfl

namespace Integration

variable {slopes : Slopes} {launch : Launch} {sweep : Sweep}

/-- **Over a field that says nothing, rays leave nothing.** -/
theorem value_of_isBlank (h : slopes.IsBlank) {v : Visit}
    (hv : v ∈ sweep.headings.flatMap (headingVisits slopes launch)) : v.value = 0 := by
  obtain ⟨heading, -, hv⟩ := List.mem_flatMap.mp hv
  obtain ⟨start, -, hv⟩ := List.mem_flatMap.mp hv
  unfold rayVisits at hv
  split at hv
  · exact Ray.value_of_isBlank h hv
  · cases hv

end Integration

/-! ## 3. Plain requests -/

/-- A request for a map with pixels that is not refused, and asks for no corrections. -/
structure Request.IsPlain (r : Request) : Prop where
  holdable : r.map.toExtent.isHoldable = true
  pixels : r.map.isEmpty = false
  fits : r.misfit? = none
  asked : r.options.threading.threads ≠ some 0
  straight : r.options.perspective = 0
  unmasked : r.options.blackens = false
  solid : r.options.clears = false

theorem Request.IsPlain.isIdle {r : Request} (plain : r.IsPlain) (mask : Option Image) :
    r.options.finish.isIdle mask = true := by
  have factor : r.options.finish.factor = 0 := by
    show (if r.options.perspective.isFinite then r.options.perspective else 0) = 0
    rw [plain.straight, ite_self]
  have bare : r.options.finish.mask? mask = none := by
    unfold Finish.mask? Options.finish
    dsimp only
    rw [plain.unmasked, plain.solid]
    rfl
  rw [Finish.isIdle, factor, bare]
  decide +kernel

/-- **Whoever has a request reconstructed is given such a depth map**, as long as the token stays
    current. -/
def Request.Gives (request : Request) (processors : Processors) (wanted : Image → Prop) : Prop :=
  request.ComesTo processors fun outcome =>
    ∃ done, outcome = .ok (some done) ∧ wanted done.depth

/-- A reconstructor that has not run anything gives it. -/
theorem Request.Gives.of_new {request : Request} {processors : Processors}
    {wanted : Image → Prop} (gives : request.Gives processors wanted) :
    ∃ done, ((Reconstructor.new processors).run (Reconstructor.new processors).issue request).1
      = .ok (some done) ∧ wanted done.depth := by
  refine gives.2 _ _ rfl (.inl rfl) ?_
  rw [Reconstructor.generations_run rfl]
  rfl

namespace Errand

open Reconstruction

/-- **A plain request is given the grey levels of the planned tally**, whoever takes which step
    when. -/
theorem gives_planned {request : Request} {processors : Processors} (plain : request.IsPlain)
    (manned : ∀ reason, ¬ request.Lacks processors reason) {slopes : Slopes}
    (taken : Extraction.slopes request.map request.options.convention = .ok slopes)
    {wanted : Image → Prop}
    (good : wanted (Levels.image (Integration.planned slopes (launchOf request)
      (sweepOf request)))) : request.Gives processors wanted := by
  refine comesTo_of_undisturbed ?_ fun token => ?_
  · rintro a b same ⟨done, rfl, good⟩
    cases same with
    | reconstruction alike => exact ⟨_, rfl, alike.depth ▸ good⟩
  · let e : Errand := { request, token, processors }
    have opened : e.opened = .ok (some (.inr slopes)) := by
      rw [Errand.opened, result_opening, plain.fits, taken]
      exact if_neg (by rw [plain.pixels]; exact Bool.false_ne_true)
    obtain ⟨workers, count, -⟩ := Integration.exists_workerCount plain.asked processors.count
      (sweepOf request).length
    obtain ⟨i, result, whole⟩ :=
      whole_of_task (e := e) slopes count fun reason lacks => manned reason ⟨plain.pixels, lacks⟩
    have held := Integration.holds_planned slopes (launchOf request) (sweepOf request)
    rw [← Levels.image_congr (whole.tally.extent.trans held.extent.symm) (whole.tally.agrees held)]
      at good
    refine ⟨⟨Levels.image i.tally, i.stats⟩, ?_, good⟩
    rw [undisturbed_of_slopes opened, Task.result_bind, result]
    show Course.result (closing request i) = _
    rw [result_closing, Finish.image_of_isIdle (plain.isIdle _)]
    rfl

end Errand

/-! ## 4. Maps that say nothing -/

/-- **A map that says nothing about the surface is reconstructed to a flat depth map**, by every plain
    request: whatever its extent that memory can hold, and whatever is asked for as quality, layout and
    convention, and of the workers, as long as the machine starts them. -/
theorem unknown_maps_are_flat {request : Request} {processors : Processors}
    (plain : request.IsPlain) (manned : ∀ reason, ¬ request.Lacks processors reason)
    (unknown : ∀ p ∈ request.map.pixels,
      p.blue = 0 ∨ p.red = 0 ∨ p.green = Extraction.sunk request.options.convention) :
    request.Gives processors fun depth => depth.toExtent = request.map.toExtent ∧
      depth.IsFlat := by
  obtain ⟨slopes, taken, extent, written⟩ :=
    Extraction.slopes_of_pixels plain.holdable request.options.convention
  have held := Integration.holds_planned slopes (Reconstruction.launchOf request)
    (Reconstruction.sweepOf request)
  have blank := Extraction.isBlank_of_pixels written unknown
  have level := held.isLevel fun v hv => Integration.value_of_isBlank blank hv
  have flat := Levels.pixels_of_isLevel level
  rw [Levels.result_course] at flat
  exact Errand.gives_planned plain manned taken ⟨flat.1.trans (held.extent.trans extent), flat.2⟩

end Relief
