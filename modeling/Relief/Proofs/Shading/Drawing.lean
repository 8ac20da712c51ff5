import Relief.Proofs.Shading.Fragments

/-!
# Drawing sound programs

A sound program draws an image from images that fit, if memory can hold its target.

* `Program.Sound.execute_eq_ok_iff`: **when there is an image**;
* `Program.Sound.execute_pixels`: **every pixel of an image is that of the fragment there**;
* `Graph.Sound.compile`: a program for a node of a recorded graph is sound.
-/

namespace Relief.Shading

/-! ## 1. Images of pixels -/

/-- Pixels for every place of an extent make an image, if memory can hold it. -/
theorem imageOf_eq_ok {target : Extent} {pixels : Array Pixel} (hh : target.isHoldable = true)
    (size : pixels.size = target.area) :
    ∃ image : Image, imageOf target pixels = .ok image := by
  have bytes := Extent.count_lt hh
  refine ⟨⟨target, pixels, size⟩, ?_⟩
  simp only [imageOf, Image.ofPixels?, Extent.byteCount?, if_pos bytes, dif_pos size]

theorem area_of_isEmpty {e : Extent} (h : e.isEmpty = true) : e.area = 0 := by
  rcases Bool.or_eq_true _ _ |>.mp h with hw | hh
  · rw [Extent.area, eq_of_beq hw]
    exact Nat.zero_mul _
  · rw [Extent.area, eq_of_beq hh]
    exact Nat.mul_zero _

theorem isHoldable_of_isEmpty {e : Extent} (h : e.isEmpty = true) : e.isHoldable = true := by
  rw [Extent.isHoldable, area_of_isEmpty h]
  rfl

/-- An image of some pixels has these. -/
theorem of_imageOf {target : Extent} {pixels : Array Pixel} {image : Image}
    (h : imageOf target pixels = .ok image) : image.toExtent = target ∧ image.pixels = pixels := by
  unfold imageOf Image.ofPixels? at h
  split at h
  · rename_i made e
    cases h
    split at e
    · cases e
    · split at e
      · cases e
        exact ⟨rfl, rfl⟩
      · cases e
  · cases h

/-- Where there are no pixels, there is no place. -/
theorem isEmpty_eq_false_of_lt {e : Extent} {x y : UInt32} (hx : x < e.width) (hy : y < e.height) :
    e.isEmpty = false := by
  rw [UInt32.lt_iff_toNat_lt] at hx hy
  refine Bool.or_eq_false_iff.mpr ⟨beq_eq_false_iff_ne.mpr ?_, beq_eq_false_iff_ne.mpr ?_⟩
  · intro zero
    rw [zero] at hx
    exact absurd hx (Nat.not_lt_zero _)
  · intro zero
    rw [zero] at hy
    exact absurd hy (Nat.not_lt_zero _)

/-! ## 2. Drawing -/

namespace Program

variable {p : Program} {inputs : List Image}

/-- A wrong number of images is refused. -/
theorem execute_of_length_ne (hn : inputs.length ≠ p.inputs.length) :
    p.execute inputs = .error (.inputCount p.inputs.length inputs.length) := by
  rw [execute, if_pos hn]

/-- An image of a wrong extent is refused. -/
theorem execute_of_extent_ne (hn : inputs.length = p.inputs.length)
    (he : ∃ image ∈ inputs, image.toExtent ≠ p.target) :
    ∃ image ∈ inputs, image.toExtent ≠ p.target ∧
      p.execute inputs = .error (.inputExtent image.toExtent p.target) := by
  cases hf : inputs.find? fun image => image.toExtent ≠ p.target with
  | none =>
    obtain ⟨image, hi, hne⟩ := he
    have := List.find?_eq_none.mp hf image hi
    simp [hne] at this
  | some image =>
    have ne : image.toExtent ≠ p.target := by
      have := List.find?_some hf
      simpa using this
    refine ⟨image, List.mem_of_find?_eq_some hf, ne, ?_⟩
    rw [execute, if_neg (fun h => h hn), hf]

/-- Images of the right number and extent are drawn from, if memory can hold the target. -/
theorem execute_of_fits (hn : inputs.length = p.inputs.length)
    (he : ∀ image ∈ inputs, image.toExtent = p.target) :
    p.execute inputs =
      if p.target.isEmpty then imageOf p.target #[]
      else if p.target.isHoldable then
        match p.rows inputs with
        | .error f => .error f
        | .ok rows => imageOf p.target rows.flatten.toArray
      else .error (.unfitImage .unholdable) := by
  have alike : (inputs.find? fun image => image.toExtent ≠ p.target) = none := by
    rw [List.find?_eq_none]
    intro image hi
    simp [he image hi]
  unfold execute
  refine (if_neg (fun h => h hn)).trans ?_
  generalize (inputs.find? fun image => image.toExtent ≠ p.target) = found at alike ⊢
  cases alike
  rfl

/-- Where memory cannot hold the target, there is no image. -/
theorem execute_of_unholdable (hn : inputs.length = p.inputs.length)
    (he : ∀ image ∈ inputs, image.toExtent = p.target) (hh : p.target.isHoldable = false) :
    p.execute inputs = .error (.unfitImage .unholdable) := by
  have full : p.target.isEmpty = false := by
    cases hempty : p.target.isEmpty with
    | false => rfl
    | true =>
      rw [isHoldable_of_isEmpty hempty] at hh
      cases hh
  rw [execute_of_fits hn he, full, hh]
  rfl

/-- **A sound program draws an image**, given images that fit, of a target that memory can hold. -/
theorem Sound.execute (h : p.Sound) (hn : inputs.length = p.inputs.length)
    (he : ∀ image ∈ inputs, image.toExtent = p.target) (hh : p.target.isHoldable = true) :
    ∃ image, p.execute inputs = .ok image := by
  rw [execute_of_fits hn he]
  cases hempty : p.target.isEmpty with
  | true => exact imageOf_eq_ok hh (area_of_isEmpty hempty).symm
  | false =>
    obtain ⟨rows, drawn, length, _⟩ := h.rows_pixels hn
    rw [hh, if_neg Bool.false_ne_true, if_pos rfl, drawn]
    exact imageOf_eq_ok hh (by rw [List.size_toArray, length])

/-- As many images as a program samples, all of the extent of its target. -/
def Accepts (p : Program) (inputs : List Image) : Prop :=
  inputs.length = p.inputs.length ∧ ∀ image ∈ inputs, image.toExtent = p.target

/-- **What becomes of drawing a sound program**: an image, a refusal of what it was given, or a
    target that memory cannot hold. -/
theorem Sound.execute_cases (h : p.Sound) (inputs : List Image) :
    (p.Accepts inputs ∧ p.target.isHoldable = true ∧ ∃ image, p.execute inputs = .ok image) ∨
    (p.Accepts inputs ∧ p.target.isHoldable = false ∧
      p.execute inputs = .error (.unfitImage .unholdable)) ∨
    (¬ p.Accepts inputs ∧ ∃ f, p.execute inputs = .error f ∧ f.category = .validation) := by
  by_cases hn : inputs.length = p.inputs.length
  · by_cases he : ∀ image ∈ inputs, image.toExtent = p.target
    · cases hh : p.target.isHoldable with
      | true => exact .inl ⟨⟨hn, he⟩, rfl, h.execute hn he hh⟩
      | false => exact .inr (.inl ⟨⟨hn, he⟩, rfl, execute_of_unholdable hn he hh⟩)
    · have odd : ∃ image ∈ inputs, image.toExtent ≠ p.target := by
        obtain ⟨image, hi⟩ := Classical.not_forall.mp he
        exact ⟨image, Classical.not_imp.mp hi⟩
      obtain ⟨image, _, _, refused⟩ := execute_of_extent_ne hn odd
      exact .inr (.inr ⟨fun a => he a.2, _, refused, rfl⟩)
  · exact .inr (.inr ⟨fun a => hn a.1, _, execute_of_length_ne hn, rfl⟩)

/-- **When a sound program draws an image.** -/
theorem Sound.execute_eq_ok_iff (h : p.Sound) (inputs : List Image) :
    (∃ image, p.execute inputs = .ok image) ↔
      p.Accepts inputs ∧ p.target.isHoldable = true := by
  rcases h.execute_cases inputs with ⟨fits, holdable, drawn⟩ | ⟨fits, holdable, e⟩ | ⟨no, f, e, _⟩
  · exact ⟨fun _ => ⟨fits, holdable⟩, fun _ => drawn⟩
  · refine ⟨fun ⟨image, drawn⟩ => ?_, fun ⟨_, hh⟩ => ?_⟩
    · rw [e] at drawn
      cases drawn
    · rw [holdable] at hh
      cases hh
  · refine ⟨fun ⟨image, drawn⟩ => ?_, fun ⟨fits, _⟩ => absurd fits no⟩
    rw [e] at drawn
    cases drawn

/-- **Every pixel of an image is that of the fragment there.** -/
theorem Sound.execute_pixels (h : p.Sound) {image : Image}
    (drawn : p.execute inputs = .ok image) :
    image.toExtent = p.target ∧
      ∀ x y, x < p.target.width → y < p.target.height →
        image.pixel? x y = p.colour? (siteAt p.target inputs x y) := by
  obtain ⟨⟨length, extents⟩, holdable⟩ := (h.execute_eq_ok_iff inputs).mp ⟨image, drawn⟩
  rw [execute_of_fits length extents] at drawn
  cases hempty : p.target.isEmpty with
  | true =>
    rw [hempty, if_pos rfl] at drawn
    refine ⟨(of_imageOf drawn).1, fun x y hx hy => ?_⟩
    rw [isEmpty_eq_false_of_lt hx hy] at hempty
    cases hempty
  | false =>
    obtain ⟨rows, all, _, colours⟩ := h.rows_pixels length
    rw [hempty, if_neg Bool.false_ne_true, holdable, if_pos rfl, all] at drawn
    obtain ⟨extent, pixels⟩ := of_imageOf drawn
    refine ⟨extent, fun x y hx hy => ?_⟩
    rw [Image.pixel?, extent, if_pos ⟨hx, hy⟩, pixels, List.getElem?_toArray, colours x y hx hy]

end Program

/-! ## 3. Programs of recorded graphs -/

namespace Graph.Sound

variable {g : Graph} {nodes : List Node} (h : g.Sound nodes)
include h

theorem id_lt_length {i : Instruction} (hi : i ∈ g.instructions.toList) :
    i.id < g.instructions.toList.length := by
  rw [Array.length_toList]
  exact h.id_lt hi

/-- **The program for a node of a recorded graph is sound.** -/
theorem compile {out : Node} (hn : out ∈ nodes) (hd : out.kind.isDrawable = true) :
    g.compile out = .ok (.lower g.instructions.toList out.id g.target) ∧
    (Program.lower g.instructions.toList out.id g.target).Sound := by
  obtain ⟨mine, o, ho, hid, hk⟩ := h.nodes out hn
  refine ⟨by rw [Graph.compile, if_pos hd, if_pos mine], ?_⟩
  refine ⟨WellTyped.lower h.wellTyped (fun i hi => h.id_lt_length hi) g.target out.id, ?_⟩
  obtain ⟨e, he, same, kind⟩ := exists_output (fun i hi => h.id_lt_length hi) ho g.target
  rw [hid] at he same
  exact ⟨e, he, same, by rw [kind, hk]; exact hd⟩

/-- A program of a recorded graph is sound, and has its target. -/
theorem of_compile {out : Node} (hn : out ∈ nodes) {p : Program} (hp : g.compile out = .ok p) :
    p.Sound ∧ p.target = g.target := by
  have drawable : out.kind.isDrawable = true := by
    rw [Graph.compile] at hp
    split at hp
    · assumption
    · cases hp
  obtain ⟨compiled, sound⟩ := h.compile hn drawable
  obtain rfl := Except.ok.inj (compiled.symm.trans hp)
  exact ⟨sound, rfl⟩

/-- The images that are bound to its inputs are as many, and of its extent. -/
theorem inputsOf (output : Nat) :
    (g.inputsOf (.lower g.instructions.toList output g.target)).length
      = (Program.lower g.instructions.toList output g.target).inputs.length ∧
    ∀ image ∈ g.inputsOf (.lower g.instructions.toList output g.target),
      image.toExtent = g.target := by
  have bound := lower_inputs_lt h.wellTyped g.target output
  generalize (Program.lower g.instructions.toList output g.target) = p at bound
  unfold Graph.inputsOf
  constructor
  · refine List.filterMap_length_eq_length.mpr fun s hs => ?_
    rw [Array.getElem?_eq_getElem (bound s hs)]
    rfl
  · intro image hi
    obtain ⟨s, _, hs⟩ := List.mem_filterMap.mp hi
    obtain ⟨t, ht, rfl⟩ := Option.map_eq_some_iff.mp hs
    exact h.extents t (Array.mem_of_getElem? ht)

/-- **When a node of a recorded graph is drawn.** -/
theorem render_eq_ok_iff {out : Node} (hn : out ∈ nodes) (hd : out.kind.isDrawable = true) :
    (∃ image, g.render out = .ok image) ↔ g.target.isHoldable = true := by
  obtain ⟨compiled, ready⟩ := h.compile hn hd
  have fits : (Program.lower g.instructions.toList out.id g.target).Accepts
      (g.inputsOf (.lower g.instructions.toList out.id g.target)) := h.inputsOf out.id
  have target : (Program.lower g.instructions.toList out.id g.target).target = g.target := rfl
  rw [Graph.render, compiled]
  simp only [target]
  cases hempty : g.target.isEmpty with
  | true =>
    have holdable := isHoldable_of_isEmpty hempty
    rw [if_pos rfl]
    exact ⟨fun _ => holdable, fun _ => imageOf_eq_ok holdable (area_of_isEmpty hempty).symm⟩
  | false =>
    rw [if_neg Bool.false_ne_true, ready.execute_eq_ok_iff]
    exact ⟨fun drawn => drawn.2, fun holdable => ⟨fits, holdable⟩⟩

end Graph.Sound

end Relief.Shading
