import Relief.Proofs.Shading.Drawing

/-!
# That recorded graphs can be drawn

* `recorded_graph_is_sound`: **no fragment of a program of a recorded graph fails**, and there is an
  image wherever the images that are bound fit and memory can hold the target;
* `vast_target_is_not_drawn`: of a target that memory cannot hold there is none.
-/

namespace Relief.Shading

/-- **The kinds of a recorded graph are those of its values.** Every instruction reads earlier ones.
    In a program for a node that can be drawn, every register comes to hold a value of the kind that
    is recorded for its instruction, at every fragment with a texel for each input. So the program
    draws an image exactly if it is given as many images as it samples, all of the extent of the
    target, and memory can hold that; its failures are those of what it is given, and never of an
    instruction. -/
theorem recorded_graph_is_sound {id : Nat} {target : Extent} {g : Graph} {nodes : List Node}
    (h : Recorded id target g nodes) :
    (∀ (k : Nat) (i : Instruction), g.instructions[k]? = some i →
      i.id = k ∧ ∀ operand ∈ i.term.operands, operand < k) ∧
    ∀ out ∈ nodes, out.kind.isDrawable = true →
      ∃ p, g.compile out = .ok p ∧ p.target = target ∧
        (∀ (site : Site) (registers : Registers), site.texels.length = p.inputs.length →
          registers.size = p.instructions.length →
          ∃ after, p.registersAfter p.slots site registers = .ok after ∧
            ∀ e ∈ p.instructions,
              (∃ v, read? p.slots after e.id = some v ∧ v.kind = e.kind) ∧
              ∃ i ∈ g.instructions, i.id = e.id ∧ i.kind = e.kind) ∧
        (∀ inputs : List Image,
          ((∃ image, p.execute inputs = .ok image) ↔
            inputs.length = p.inputs.length ∧ (∀ image ∈ inputs, image.toExtent = target) ∧
              target.isHoldable = true) ∧
          (¬ (inputs.length = p.inputs.length ∧ ∀ image ∈ inputs, image.toExtent = target) →
            ∃ f, p.execute inputs = .error f ∧ f.category = .validation) ∧
          ∀ f, p.execute inputs = .error f → f.category ≠ .evaluation) ∧
        ((∃ image, g.render out = .ok image) ↔ target.isHoldable = true) := by
  have sound := h.sound
  obtain ⟨rfl, rfl⟩ := h.owner
  refine ⟨fun k i hk => ?_, fun out hout drawable => ?_⟩
  · have mem : i ∈ g.instructions.toList := Array.mem_toList_iff.mpr (Array.mem_of_getElem? hk)
    have here : i.id = k := by
      have ids := congrArg (fun l : List Nat => l[k]?) sound.numbered
      have lt := (Array.getElem?_eq_some_iff.mp hk).1
      simp only [List.getElem?_map, Array.getElem?_toList, hk, Option.map_some,
        List.getElem?_range lt] at ids
      exact Option.some.inj ids
    exact ⟨here, fun operand ho => here ▸ ((sound.fits i mem).refers operand ho).1⟩
  · obtain ⟨compiled, ready⟩ := sound.compile hout drawable
    refine ⟨_, compiled, rfl, fun site registers texels size => ?_, fun inputs => ?_, ?_⟩
    · obtain ⟨after, run, typed⟩ := ready.registersAfter texels size
      refine ⟨after, run, fun e he => ⟨typed e he, ?_⟩⟩
      obtain ⟨i, hi, same, kind, _⟩ := exists_of_mem_lower g.target he
      exact ⟨i, Array.mem_toList_iff.mp hi, same, kind⟩
    · refine ⟨?_, fun no => ?_, fun f refused => ?_⟩
      · rw [ready.execute_eq_ok_iff inputs, Program.Accepts, and_assoc]
        exact Iff.rfl
      · rcases ready.execute_cases inputs with ⟨fits, _⟩ | ⟨fits, _⟩ | ⟨_, refused⟩
        · exact absurd fits no
        · exact absurd fits no
        · exact refused
      · rcases ready.execute_cases inputs with ⟨_, _, _, e⟩ | ⟨_, _, e⟩ | ⟨_, f', e, category⟩
        · rw [e] at refused
          cases refused
        · rw [e] at refused
          obtain rfl := Except.error.inj refused
          exact Category.noConfusion
        · rw [e] at refused
          obtain rfl := Except.error.inj refused
          rw [category]
          exact Category.noConfusion
    · exact sound.render_eq_ok_iff hout drawable

/-- The red of a texture, and a half, can be drawn. -/
theorem mossGraph_is_drawn :
    Recorded 0 ⟨1, 1⟩ (mossGraph 6) (mossNodes 6) ∧
      ∃ image, (mossGraph 6).render ⟨0, 5, .f32⟩ = .ok image := by
  obtain ⟨_, drawn⟩ := recorded_graph_is_sound recorded_mossGraph
  obtain ⟨_, _, _, _, _, rendered⟩ := drawn ⟨0, 5, .f32⟩ List.mem_cons_self rfl
  exact ⟨recorded_mossGraph, rendered.mpr rfl⟩

/-- A target of as many bytes as no piece of memory can have. -/
def vast : Extent :=
  ⟨2147483648, 1073741824⟩

/-- Of a target that memory cannot hold there is no image, although nothing is missing. -/
theorem vast_target_is_not_drawn :
    ∃ g out p, Recorded 0 vast g [out] ∧ out.kind.isDrawable = true ∧ g.compile out = .ok p ∧
      ([] : List Image).length = p.inputs.length ∧ (∀ image, p.execute [] ≠ .ok image) ∧
      ∀ image, g.render out ≠ .ok image := by
  have recorded : Recorded 0 vast _ [⟨0, 0, .f32⟩] :=
    .record .empty (.float 1) (by simp [Call.operands]) rfl
  refine ⟨_, ⟨0, 0, .f32⟩, _, recorded, rfl, rfl, rfl, ?_, ?_⟩
  · intro image drawn
    rw [Program.execute_of_unholdable rfl (by simp) rfl] at drawn
    cases drawn
  · intro image drawn
    have holdable := (recorded.sound.render_eq_ok_iff (List.mem_singleton_self _) rfl).mp ⟨_, drawn⟩
    exact absurd holdable (by decide)

end Relief.Shading
