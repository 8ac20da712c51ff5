import Relief.Proofs.Shading.Pruning

/-!
# Literals

No number that is not finite gets into a graph, and so none gets into a program.

* `Instruction.IsFinite`: an instruction that is a number is a finite one;
* `Recorded.isFinite`: **so are all instructions of a recorded graph**;
* `isFinite_lower`: and all instructions of its programs.
-/

namespace Relief.Shading

/-- A number is a finite one. -/
def Instruction.IsFinite (i : Instruction) : Prop :=
  ∀ x, i.term = .float x → x.isFinite = true

/-- The instruction of a call that fits is a finite number, if it is a number at all. -/
theorem Graph.isFinite_of_term? {g : Graph} {c : Call} {kind : Kind} {term : Term}
    (h : g.term? c = .ok (kind, term)) (id : Nat) : Instruction.IsFinite ⟨id, kind, term⟩ := by
  rintro x rfl
  unfold Graph.term? at h
  cases c with
  | float y =>
    simp only at h
    split at h
    · rename_i finite
      cases h
      exact finite
    · cases h
  | integer i => cases h
  | boolean b => cases h
  | position => cases h
  | resolution => cases h
  | texture t =>
    simp only at h
    split at h <;> cases h
  | construct parts =>
    simp only at h
    split at h
    · cases h
    · split at h <;> cases h
  | apply op operands =>
    simp only at h
    split at h
    · cases h
    · split at h
      · cases h
      · split at h <;> cases h

/-- **Every number in a recorded graph is finite.** -/
theorem Recorded.isFinite {id : Nat} {target : Extent} {g : Graph} {nodes : List Node}
    (h : Recorded id target g nodes) : ∀ i ∈ g.instructions.toList, i.IsFinite := by
  induction h with
  | empty => simp [Graph.empty]
  | record h c own hr ih =>
    obtain ⟨kind, term, ht, e⟩ := Graph.record_eq_ok hr
    obtain ⟨rfl, rfl⟩ := Prod.mk.inj e
    simp only [Array.toList_push]
    intro i hi
    rcases List.mem_append.mp hi with hi | hi
    · exact ih i hi
    · rw [List.mem_singleton.mp hi]
      exact Graph.isFinite_of_term? ht _

/-- An instruction whose texture is numbered otherwise is the same number, if it is one. -/
theorem Instruction.Rebinds.isFinite {inputs : List Nat} {i i' : Instruction}
    (h : i.Rebinds inputs i') (hf : i.IsFinite) : i'.IsFinite := by
  obtain ⟨id, kind, term⟩ := i
  intro x hx
  cases term with
  | texel slot =>
    obtain ⟨_, _, binding, hterm, _⟩ := h
    rw [hterm] at hx
    cases hx
  | _ => exact hf x (h.2.2.symm.trans hx)

/-- **Every number in a program is finite** if it is so in the graph. -/
theorem isFinite_lower {L : List Instruction} (h : ∀ i ∈ L, i.IsFinite) (output : Nat)
    (target : Extent) : ∀ i ∈ (Program.lower L output target).instructions, i.IsFinite := by
  intro i hi
  obtain ⟨i', hi', rebinds⟩ := exists_rebinds (lower_rebinds L output target) hi
  exact rebinds.isFinite (h i' (List.mem_filter.mp hi').1)

end Relief.Shading
