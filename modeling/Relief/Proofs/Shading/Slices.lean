import Mathlib.Data.List.Nodup
import Mathlib.Logic.Relation
import Relief.Proofs.Shading.Stability

/-!
# Slices

A program keeps the slice of its graph that the output depends on. One pass from the last instruction
to the first finds all of it, and nothing else.

* `Reads`, `Needs`: what an instruction reads, and what it needs through others;
* `isMarked_live_iff`: **what is marked is what the output needs**;
* `getLast?_slice`: the output is the last of it;
* `renumber_firstUses`: textures are numbered in the order of their first use, each of them once;
* `lowering_keeps_slice`: so **a program is the slice of its output**, under new numbers for the
  textures.
-/

namespace Relief.Shading

/-! ## 1. What is needed -/

/-- An instruction of a list reads another one. -/
def Reads (L : List Instruction) (id operand : Nat) : Prop :=
  ∃ i ∈ L, i.id = id ∧ operand ∈ i.term.operands

/-- What an instruction needs: itself, what it reads, what that reads, and so on. -/
def Needs (L : List Instruction) : Nat → Nat → Prop :=
  Relation.ReflTransGen (Reads L)

section Needs

variable {L : List Instruction} {id other : Nat}

theorem Needs.cons (h : Needs L id other) (i : Instruction) : Needs (i :: L) id other :=
  Relation.ReflTransGen.mono
    (fun _ _ ⟨j, hj, reads⟩ => ⟨j, List.mem_cons_of_mem i hj, reads⟩) _ _ h

/-- **What is marked in the end is needed by something that was marked to begin with.** -/
theorem exists_needs_of_isMarked {marks : Array Bool} (h : isMarked (markLive L marks) id = true) :
    ∃ start, isMarked marks start = true ∧ Needs L start id := by
  induction L generalizing id with
  | nil => exact ⟨id, h, .refl⟩
  | cons i rest ih =>
    have earlier : ∀ {id}, isMarked (markLive rest marks) id = true →
        ∃ start, isMarked marks start = true ∧ Needs (i :: rest) start id := by
      intro id marked
      obtain ⟨start, begin, needs⟩ := ih marked
      exact ⟨start, begin, needs.cons i⟩
    rw [markLive_cons] at h
    split at h
    · rename_i turn
      rcases (isMarked_markAll _ _ _).mp h with marked | ⟨operand, -⟩
      · exact earlier marked
      · obtain ⟨start, begin, needs⟩ := earlier turn
        exact ⟨start, begin, .tail needs ⟨i, List.mem_cons_self, rfl, operand⟩⟩
    · exact earlier h

variable {textures : Nat} (h : WellTyped textures L)
include h

/-- What is needed was recorded before. -/
theorem WellTyped.le_of_needs (needs : Needs L id other) : other ≤ id := by
  induction needs with
  | refl => exact Nat.le_refl id
  | tail _ reads ih =>
    obtain ⟨i, hi, rfl, operand⟩ := reads
    exact Nat.le_trans (Nat.le_of_lt ((h.fits i hi).refers _ operand).1) ih

/-- What an instruction needs is an instruction. -/
theorem WellTyped.exists_of_needs {o : Instruction} (ho : o ∈ L) (needs : Needs L o.id other) :
    ∃ i ∈ L, i.id = other := by
  cases needs with
  | refl => exact ⟨o, ho, rfl⟩
  | tail _ reads =>
    obtain ⟨i, hi, -, operand⟩ := reads
    exact ((h.fits i hi).refers _ operand).2

/-- **What is marked is what the output needs.** -/
theorem isMarked_live_iff (small : ∀ i ∈ L, i.id < L.length) {o : Instruction} (ho : o ∈ L) :
    isMarked (live L o.id) id = true ↔ Needs L o.id id := by
  constructor
  · intro marked
    rw [live_eq] at marked
    obtain ⟨start, begin, needs⟩ := exists_needs_of_isMarked marked
    obtain rfl := (isMarked_start (small o ho) start).mp begin
    exact needs
  · intro needs
    induction needs with
    | refl => exact isMarked_output small ho
    | tail _ reads ih =>
      obtain ⟨i, hi, rfl, operand⟩ := reads
      exact live_closed h small o.id i hi ih _ operand

end Needs

/-! ## 2. The last instruction -/

/-- Among instructions in the order of their numbers, the one with the greatest number is the
    last. -/
theorem getLast?_of_le {L : List Instruction} (ordered : L.Pairwise fun a b => a.id < b.id)
    {o : Instruction} (ho : o ∈ L) (top : ∀ i ∈ L, i.id ≤ o.id) : L.getLast? = some o := by
  obtain ⟨front, last, rfl⟩ := (List.eq_nil_or_concat' L).resolve_left (List.ne_nil_of_mem ho)
  rw [List.getLast?_concat]
  rcases List.mem_append.mp ho with before | here
  · have less := (List.pairwise_append.mp ordered).2.2 o before last (List.mem_singleton_self last)
    have := top last (List.mem_append_right front (List.mem_singleton_self last))
    omega
  · rw [List.mem_singleton.mp here]

/-- **The output is the last instruction of its slice.** -/
theorem WellTyped.getLast?_slice {textures : Nat} {L : List Instruction} (h : WellTyped textures L)
    (small : ∀ i ∈ L, i.id < L.length) {o : Instruction} (ho : o ∈ L) :
    (L.filter fun i => isMarked (live L o.id) i.id).getLast? = some o := by
  refine getLast?_of_le (h.ordered.filter _) ?_ fun i hi => ?_
  · exact List.mem_filter.mpr ⟨ho, isMarked_output small ho⟩
  · exact h.le_of_needs ((isMarked_live_iff h small ho).mp (List.mem_filter.mp hi).2)

/-! ## 3. First uses -/

/-- The texture that an instruction samples. -/
def Instruction.texture? (i : Instruction) : Option Nat :=
  match i.term with
  | .texel slot => some slot
  | _ => none

/-- One more use is a first one or not. -/
theorem eraseDups_concat (uses : List Nat) (use : Nat) :
    (uses ++ [use]).eraseDups = if use ∈ uses then uses.eraseDups else uses.eraseDups ++ [use] := by
  rw [List.eraseDups_append]
  by_cases again : use ∈ uses
  · rw [if_pos again]
    simp [List.removeAll, again]
  · rw [if_neg again]
    simp [List.removeAll, again, List.eraseDups_cons]

/-- A slot is bound once, and its number is one in use or the next one. -/
theorem bindingOf_firstUses (slot : Nat) {inputs uses : List Nat} (nodup : inputs.Nodup)
    (first : uses.eraseDups = List.range inputs.length) :
    (bindingOf slot inputs).2.Nodup ∧
      (uses ++ [(bindingOf slot inputs).1]).eraseDups
        = List.range (bindingOf slot inputs).2.length := by
  have used : ∀ use, use ∈ uses ↔ use < inputs.length := by
    intro use
    rw [← List.mem_eraseDups, first, List.mem_range]
  rw [eraseDups_concat]
  unfold bindingOf
  split
  · rename_i binding found
    obtain ⟨lt, -, -⟩ := List.idxOf?_eq_some_iff.mp found
    exact ⟨nodup, by rw [if_pos ((used binding).mpr lt), first]⟩
  · rename_i new
    refine ⟨List.concat_eq_append ▸ List.Nodup.concat (List.idxOf?_eq_none_iff.mp new) nodup, ?_⟩
    rw [if_neg fun again => Nat.lt_irrefl _ ((used _).mp again), first, List.length_append,
      List.length_singleton, List.range_succ]

/-- **Textures are numbered in the order of their first use**, and none of them twice. -/
theorem renumber_firstUses (L : List Instruction) {inputs uses : List Nat} (nodup : inputs.Nodup)
    (first : uses.eraseDups = List.range inputs.length) :
    (renumber L inputs).2.Nodup ∧
      (uses ++ (renumber L inputs).1.filterMap Instruction.texture?).eraseDups
        = List.range (renumber L inputs).2.length := by
  induction L generalizing inputs uses with
  | nil => exact ⟨nodup, by rw [renumber, List.filterMap_nil, List.append_nil, first]⟩
  | cons i rest ih =>
    obtain ⟨id, kind, term⟩ := i
    cases term with
    | texel slot =>
      obtain ⟨nodup, first⟩ := bindingOf_firstUses slot nodup first
      obtain ⟨distinct, all⟩ := ih nodup first
      rw [List.append_assoc] at all
      exact ⟨distinct, all⟩
    | _ => exact ih nodup first

/-- **So are the textures of a program.** -/
theorem lower_firstUses (L : List Instruction) (output : Nat) (target : Extent) :
    (Program.lower L output target).inputs.Nodup ∧
      ((Program.lower L output target).instructions.filterMap Instruction.texture?).eraseDups
        = List.range (Program.lower L output target).inputs.length :=
  renumber_firstUses (L.filter fun i => isMarked (live L output) i.id) List.nodup_nil
    (rfl : ([] : List Nat).eraseDups = List.range ([] : List Nat).length)

/-! ## 4. The slice of an output -/

/-- **A program is the slice of its output.** Of the recorded instructions it keeps those that the
    output needs, and no others: each of them once, in the order of their recording, the output as the
    last one. They are as they have been recorded, but for the numbers of the textures. No texture is
    bound twice, the numbers under which they are sampled begin with zero and go up by one at each
    first use, and under each of them the slot is bound that was recorded. -/
theorem lowering_keeps_slice {id : Nat} {target : Extent} {g : Graph} {nodes : List Node}
    (h : Recorded id target g nodes) {out : Node} (hout : out ∈ nodes) (size : Extent) :
    let L := g.instructions.toList
    let p := Program.lower L out.id size
    ∃ kept : List Instruction,
      kept.Sublist L ∧ (kept.Pairwise fun a b => a.id < b.id) ∧
      (∀ n, (∃ i ∈ kept, i.id = n) ↔ Needs L out.id n) ∧
      kept.getLast?.map Instruction.id = some out.id ∧
      List.Forall₂ (Instruction.Rebinds p.inputs) kept p.instructions ∧
      p.inputs.Nodup ∧
      (p.instructions.filterMap Instruction.texture?).eraseDups = List.range p.inputs.length := by
  have sound := h.sound
  have typed := sound.wellTyped
  have small : ∀ i ∈ g.instructions.toList, i.id < g.instructions.toList.length :=
    fun i hi => sound.id_lt_length hi
  obtain ⟨_, o, ho, hid, _⟩ := sound.nodes out hout
  rw [← hid]
  intro L p
  obtain ⟨nodup, first⟩ := lower_firstUses L o.id size
  refine ⟨_, List.filter_sublist, typed.ordered.filter _, fun n => ⟨?_, fun needs => ?_⟩, ?_,
    lower_rebinds L o.id size, nodup, first⟩
  · rintro ⟨i, hi, rfl⟩
    exact (isMarked_live_iff typed small ho).mp (List.mem_filter.mp hi).2
  · obtain ⟨i, hi, rfl⟩ := typed.exists_of_needs ho needs
    exact ⟨i, List.mem_filter.mpr ⟨hi, (isMarked_live_iff typed small ho).mpr needs⟩, rfl⟩
  · rw [typed.getLast?_slice small ho, Option.map_some]

/-- A texture that has been bound is sampled where it is. -/
theorem Graph.record_texture_again {g : Graph} {t : Texture} (ht : t.image.toExtent = g.target)
    {slot : Fin g.textures.size} (bound : g.textures.finIdxOf? t = some slot) :
    g.record (.texture t) = .ok (g.push .vec4 (.texel slot)) := by
  have stays : g.bindTexture t = (g, slot.val) := by
    rw [Graph.bindTexture, bound]
  simp only [Graph.record, Graph.term?, if_pos ht, Graph.texturesAfter, stays]

/-- One texture is sampled before and behind another, the first time for nothing; the last
    instruction comes behind the output. -/
def fernInstructions : List Instruction :=
  [⟨0, .vec4, .texel 0⟩, ⟨1, .vec4, .texel 1⟩, ⟨2, .vec4, .texel 0⟩, ⟨3, .vec2, .position⟩,
    ⟨4, .vec4, .apply (.binary .add) [2, 1]⟩, ⟨5, .vec4, .apply (.binary .mul) [4, 2]⟩]

/-- The graph after so many calls. -/
def fernGraph (calls : Nat) : Graph where
  id := 0
  target := ⟨1, 1⟩
  instructions := (fernInstructions.take calls).toArray
  textures := ([sand, moss].take calls).toArray

/-- The nodes that so many calls have answered, the last one first. -/
def fernNodes (calls : Nat) : List Node :=
  ((fernInstructions.take calls).map fun i => ⟨0, i.id, i.kind⟩).reverse

theorem recorded_fernGraph : Recorded 0 ⟨1, 1⟩ (fernGraph 6) (fernNodes 6) := by
  have start : Recorded 0 ⟨1, 1⟩ (fernGraph 0) (fernNodes 0) := .empty
  have first : Recorded 0 ⟨1, 1⟩ (fernGraph 1) (fernNodes 1) :=
    .record start (.texture sand) (by decide) (Graph.record_texture rfl (by decide))
  have second : Recorded 0 ⟨1, 1⟩ (fernGraph 2) (fernNodes 2) :=
    .record first (.texture moss) (by decide) (Graph.record_texture rfl (by decide))
  have bound : (fernGraph 2).textures.finIdxOf? sand = some ⟨0, by decide⟩ :=
    Array.finIdxOf?_eq_some_iff.mpr ⟨rfl, fun j hj => absurd hj (Nat.not_lt_zero j)⟩
  have again : Recorded 0 ⟨1, 1⟩ (fernGraph 3) (fernNodes 3) :=
    .record second (.texture sand) (by decide) (Graph.record_texture_again rfl bound)
  have place : Recorded 0 ⟨1, 1⟩ (fernGraph 4) (fernNodes 4) :=
    .record again .position (by decide) rfl
  have sum : Recorded 0 ⟨1, 1⟩ (fernGraph 5) (fernNodes 5) :=
    .record place (.apply (.binary .add) [⟨0, 2, .vec4⟩, ⟨0, 1, .vec4⟩]) (by decide) rfl
  exact .record sum (.apply (.binary .mul) [⟨0, 4, .vec4⟩, ⟨0, 2, .vec4⟩]) (by decide) rfl

/-- Three of its instructions are kept, and the textures change places. -/
theorem fernGraph_keeps_slice :
    Recorded 0 ⟨1, 1⟩ (fernGraph 6) (fernNodes 6) ∧ (⟨0, 4, .vec4⟩ : Node) ∈ fernNodes 6 ∧
    let p := Program.lower fernInstructions 4 ⟨1, 1⟩
    p.inputs = [1, 0] ∧ p.instructions.map Instruction.id = [1, 2, 4] ∧
    (∀ n, Needs fernInstructions 4 n ↔ n ∈ [1, 2, 4]) ∧
    p.instructions.filterMap Instruction.texture? = [0, 1] := by
  have mem : (⟨0, 4, .vec4⟩ : Node) ∈ fernNodes 6 := by decide
  obtain ⟨kept, -, -, needed, -, rebinds, -⟩ :=
    lowering_keeps_slice recorded_fernGraph mem ⟨1, 1⟩
  have ids : kept.map Instruction.id = [1, 2, 4] :=
    (map_of_rebinds rebinds fun id _ => id).symm.trans rfl
  refine ⟨recorded_fernGraph, mem, rfl, rfl, fun n => (needed n).symm.trans ?_, rfl⟩
  rw [← ids, List.mem_map]

end Relief.Shading
