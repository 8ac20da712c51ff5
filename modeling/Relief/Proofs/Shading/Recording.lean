import Mathlib.Data.List.Forall2
import Relief.Proofs.Shading.Typing

/-!
# What is recorded in a graph

A graph is recorded call by call, and callers use no nodes but those they have been given.

* `Recorded`: the graphs that come about so, with their nodes;
* `Instruction.Fits`: an instruction reads earlier ones, of kinds that it takes, and no texture that
  there is not;
* `WellTyped`: instructions in the order of their numbers, each of which fits;
* `Recorded.sound`: **every recorded graph is well typed**, and each of its nodes names an
  instruction of its kind;
* `Bench.Recorded.graph`: every graph of a bench is a recorded one.
-/

namespace Relief.Shading

/-- A graph that has been recorded call by call, and the nodes that the calls have answered. A call
    may use any nodes of other graphs, and of this one those that it has answered. -/
inductive Recorded (id : Nat) (target : Extent) : Graph → List Node → Prop where
  | empty : Recorded id target (.empty id target) []
  | record {g g' : Graph} {nodes : List Node} {n : Node} (h : Recorded id target g nodes) (c : Call)
      (own : ∀ m ∈ c.operands, m.graph = id → m ∈ nodes) (hr : g.record c = .ok (g', n)) :
      Recorded id target g' (n :: nodes)

/-! ## 1. Instructions that fit -/

/-- An instruction before a place is referred to, and it is of a kind. -/
def Refers (L : List Instruction) (place : Nat) (id : Nat) (k : Kind) : Prop :=
  id < place ∧ ∃ e ∈ L, e.id = id ∧ e.kind = k

/-- An instruction fits among others, over so many textures. -/
def Instruction.Fits (i : Instruction) (L : List Instruction) (textures : Nat) : Prop :=
  match i.term with
  | .float _ => i.kind = .f32
  | .integer _ => i.kind = .i32
  | .boolean _ => i.kind = .bool
  | .texel slot => i.kind = .vec4 ∧ slot < textures
  | .position => i.kind = .vec2
  | .resolution => i.kind = .vec2
  | .construct parts =>
    ∃ kinds, List.Forall₂ (Refers L i.id) parts kinds ∧ constructed? kinds = some i.kind
  | .apply op operands =>
    ∃ kinds, List.Forall₂ (Refers L i.id) operands kinds ∧ op.result? kinds = some i.kind ∧
      op.LaneFits kinds

/-- Instructions in the order of their numbers, each of which fits among them. -/
structure WellTyped (textures : Nat) (L : List Instruction) : Prop where
  ordered : L.Pairwise fun a b => a.id < b.id
  fits : ∀ i ∈ L, i.Fits L textures

/-- What fits among some instructions fits among others if all that it reads is found there. -/
theorem Instruction.Fits.imp {i : Instruction} {L L' : List Instruction}
    {textures textures' : Nat} (h : i.Fits L textures)
    (hL : ∀ id ∈ i.term.operands, ∀ k, Refers L i.id id k → Refers L' i.id id k)
    (ht : textures ≤ textures') : i.Fits L' textures' := by
  have all : ∀ {ids : List Nat} {kinds : List Kind}, (∀ id ∈ ids, id ∈ i.term.operands) →
      List.Forall₂ (Refers L i.id) ids kinds → List.Forall₂ (Refers L' i.id) ids kinds := by
    intro ids kinds mem refers
    induction refers with
    | nil => exact .nil
    | cons r _ ih =>
      exact .cons (hL _ (mem _ List.mem_cons_self) _ r)
        (ih fun id hid => mem id (List.mem_cons_of_mem _ hid))
  obtain ⟨id, kind, term⟩ := i
  cases term with
  | texel slot => exact ⟨h.1, Nat.lt_of_lt_of_le h.2 ht⟩
  | construct parts =>
    obtain ⟨kinds, refers, built⟩ := h
    exact ⟨kinds, all (fun _ hid => hid) refers, built⟩
  | apply op operands =>
    obtain ⟨kinds, refers, result, lane⟩ := h
    exact ⟨kinds, all (fun _ hid => hid) refers, result, lane⟩
  | _ => exact h

theorem Instruction.Fits.mono {i : Instruction} {L L' : List Instruction}
    {textures textures' : Nat} (h : i.Fits L textures) (hL : ∀ e ∈ L, e ∈ L')
    (ht : textures ≤ textures') : i.Fits L' textures' :=
  h.imp (fun _ _ _ ⟨lt, e, he, hid, hk⟩ => ⟨lt, e, hL e he, hid, hk⟩) ht

/-- **An instruction reads earlier ones only.** -/
theorem Instruction.Fits.refers {i : Instruction} {L : List Instruction} {textures : Nat}
    (h : i.Fits L textures) : ∀ id ∈ i.term.operands, id < i.id ∧ ∃ e ∈ L, e.id = id := by
  have of_all : ∀ {ids : List Nat} {kinds : List Kind}, List.Forall₂ (Refers L i.id) ids kinds →
      ∀ id ∈ ids, id < i.id ∧ ∃ e ∈ L, e.id = id := by
    intro ids kinds all
    induction all with
    | nil => simp
    | cons r _ ih =>
      obtain ⟨lt, e, he, hid, _⟩ := r
      intro id hmem
      rcases List.mem_cons.mp hmem with rfl | hmem
      · exact ⟨lt, e, he, hid⟩
      · exact ih id hmem
  obtain ⟨id, kind, term⟩ := i
  cases term with
  | construct parts =>
    obtain ⟨kinds, all, _⟩ := h
    exact of_all all
  | apply op operands =>
    obtain ⟨kinds, all, _⟩ := h
    exact of_all all
  | _ => simp [Term.operands]

/-! ## 2. Graphs -/

/-- What holds of a graph whose nodes have been handed out. -/
structure Graph.Sound (g : Graph) (nodes : List Node) : Prop where
  /-- Instructions are numbered in the order in which they are recorded. -/
  numbered : g.instructions.toList.map Instruction.id = List.range g.instructions.size
  fits : ∀ i ∈ g.instructions.toList, i.Fits g.instructions.toList g.textures.size
  /-- Textures have the extent of the target. -/
  extents : ∀ t ∈ g.textures, t.image.toExtent = g.target
  /-- A node names an instruction of its kind. -/
  nodes : ∀ n ∈ nodes, n.graph = g.id ∧
    ∃ i ∈ g.instructions.toList, i.id = n.id ∧ i.kind = n.kind

namespace Graph.Sound

variable {g : Graph} {nodes : List Node}

theorem id_lt (h : g.Sound nodes) {i : Instruction} (hi : i ∈ g.instructions.toList) :
    i.id < g.instructions.size := by
  have mem := List.mem_map_of_mem (f := Instruction.id) hi
  rw [h.numbered, List.mem_range] at mem
  exact mem

/-- The instructions of such a graph are well typed. -/
theorem wellTyped (h : g.Sound nodes) : WellTyped g.textures.size g.instructions.toList where
  ordered := by
    have increasing := List.pairwise_lt_range (n := g.instructions.size)
    rw [← h.numbered, List.pairwise_map] at increasing
    exact increasing
  fits := h.fits

/-- The operands of a call refer to instructions of their kinds. -/
theorem refers (h : g.Sound nodes) {operands : List Node} (own : ∀ n ∈ operands, n ∈ nodes) :
    List.Forall₂ (Refers g.instructions.toList g.instructions.size) (operands.map Node.id)
      (operands.map Node.kind) := by
  rw [List.forall₂_map_left_iff, List.forall₂_map_right_iff, List.forall₂_same]
  intro n hn
  obtain ⟨_, i, hi, hid, hk⟩ := h.nodes n (own n hn)
  exact ⟨hid ▸ h.id_lt hi, i, hi, hid, hk⟩

/-- A graph to which a fitting instruction is added. -/
theorem push (h : g.Sound nodes) {textures : Array Texture} {kind : Kind} {term : Term}
    (hsize : g.textures.size ≤ textures.size)
    (hextents : ∀ t ∈ textures, t.image.toExtent = g.target)
    (hfits : Instruction.Fits ⟨g.instructions.size, kind, term⟩ g.instructions.toList
      textures.size) :
    (({ g with textures }.push kind term).1).Sound
      (({ g with textures }.push kind term).2 :: nodes) where
  numbered := by
    simp only [Graph.push, Array.toList_push, List.map_append, List.map_cons, List.map_nil,
      Array.size_push, List.range_succ, h.numbered]
  fits := by
    simp only [Graph.push, Array.toList_push]
    intro i hi
    rcases List.mem_append.mp hi with hi | hi
    · exact (h.fits i hi).mono (fun e he => List.mem_append_left _ he) hsize
    · rw [List.mem_singleton.mp hi]
      exact hfits.mono (fun e he => List.mem_append_left _ he) (Nat.le_refl _)
  extents := hextents
  nodes := by
    simp only [Graph.push, Array.toList_push]
    intro n hn
    rcases List.mem_cons.mp hn with rfl | hn
    · exact ⟨rfl, _, List.mem_append_right _ (List.mem_singleton_self _), rfl, rfl⟩
    · obtain ⟨hg, i, hi, hid, hk⟩ := h.nodes n hn
      exact ⟨hg, i, List.mem_append_left _ hi, hid, hk⟩

end Graph.Sound

/-! ## 3. Recording keeps to it -/

/-- Binding a texture of the right extent keeps the textures that there are, and gives it a
    place. -/
theorem Graph.bindTexture_spec {g : Graph} {t : Texture} (ht : t.image.toExtent = g.target)
    (hg : ∀ t ∈ g.textures, t.image.toExtent = g.target) :
    g.textures.size ≤ (g.bindTexture t).1.textures.size ∧
    (g.bindTexture t).2 < (g.bindTexture t).1.textures.size ∧
    ∀ t' ∈ (g.bindTexture t).1.textures, t'.image.toExtent = g.target := by
  unfold Graph.bindTexture
  split
  · rename_i slot _
    exact ⟨Nat.le_refl _, slot.isLt, hg⟩
  · refine ⟨?_, ?_, ?_⟩
    · rw [Array.size_push]
      exact Nat.le_succ _
    · rw [Array.size_push]
      exact Nat.lt_succ_self _
    · intro t' ht'
      rcases Array.mem_push.mp ht' with ht' | rfl
      · exact hg t' ht'
      · exact ht

/-- Where no node strays, all belong to the graph. -/
theorem Graph.of_stray?_eq_none {g : Graph} {nodes : List Node} (h : g.stray? nodes = none) :
    ∀ n ∈ nodes, n.graph = g.id := by
  intro n hn
  have := List.find?_eq_none.mp h n hn
  simpa using this

/-- An operator that asks for no bad lane asks for one that there is. -/
theorem Graph.laneFits_of_badLane? {op : Operator} {operands : List Node}
    (h : Graph.badLane? op operands = none) : op.LaneFits (operands.map Node.kind) := by
  unfold Graph.badLane? at h
  split at h
  · rename_i index a
    by_cases hl : index < a.kind.components
    · exact hl
    · rw [if_neg hl] at h
      cases h
  · rename_i op operands hno
    unfold Operator.LaneFits
    split
    · rename_i index k hk
      obtain ⟨a, rfl, _⟩ := List.map_eq_singleton_iff.mp hk
      exact absurd rfl (hno index a rfl)
    · trivial

/-- **The instruction of a call that fits fits in the graph**, with the textures after the call. -/
theorem Graph.term?_fits {g : Graph} {nodes : List Node} (h : g.Sound nodes) {c : Call}
    (own : ∀ n ∈ c.operands, n.graph = g.id → n ∈ nodes) {kind : Kind} {term : Term}
    (ht : g.term? c = .ok (kind, term)) :
    g.textures.size ≤ (g.texturesAfter c).size ∧
    (∀ t ∈ g.texturesAfter c, t.image.toExtent = g.target) ∧
    Instruction.Fits ⟨g.instructions.size, kind, term⟩ g.instructions.toList
      (g.texturesAfter c).size := by
  have same : g.textures.size ≤ g.textures.size ∧ ∀ t ∈ g.textures, t.image.toExtent = g.target :=
    ⟨Nat.le_refl _, h.extents⟩
  unfold Graph.term? at ht
  cases c with
  | float x =>
    simp only at ht
    split at ht
    · cases ht
      exact ⟨same.1, same.2, rfl⟩
    · cases ht
  | integer i =>
    cases ht
    exact ⟨same.1, same.2, rfl⟩
  | boolean b =>
    cases ht
    exact ⟨same.1, same.2, rfl⟩
  | position =>
    cases ht
    exact ⟨same.1, same.2, rfl⟩
  | resolution =>
    cases ht
    exact ⟨same.1, same.2, rfl⟩
  | texture t =>
    simp only at ht
    split at ht
    · rename_i extent
      cases ht
      obtain ⟨size, slot, extents⟩ := Graph.bindTexture_spec extent h.extents
      exact ⟨size, extents, rfl, slot⟩
    · cases ht
  | construct parts =>
    simp only at ht
    split at ht
    · cases ht
    · rename_i built
      split at ht
      · cases ht
      · rename_i hstray
        cases ht
        have mine := Graph.of_stray?_eq_none hstray
        exact ⟨same.1, same.2, _, h.refers fun n hn => own n hn (mine n hn), built⟩
  | apply op operands =>
    simp only at ht
    split at ht
    · cases ht
    · rename_i result
      split at ht
      · cases ht
      · rename_i hlane
        split at ht
        · cases ht
        · rename_i hstray
          cases ht
          have mine := Graph.of_stray?_eq_none hstray
          exact ⟨same.1, same.2, _, h.refers fun n hn => own n hn (mine n hn), result,
            Graph.laneFits_of_badLane? hlane⟩

/-- A call that is recorded adds its instruction. -/
theorem Graph.record_eq_ok {g g' : Graph} {c : Call} {n : Node} (h : g.record c = .ok (g', n)) :
    ∃ kind term, g.term? c = .ok (kind, term) ∧
      ({ g with textures := g.texturesAfter c }.push kind term) = (g', n) := by
  unfold Graph.record at h
  split at h
  · cases h
  · rename_i kind term ht
    exact ⟨kind, term, ht, Except.ok.inj h⟩

namespace Recorded

variable {id : Nat} {target : Extent} {g : Graph} {nodes : List Node}

/-- A graph keeps its number and its target. -/
theorem owner (h : Recorded id target g nodes) : g.id = id ∧ g.target = target := by
  induction h with
  | empty => exact ⟨rfl, rfl⟩
  | record h c own hr ih =>
    obtain ⟨kind, term, _, e⟩ := Graph.record_eq_ok hr
    obtain ⟨rfl, rfl⟩ := Prod.mk.inj e
    exact ih

/-- **Every recorded graph is sound.** -/
theorem sound (h : Recorded id target g nodes) : g.Sound nodes := by
  induction h with
  | empty =>
    refine ⟨rfl, ?_, ?_, ?_⟩ <;> simp [Graph.empty]
  | record h c own hr ih =>
    obtain ⟨kind, term, ht, e⟩ := Graph.record_eq_ok hr
    obtain ⟨rfl, rfl⟩ := Prod.mk.inj e
    rw [← h.owner.1] at own
    obtain ⟨size, extents, fits⟩ := Graph.term?_fits ih own ht
    exact ih.push size extents fits

end Recorded

/-! ## 4. Several graphs -/

/-- A bench on which calls have been recorded, and the nodes that they have answered. A call uses no
    others. -/
inductive Bench.Recorded (targets : List Extent) : Bench → List Node → Prop where
  | start : Bench.Recorded targets (.ofTargets targets) []
  | record {b b' : Bench} {nodes : List Node} {n : Node} (h : Bench.Recorded targets b nodes)
      (graph : Nat) (c : Call) (own : ∀ m ∈ c.operands, m ∈ nodes)
      (hr : b.record graph c = .ok (b', n)) : Bench.Recorded targets b' (n :: nodes)

/-- A call on a bench is recorded in the graph that it belongs to. -/
theorem Bench.record_eq_ok {b b' : Bench} {graph : Nat} {c : Call} {n : Node}
    (h : b.record graph c = .ok (b', n)) :
    ∃ g g', b.graphs[c.home graph]? = some g ∧ g.record c = .ok (g', n) ∧
      b' = ⟨b.graphs.setIfInBounds (c.home graph) g'⟩ := by
  unfold Bench.record at h
  simp only at h
  split at h
  · cases h
  · rename_i g found
    split at h
    · cases h
    · rename_i g' node recorded
      obtain ⟨rfl, rfl⟩ := Prod.mk.inj (Except.ok.inj h)
      exact ⟨g, g', found, recorded, rfl⟩

/-- **Every graph of a bench is a recorded one**, with those of the nodes that are its own. -/
theorem Bench.Recorded.graph {targets : List Extent} {b : Bench} {nodes : List Node}
    (h : Bench.Recorded targets b nodes) {i : Nat} {g : Graph} (hg : b.graphs[i]? = some g) :
    ∃ target, targets[i]? = some target ∧
      Shading.Recorded i target g (nodes.filter fun n => n.graph = i) := by
  induction h generalizing i g with
  | start =>
    simp only [Bench.ofTargets, List.getElem?_toArray, List.getElem?_mapIdx,
      Option.map_eq_some_iff] at hg
    obtain ⟨target, ht, rfl⟩ := hg
    exact ⟨target, ht, .empty⟩
  | @record b b' nodes n h graph c own hr ih =>
    obtain ⟨g₀, g₁, found, recorded, rfl⟩ := Bench.record_eq_ok hr
    obtain ⟨target₀, ht₀, before⟩ := ih found
    have mine : ∀ m ∈ c.operands, m.graph = c.home graph →
        m ∈ nodes.filter fun n => n.graph = c.home graph :=
      fun m hm hmine => List.mem_filter.mpr ⟨own m hm, decide_eq_true hmine⟩
    have after := Shading.Recorded.record before c mine recorded
    have answered : n.graph = c.home graph :=
      (after.sound.nodes n List.mem_cons_self).1.trans after.owner.1
    by_cases hi : c.home graph = i
    · subst hi
      have here : c.home graph < b.graphs.size := (Array.getElem?_eq_some_iff.mp found).1
      rw [Array.getElem?_setIfInBounds_self_of_lt here] at hg
      obtain rfl := Option.some.inj hg
      rw [List.filter_cons, if_pos (decide_eq_true answered)]
      exact ⟨target₀, ht₀, after⟩
    · rw [Array.getElem?_setIfInBounds_ne hi] at hg
      have other : ¬ decide (n.graph = i) = true := by
        rw [decide_eq_true_iff, answered]
        exact hi
      rw [List.filter_cons, if_neg other]
      exact ih hg

/-! ## 5. A graph with textures -/

/-- A texture that is sampled for the first time is bound behind the others. -/
theorem Graph.record_texture {g : Graph} {t : Texture} (ht : t.image.toExtent = g.target)
    (hn : t ∉ g.textures.toList) :
    g.record (.texture t)
      = .ok ({ g with textures := g.textures.push t }.push .vec4 (.texel g.textures.size)) := by
  have bound : g.bindTexture t = ({ g with textures := g.textures.push t }, g.textures.size) := by
    rw [Graph.bindTexture,
      Array.finIdxOf?_eq_none_iff.mpr fun mem => hn (Array.mem_toList_iff.mpr mem)]
  simp only [Graph.record, Graph.term?, if_pos ht, Graph.texturesAfter, bound]

/-- A texture of one pixel. -/
def sand : Texture :=
  ⟨0, ⟨⟨1, 1⟩, #[⟨10, 20, 30, 255⟩], rfl⟩⟩

/-- Another. -/
def moss : Texture :=
  ⟨1, ⟨⟨1, 1⟩, #[⟨51, 20, 30, 255⟩], rfl⟩⟩

/-- The red of the second texture, and a half. The first texture and the place of the fragment are
    recorded on the way, and not needed. -/
def mossInstructions : List Instruction :=
  [⟨0, .vec4, .texel 0⟩, ⟨1, .vec4, .texel 1⟩, ⟨2, .f32, .apply (.lane 0) [1]⟩,
    ⟨3, .vec2, .position⟩, ⟨4, .f32, .float 0.5⟩, ⟨5, .f32, .apply (.binary .add) [2, 4]⟩]

/-- The graph after so many calls. -/
def mossGraph (calls : Nat) : Graph where
  id := 0
  target := ⟨1, 1⟩
  instructions := (mossInstructions.take calls).toArray
  textures := ([sand, moss].take calls).toArray

/-- The nodes that so many calls have answered, the last one first. -/
def mossNodes (calls : Nat) : List Node :=
  ((mossInstructions.take calls).map fun i => ⟨0, i.id, i.kind⟩).reverse

theorem recorded_mossGraph : Recorded 0 ⟨1, 1⟩ (mossGraph 6) (mossNodes 6) := by
  have start : Recorded 0 ⟨1, 1⟩ (mossGraph 0) (mossNodes 0) := .empty
  have first : Recorded 0 ⟨1, 1⟩ (mossGraph 1) (mossNodes 1) :=
    .record start (.texture sand) (by decide) (Graph.record_texture rfl (by decide))
  have second : Recorded 0 ⟨1, 1⟩ (mossGraph 2) (mossNodes 2) :=
    .record first (.texture moss) (by decide) (Graph.record_texture rfl (by decide))
  have red : Recorded 0 ⟨1, 1⟩ (mossGraph 3) (mossNodes 3) :=
    .record second (.apply (.lane 0) [⟨0, 1, .vec4⟩]) (by decide) rfl
  have place : Recorded 0 ⟨1, 1⟩ (mossGraph 4) (mossNodes 4) :=
    .record red .position (by decide) rfl
  have half : Recorded 0 ⟨1, 1⟩ (mossGraph 5) (mossNodes 5) :=
    .record place (.float 0.5) (by decide) rfl
  exact .record half (.apply (.binary .add) [⟨0, 2, .f32⟩, ⟨0, 4, .f32⟩]) (by decide) rfl

end Relief.Shading
