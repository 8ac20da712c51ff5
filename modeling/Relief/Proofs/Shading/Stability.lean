import Relief.Proofs.Shading.Accesses
import Relief.Proofs.Shading.Drawing
import Relief.Proofs.Shading.Writing

/-!
# Programs stay

A graph only grows: whatever is recorded later comes behind what there is, and reads it at most. So
the program of a node is the same at any later time.

* `Graph.Grows`: a graph and the same graph later;
* `Program.lower_append`: **instructions behind an output do not matter for its program**;
* `Graph.Grows.compile`, `Graph.Grows.render`: **a node has the same program and the same image in a
  graph that has grown**;
* `Deed`, `Bench.after`: what is done with a bench, and the bench after that;
* `programs_stay`: **whatever is done with a bench, the programs of its nodes stay**.
-/

namespace Relief.Shading

/-! ## 1. Instructions that come later -/

/-- Later instructions are passed first. -/
theorem markLive_append (L M : List Instruction) (marks : Array Bool) :
    markLive (L ++ M) marks = markLive L (markLive M marks) :=
  List.foldr_append

/-- Instructions that are not marked hand no marks on. -/
theorem markLive_of_unmarked {M : List Instruction} {marks : Array Bool}
    (h : ∀ i ∈ M, isMarked marks i.id = false) : markLive M marks = marks := by
  induction M with
  | nil => rfl
  | cons i rest ih =>
    have after := ih fun j hj => h j (List.mem_cons_of_mem _ hj)
    rw [markLive_cons, after, h i List.mem_cons_self]
    rfl

/-- Marks depend on the marks before, and not on how many instructions there are, as long as what is
    read is among them. -/
theorem isMarked_markLive_congr {L : List Instruction} {marks marks' : Array Bool}
    (same : ∀ id, isMarked marks id = isMarked marks' id)
    (reads : ∀ i ∈ L, ∀ id ∈ i.term.operands, id < marks.size ∧ id < marks'.size) (id : Nat) :
    isMarked (markLive L marks) id = isMarked (markLive L marks') id := by
  induction L generalizing id with
  | nil => exact same id
  | cons i rest ih =>
    have before := ih fun j hj => reads j (List.mem_cons_of_mem _ hj)
    rw [markLive_cons, markLive_cons, before i.id]
    split
    · rw [Bool.eq_iff_iff, isMarked_markAll, isMarked_markAll, before id, size_markLive,
        size_markLive]
      refine or_congr_right (and_congr_right fun hid => ?_)
      obtain ⟨lt, lt'⟩ := reads i List.mem_cons_self id hid
      exact iff_of_true lt lt'
    · exact before id

/-- One instruction is marked to begin with. -/
theorem isMarked_start {count output : Nat} (h : output < count) (id : Nat) :
    isMarked (markAll (Array.replicate count false) [output]) id = true ↔ id = output := by
  rw [isMarked_markAll, Array.size_replicate, List.mem_singleton]
  have blank : isMarked (Array.replicate count false) id = false := by
    rw [isMarked, Array.getElem?_replicate]
    split <;> rfl
  rw [blank]
  constructor
  · rintro (marked | ⟨rfl, _⟩)
    · cases marked
    · rfl
  · rintro rfl
    exact .inr ⟨rfl, h⟩

/-- Instructions behind an output are not needed for it. -/
theorem isMarked_live_append {L M : List Instruction} {output : Nat} (h : output < L.length)
    (reads : ∀ i ∈ L, ∀ id ∈ i.term.operands, id < L.length)
    (later : ∀ i ∈ M, L.length ≤ i.id) (id : Nat) :
    isMarked (live (L ++ M) output) id = isMarked (live L output) id := by
  have longer : output < (L ++ M).length := by
    rw [List.length_append]
    omega
  have unmarked : ∀ i ∈ M,
      isMarked (markAll (Array.replicate (L ++ M).length false) [output]) i.id = false := by
    intro i hi
    rw [← Bool.not_eq_true, isMarked_start longer]
    have := later i hi
    omega
  rw [live_eq, live_eq, markLive_append, markLive_of_unmarked unmarked]
  refine isMarked_markLive_congr (fun id => ?_) (fun i hi id hid => ?_) id
  · rw [Bool.eq_iff_iff, isMarked_start longer, isMarked_start h]
  · rw [size_markAll, size_markAll, Array.size_replicate, Array.size_replicate, List.length_append]
    have := reads i hi id hid
    omega

/-- There are no more marks than instructions. -/
theorem lt_of_isMarked_live {L : List Instruction} {output id : Nat}
    (h : isMarked (live L output) id = true) : id < L.length := by
  have size : (live L output).size = L.length := by
    rw [live_eq, size_markLive, size_markAll, Array.size_replicate]
  by_contra out
  rw [isMarked, Array.getElem?_eq_none (by omega)] at h
  cases h

/-- **Instructions behind an output do not matter for its program.** -/
theorem Program.lower_append {L M : List Instruction} {output : Nat} (h : output < L.length)
    (reads : ∀ i ∈ L, ∀ id ∈ i.term.operands, id < L.length)
    (later : ∀ i ∈ M, L.length ≤ i.id) (target : Extent) :
    Program.lower (L ++ M) output target = Program.lower L output target := by
  have same : (L ++ M).filter (fun i => isMarked (live (L ++ M) output) i.id)
      = L.filter fun i => isMarked (live L output) i.id := by
    simp only [isMarked_live_append h reads later, List.filter_append]
    have unmarked : M.filter (fun i => isMarked (live L output) i.id) = [] := by
      rw [List.filter_eq_nil_iff]
      intro i hi marked
      exact absurd (lt_of_isMarked_live marked) (Nat.not_lt_of_le (later i hi))
    rw [unmarked, List.append_nil]
  rw [lower, lower, same]

/-! ## 2. Graphs that grow -/

namespace Graph

/-- A program samples textures that there are. -/
theorem Sound.inputs_lt_of_compile {g : Graph} {nodes : List Node} (h : g.Sound nodes) {out : Node}
    {p : Program} (hp : g.compile out = .ok p) : ∀ slot ∈ p.inputs, slot < g.textures.size := by
  rw [Graph.compile] at hp
  split at hp
  · split at hp
    · cases hp
      exact lower_inputs_lt h.wellTyped g.target out.id
    · cases hp
  · cases hp

/-- **A graph and the same graph later**: instructions are added behind the others, with higher
    numbers, and textures behind the others. -/
structure Grows (g g' : Graph) : Prop where
  id : g'.id = g.id
  target : g'.target = g.target
  instructions : ∃ later, g'.instructions.toList = g.instructions.toList ++ later ∧
    ∀ i ∈ later, g.instructions.size ≤ i.id
  textures : g.textures.toList <+: g'.textures.toList

namespace Grows

variable {g g' g'' : Graph}

theorem refl (g : Graph) : g.Grows g :=
  ⟨rfl, rfl, ⟨[], (List.append_nil _).symm, nofun⟩, List.prefix_rfl⟩

theorem trans (h : g.Grows g') (h' : g'.Grows g'') : g.Grows g'' := by
  obtain ⟨later, instructions, above⟩ := h.instructions
  obtain ⟨later', instructions', above'⟩ := h'.instructions
  have fewer : g.instructions.size ≤ g'.instructions.size := by
    rw [← Array.length_toList, ← Array.length_toList, instructions, List.length_append]
    omega
  refine ⟨h'.id.trans h.id, h'.target.trans h.target, ⟨later ++ later', ?_, fun i hi => ?_⟩,
    h.textures.trans h'.textures⟩
  · rw [instructions', instructions, List.append_assoc]
  · rcases List.mem_append.mp hi with hi | hi
    · exact above i hi
    · exact Nat.le_trans fewer (above' i hi)

/-- **A graph grows by every call that it records.** -/
theorem of_record {c : Call} {n : Node} (h : g.record c = .ok (g', n)) : g.Grows g' := by
  obtain ⟨kind, term, _, pushed⟩ := record_eq_ok h
  obtain ⟨rfl, rfl⟩ := Prod.mk.inj pushed
  refine ⟨rfl, rfl, ⟨[⟨g.instructions.size, kind, term⟩], Array.toList_push, ?_⟩,
    g.textures_prefix c⟩
  intro i hi
  obtain rfl := List.mem_singleton.mp hi
  exact Nat.le_refl _

variable {nodes : List Node} {out : Node}

/-- **A node of a graph has the same program in a graph that has grown.** -/
theorem compile (h : g.Grows g') (sound : g.Sound nodes) (hn : out ∈ nodes) :
    g'.compile out = g.compile out := by
  obtain ⟨later, instructions, above⟩ := h.instructions
  obtain ⟨_, o, ho, hid, _⟩ := sound.nodes out hn
  have here : out.id < g.instructions.toList.length := hid ▸ sound.id_lt_length ho
  have reads : ∀ i ∈ g.instructions.toList, ∀ id ∈ i.term.operands,
      id < g.instructions.toList.length := fun i hi id read =>
    Nat.lt_trans ((sound.fits i hi).refers id read).1 (sound.id_lt_length hi)
  rw [Graph.compile, Graph.compile, h.id, h.target, instructions,
    Program.lower_append here reads above]

/-- The images that its program samples are the same. -/
theorem inputsOf (h : g.Grows g') {p : Program}
    (bound : ∀ slot ∈ p.inputs, slot < g.textures.size) : g'.inputsOf p = g.inputsOf p := by
  obtain ⟨later, textures⟩ := h.textures
  refine List.filterMap_congr fun slot hs => ?_
  rw [← Array.getElem?_toList, ← Array.getElem?_toList, ← textures,
    List.getElem?_append_left (bound slot hs)]

/-- **A node of a graph has the same image in a graph that has grown.** -/
theorem render (h : g.Grows g') (sound : g.Sound nodes) (hn : out ∈ nodes) :
    g'.render out = g.render out := by
  rw [Graph.render, Graph.render, h.compile sound hn]
  cases compiled : g.compile out with
  | error reason => rfl
  | ok p =>
    dsimp only
    rw [h.inputsOf (sound.inputs_lt_of_compile compiled)]

end Grows

end Graph

/-! ## 3. Benches -/

namespace Bench

/-- All graphs of a bench have grown, or are as they were. -/
def Grows (b b' : Bench) : Prop :=
  ∀ (place : Nat) (g : Graph), b.graphs[place]? = some g →
    ∃ g', b'.graphs[place]? = some g' ∧ g.Grows g'

variable {b b' b'' : Bench}

theorem Grows.refl (b : Bench) : b.Grows b :=
  fun _ g found => ⟨g, found, .refl g⟩

theorem Grows.trans (h : b.Grows b') (h' : b'.Grows b'') : b.Grows b'' := by
  intro place g found
  obtain ⟨g', found', grows⟩ := h place g found
  obtain ⟨g'', found'', grows'⟩ := h' place g' found'
  exact ⟨g'', found'', grows.trans grows'⟩

/-- A bench on which a call is recorded has grown, and its graphs keep their numbers. -/
theorem Grows.of_record (hb : b.Numbered) {graph : Nat} {c : Call} {n : Node}
    (h : b.record graph c = .ok (b', n)) : b.Grows b' ∧ b'.Numbered := by
  obtain ⟨g₀, g₁, here, there, added, others⟩ := record_spec h
  have grows := Graph.Grows.of_record added
  constructor
  · intro place g found
    by_cases same : place = c.home graph
    · subst same
      obtain rfl := Option.some.inj (here.symm.trans found)
      exact ⟨g₁, there, grows⟩
    · exact ⟨g, (others place same).trans found, .refl g⟩
  · intro place g found
    by_cases same : place = c.home graph
    · subst same
      obtain rfl := Option.some.inj (there.symm.trans found)
      exact grows.id.trans (hb _ g₀ here)
    · exact hb place g ((others place same).symm.trans found)

end Bench

/-! ## 4. What is done later -/

/-- Something that is done with a bench: a call that is made, with whatever nodes, or a node of
    whatever graph that is compiled or drawn. -/
inductive Deed where
  | call (graph : Nat) (c : Call)
  | compile (graph : Nat) (out : Node)
  | render (graph : Nat) (out : Node)

namespace Bench

/-- The bench after something has been done. Compiling and drawing read graphs only. -/
def after (b : Bench) : Deed → Bench
  | .call graph c =>
    match (c.carryOut graph).run b with
    | .ok _ b' => b'
    | .error _ b' => b'
  | .compile _ _ => b
  | .render _ _ => b

/-- **Nothing that is done takes anything back.** -/
theorem grows_after {b : Bench} (hb : b.Numbered) (d : Deed) :
    b.Grows (b.after d) ∧ (b.after d).Numbered := by
  cases d with
  | call graph c =>
    rw [after, Call.carryOut_eq hb]
    cases recorded : b.record graph c with
    | error reason => exact ⟨.refl b, hb⟩
    | ok made => exact Grows.of_record hb recorded
  | compile graph out => exact ⟨.refl b, hb⟩
  | render graph out => exact ⟨.refl b, hb⟩

/-- **Nor does all that is done one after the other.** -/
theorem grows_foldl_after {b : Bench} (hb : b.Numbered) (deeds : List Deed) :
    b.Grows (deeds.foldl after b) := by
  induction deeds generalizing b with
  | nil => exact .refl b
  | cons d rest ih =>
    obtain ⟨grows, numbered⟩ := grows_after hb d
    exact grows.trans (ih numbered)

end Bench

/-- **Whatever is done with a bench, the programs of its nodes stay.** On a bench on which any calls
    have been carried out, take a node that can be drawn. After any further calls, whether they fail
    or not, and after anything is compiled or drawn, the node has the same program as before: the
    same instructions, the same inputs, and so the same source and fingerprint. It is drawn with the
    same outcome, too. -/
theorem programs_stay {targets : List Extent} {b : Bench} {nodes : List Node}
    (h : b.Handled targets nodes) {out : Node} (hn : out ∈ nodes)
    (hd : out.kind.isDrawable = true) (deeds : List Deed) :
    ∃ g g' p, b.graphs[out.graph]? = some g ∧
      (deeds.foldl Bench.after b).graphs[out.graph]? = some g' ∧
      g.compile out = .ok p ∧ g'.compile out = .ok p ∧ g'.render out = g.render out := by
  have recorded := h.recorded
  obtain ⟨g, found⟩ := recorded.exists_graph (recorded.graph_lt out hn)
  obtain ⟨g', found', grows⟩ :=
    Bench.grows_foldl_after recorded.numbered deeds out.graph g found
  obtain ⟨_, _, alone⟩ := recorded.graph found
  have mine : out ∈ nodes.filter fun n => n.graph = out.graph :=
    List.mem_filter.mpr ⟨hn, decide_eq_true rfl⟩
  obtain ⟨compiled, _⟩ := alone.sound.compile mine hd
  refine ⟨g, g', _, found, found', compiled, ?_, grows.render alone.sound mine⟩
  rw [grows.compile alone.sound mine, compiled]

/-- Two textures are sampled, a call fails, and both graphs are drawn. -/
def evening : List Deed :=
  [.call 0 (.texture sand), .call 0 straddling, .render 1 ⟨1, 0, .f32⟩, .call 0 (.texture moss),
    .compile 0 ⟨0, 0, .f32⟩]

theorem pair_stays_until_evening :
    pair.Handled [⟨1, 1⟩, ⟨1, 1⟩] [⟨1, 0, .f32⟩, ⟨0, 0, .f32⟩] ∧
    ∃ g, (evening.foldl Bench.after pair).graphs[0]? = some g ∧
      g.compile ⟨0, 0, .f32⟩ = .ok ⟨⟨1, 1⟩, [⟨0, .f32, .float 0.5⟩], 0, []⟩ := by
  obtain ⟨g, g', p, before, after, compiled, same, _⟩ :=
    @programs_stay _ _ _ handled_pair ⟨0, 0, .f32⟩ (by decide) rfl evening
  cases before
  cases compiled
  exact ⟨handled_pair, g', after, same⟩

end Relief.Shading
