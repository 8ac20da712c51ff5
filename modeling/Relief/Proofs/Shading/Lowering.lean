import Relief.Proofs.Shading.Drawing

/-!
# What a program means

A program leaves out instructions and renumbers textures. Its meaning is that of all instructions of
its graph, evaluated one after the other in the order in which they were recorded.

* `Graph.whole`: the program that leaves nothing out;
* `Graph.Sound.reads`: what a program's registers hold is what the whole evaluation gives;
* `lowering_keeps_meaning`: **the value of the output is that of the whole evaluation**, and so is
  the image.
-/

namespace Relief.Shading

/-- The program of all instructions of a graph, over all of its textures. -/
def Graph.whole (g : Graph) (out : Node) : Program where
  target := g.target
  instructions := g.instructions.toList
  output := out.id
  inputs := List.range g.textures.size

/-! ## 1. Textures -/

/-- Where nothing is left out, places stay. -/
theorem getElem?_filterMap_of_isSome {α β : Type} {f : α → Option β} {l : List α}
    (h : ∀ a ∈ l, (f a).isSome = true) (k : Nat) : (l.filterMap f)[k]? = l[k]?.bind f := by
  induction l generalizing k with
  | nil => rfl
  | cons a rest ih =>
    obtain ⟨b, hb⟩ := Option.isSome_iff_exists.mp (h a List.mem_cons_self)
    rw [List.filterMap_cons_some hb]
    cases k with
    | zero => exact hb.symm
    | succ k => exact ih (fun a ha => h a (List.mem_cons_of_mem _ ha)) k

/-- What a program finds under the number of a texture is the texel of the slot that is bound to
    it. -/
theorem texels_inputsOf {g : Graph} {p : Program} (slots : ∀ s ∈ p.inputs, s < g.textures.size)
    (target : Extent) (x y : UInt32) {binding slot : Nat} (hb : p.inputs[binding]? = some slot) :
    (siteAt target (g.inputsOf p) x y).texels[binding]?
      = (siteAt target (g.textures.toList.map Texture.image) x y).texels[slot]? := by
  have bound : ∀ s ∈ p.inputs, (g.textures[s]?.map Texture.image).isSome = true := by
    intro s hs
    rw [Array.getElem?_eq_getElem (slots s hs)]
    rfl
  simp only [siteAt, Graph.inputsOf, List.getElem?_map, getElem?_filterMap_of_isSome bound, hb,
    Option.bind_some, Array.getElem?_toList]

/-! ## 2. One fragment -/

namespace Graph.Sound

variable {g : Graph} {nodes : List Node} (h : g.Sound nodes) {out : Node} (hn : out ∈ nodes)
variable (hd : out.kind.isDrawable = true)
include h hn hd

/-- The whole program is sound. -/
theorem whole : (g.whole out).Sound where
  wellTyped := by
    have typed := h.wellTyped
    rw [← List.length_range (n := g.textures.size)] at typed
    exact typed
  output := by
    obtain ⟨_, o, ho, hid, hk⟩ := h.nodes out hn
    exact ⟨o, ho, hid, by rw [hk]; exact hd⟩

/-- **What the registers hold at the end**: the program for a node and the whole program have the
    value of the node there that evaluating all instructions in their order gives it. -/
theorem reads {p : Program} (hp : p = .lower g.instructions.toList out.id g.target) (x y : UInt32)
    {registers all : Registers} (size : registers.size = p.instructions.length)
    (sizeAll : all.size = g.instructions.size) :
    ∃ env v after afterAll,
      values? (siteAt g.target (g.textures.toList.map Texture.image) x y) g.instructions.toList
        (fun _ => none) = some env ∧
      p.registersAfter p.slots (siteAt g.target (g.inputsOf p) x y) registers = .ok after ∧
      (g.whole out).registersAfter (g.whole out).slots
        (siteAt g.target (g.textures.toList.map Texture.image) x y) all = .ok afterAll ∧
      env out.id = some v ∧ read? p.slots after p.output = some v ∧
      read? (g.whole out).slots afterAll out.id = some v ∧ v.kind = out.kind := by
  have small : ∀ i ∈ g.instructions.toList, i.id < g.instructions.toList.length :=
    fun i hi => h.id_lt_length hi
  obtain ⟨_, o, ho, hid, hk⟩ := h.nodes out hn
  have textures : g.textures.size
      ≤ (siteAt g.target (g.textures.toList.map Texture.image) x y).texels.length := by
    refine Nat.le_of_eq ?_
    rw [siteAt, List.length_map, List.length_map, Array.length_toList]
  -- all instructions, without registers
  obtain ⟨env, hall, typed⟩ := h.wellTyped.exists_env textures
  obtain ⟨v, hv, kind⟩ := typed o ho
  -- the same with registers
  obtain ⟨afterAll, runAll, holdsAll⟩ := (g.whole out).registersAfter_spec
    (h.whole hn hd).wellTyped hall (by rw [sizeAll, ← Array.length_toList]; rfl)
  have readAll := holdsAll o ho
  -- the instructions of the program, under the numbers of its own textures
  have slots : ∀ s ∈ p.inputs, s < g.textures.size :=
    hp ▸ lower_inputs_lt h.wellTyped g.target out.id
  have ready : p.Sound := hp ▸ (h.compile hn hd).2
  subst hp
  obtain ⟨kept, hkept, agree⟩ := lower_values h.wellTyped small g.target out.id
    (siteAt g.target (g.textures.toList.map Texture.image) x y)
    (siteAt g.target (g.inputsOf (.lower g.instructions.toList out.id g.target)) x y)
    rfl rfl rfl (fun binding slot hb => texels_inputsOf slots g.target x y hb) hall
  obtain ⟨after, run, holds⟩ := Program.registersAfter_spec ready.wellTyped hkept size
  obtain ⟨e, he, same, _⟩ := ready.output
  have read := holds e he
  have output : (Program.lower g.instructions.toList out.id g.target).output = out.id := rfl
  have marked : isMarked (live g.instructions.toList out.id) out.id = true := by
    rw [← hid]
    exact isMarked_output small ho
  rw [same, output, ← agree out.id marked, ← hid, hv] at read
  rw [hid] at hv readAll read
  exact ⟨env, v, after, afterAll, hall, run, runAll, hv, read, readAll.trans hv, kind.trans hk⟩

/-! ## 3. Images -/

/-- Every pixel of a row is that of the whole program. -/
theorem row_eq {p : Program} (hp : p = .lower g.instructions.toList out.id g.target) (y : UInt32)
    (count : Nat) (x : UInt32) {registers all : Registers}
    (size : registers.size = p.instructions.length) (sizeAll : all.size = g.instructions.size) :
    p.row p.slots (g.inputsOf p) y count x registers
      = (g.whole out).row (g.whole out).slots (g.textures.toList.map Texture.image) y count x
          all := by
  induction count generalizing x registers all with
  | zero => rfl
  | succ count ih =>
    obtain ⟨_, v, after, afterAll, _, run, runAll, _, read, readAll, kind⟩ :=
      h.reads hn hd hp x y size sizeAll
    have target : p.target = g.target := by rw [hp]; rfl
    have targetAll : (g.whole out).target = g.target := rfl
    have outputAll : (g.whole out).output = out.id := rfl
    obtain ⟨pixel, drawn⟩ := Value.exists_pixel (v := v) (by rw [kind]; exact hd)
    have rest := ih (x + 1) ((registersFrom_size run).trans size)
      ((registersFrom_size runAll).trans sizeAll)
    simp only [Program.row, Program.shade, target, targetAll, outputAll, run, runAll, read, readAll,
      Option.bind_some, drawn, rest]

/-- **The image of a program is that of the whole program.** -/
theorem execute_eq {p : Program} (hp : p = .lower g.instructions.toList out.id g.target) :
    p.execute (g.inputsOf p) = (g.whole out).execute (g.textures.toList.map Texture.image) := by
  have target : p.target = g.target := by rw [hp]; rfl
  have targetAll : (g.whole out).target = g.target := rfl
  have fits : p.Accepts (g.inputsOf p) := by
    subst hp
    exact h.inputsOf out.id
  have fitsAll : (g.whole out).Accepts (g.textures.toList.map Texture.image) := by
    refine ⟨?_, fun image hi => ?_⟩
    · rw [List.length_map, Array.length_toList]
      exact List.length_range.symm
    · obtain ⟨t, ht, rfl⟩ := List.mem_map.mp hi
      exact h.extents t (Array.mem_toList_iff.mp ht)
  have rows : p.rows (g.inputsOf p)
      = (g.whole out).rows (g.textures.toList.map Texture.image) := by
    unfold Program.rows
    rw [target]
    refine congrArg (List.mapM · _) (funext fun y => ?_)
    refine h.row_eq hn hd hp y.toUInt32 _ 0 ?_ ?_
    · rw [List.size_toArray, List.length_map]
    · rw [List.size_toArray, List.length_map, ← Array.length_toList]
      rfl
  rw [Program.execute_of_fits fits.1 fits.2, Program.execute_of_fits fitsAll.1 fitsAll.2, rows,
    target, targetAll]

end Graph.Sound

/-- Other textures of the right extent do as well. -/
theorem Graph.Sound.retexture {g : Graph} {nodes : List Node} (h : g.Sound nodes)
    {textures : Array Texture} (size : textures.size = g.textures.size)
    (extents : ∀ t ∈ textures, t.image.toExtent = g.target) :
    Graph.Sound { g with textures } nodes where
  numbered := h.numbered
  fits i hi := (h.fits i hi).mono (fun _ he => he) (Nat.le_of_eq size.symm)
  extents := extents
  nodes := h.nodes

/-! ## 4. The meaning of a program -/

/-- **Leaving out what an output does not need, and renumbering its textures, keeps its meaning.**
    For a node of a recorded graph that can be drawn, whichever textures of the right extent are
    bound, and at every fragment: the register of the output comes to hold the value that evaluating
    all instructions in the order of their recording gives the node, and that is also what the
    program holds which leaves nothing out. So both draw the same image. -/
theorem lowering_keeps_meaning {id : Nat} {target : Extent} {g : Graph} {nodes : List Node}
    (h : Recorded id target g nodes) {out : Node} (hout : out ∈ nodes)
    (hd : out.kind.isDrawable = true) :
    ∃ p, g.compile out = .ok p ∧
      ∀ textures : Array Texture, textures.size = g.textures.size →
        (∀ t ∈ textures, t.image.toExtent = target) →
        let images := textures.toList.map Texture.image
        let bound := { g with textures }.inputsOf p
        (∀ (x y : UInt32) (registers all : Registers), registers.size = p.instructions.length →
          all.size = g.instructions.size →
          ∃ env v after afterAll,
            values? (siteAt target images x y) g.instructions.toList (fun _ => none) = some env ∧
            p.registersAfter p.slots (siteAt target bound x y) registers = .ok after ∧
            (g.whole out).registersAfter (g.whole out).slots (siteAt target images x y) all
              = .ok afterAll ∧
            env out.id = some v ∧ read? p.slots after p.output = some v ∧
            read? (g.whole out).slots afterAll out.id = some v ∧ v.kind = out.kind) ∧
        p.execute bound = (g.whole out).execute images := by
  obtain ⟨rfl, rfl⟩ := h.owner
  refine ⟨_, (h.sound.compile hout hd).1, fun textures size extents => ?_⟩
  have sound := h.sound.retexture size extents
  have whole : Graph.whole { g with textures } out = g.whole out := by
    unfold Graph.whole
    simp only [size]
  refine ⟨fun x y registers all size sizeAll => ?_, ?_⟩
  · have reads := sound.reads hout hd rfl x y size sizeAll
    rw [whole] at reads
    exact reads
  · have images := sound.execute_eq hout hd rfl
    rw [whole] at images
    exact images

/-- Of two textures and six instructions, a program keeps one and four. -/
theorem mossGraph_keeps_meaning :
    Recorded 0 ⟨1, 1⟩ (mossGraph 6) (mossNodes 6) ∧ (⟨0, 5, .f32⟩ : Node) ∈ mossNodes 6 ∧
    ∃ p, (mossGraph 6).compile ⟨0, 5, .f32⟩ = .ok p ∧ p.inputs = [1] ∧
      p.instructions.map Instruction.id = [1, 2, 4, 5] ∧
      p.execute [moss.image]
        = ((mossGraph 6).whole ⟨0, 5, .f32⟩).execute [sand.image, moss.image] := by
  have mem : (⟨0, 5, .f32⟩ : Node) ∈ mossNodes 6 := List.mem_cons_self
  obtain ⟨p, compiled, keeps⟩ := lowering_keeps_meaning recorded_mossGraph mem rfl
  obtain ⟨_, images⟩ := keeps #[sand, moss] rfl (by decide)
  obtain rfl := Except.ok.inj compiled
  exact ⟨recorded_mossGraph, mem, _, compiled, rfl, rfl, images⟩

end Relief.Shading
