import Relief.Proofs.Shading.Pixels
import Relief.Shading.Build

/-!
# Writing expressions

What the node that is written has for a value, known from the values of the nodes before it.

* `Desk`: a recorded graph with its nodes, and `Desk.Has`, the value of a node at a place;
* `Writes`: writing something succeeds, keeps the values of all nodes, and ends well;
* `Desk.float`, `Desk.texture`, `Desk.apply`, `Desk.construct`, …: one such fact for each call.
  `Writes.bind` puts them together;
* `Build.image_pixels`: **the image of an expression shows the values that it has been written to
  have**.
-/

namespace Relief.Shading

/-! ## 1. Evaluation of more instructions -/

theorem values?_append (site : Site) (L M : List Instruction) (env : Nat → Option Value) :
    values? site (L ++ M) env = (values? site L env).bind (values? site M) := by
  induction L generalizing env with
  | nil => rfl
  | cons i rest ih =>
    rw [List.cons_append, values?, values?, Option.bind_assoc]
    simp only [ih]

/-- Instructions see no textures behind those over which they fit. -/
theorem values?_congr {site site' : Site} (hx : site'.x = site.x) (hy : site'.y = site.y)
    (ht : site'.target = site.target) {textures : Nat} {L M : List Instruction}
    (fits : ∀ i ∈ L, i.Fits M textures)
    (texels : ∀ slot < textures, site'.texels[slot]? = site.texels[slot]?)
    (env : Nat → Option Value) : values? site' L env = values? site L env := by
  induction L generalizing env with
  | nil => rfl
  | cons i rest ih =>
    have value : i.valueOver site' env = i.valueOver site env := by
      have first := fits i List.mem_cons_self
      obtain ⟨id, kind, term⟩ := i
      cases term with
      | texel slot => exact congrArg (Option.map texelValue) (texels slot first.2)
      | position => simp only [Instruction.valueOver, hx, hy]
      | resolution => simp only [Instruction.valueOver, ht]
      | _ => rfl
    rw [values?, values?, value]
    simp only [ih fun j hj => fits j (List.mem_cons_of_mem _ hj)]

/-! ## 2. Desks -/

/-- A recorded graph with its nodes, as it lies before the one who writes. -/
structure Desk (target : Extent) where
  graph : Graph
  nodes : List Node
  recorded : Recorded 0 target graph nodes

namespace Desk

variable {target : Extent}

/-- A desk on which nothing has been written. -/
def blank (target : Extent) : Desk target :=
  ⟨.empty 0 target, [], .empty⟩

/-- A node of the desk has a value at a place. -/
structure Has (d : Desk target) (x y : UInt32) (n : Node) (v : Value) : Prop where
  mem : n ∈ d.nodes
  value : d.graph.valueAt n x y = some v

/-- What has a value on one desk has it on another. -/
def Extends (d d' : Desk target) (x y : UInt32) : Prop :=
  ∀ ⦃n v⦄, d.Has x y n v → d'.Has x y n v

/-- All instructions have values, each of its kind. -/
theorem exists_env (d : Desk target) (x y : UInt32) :
    ∃ env, values? (d.graph.siteAt x y) d.graph.instructions.toList (fun _ => none) = some env ∧
      ∀ i ∈ d.graph.instructions.toList, Yields (env i.id) i.kind := by
  refine d.recorded.sound.wellTyped.exists_env (Nat.le_of_eq ?_)
  rw [Graph.siteAt, siteAt, List.length_map, List.length_map, Array.length_toList]

/-- **Nodes have values of their kinds.** -/
theorem Has.kind {d : Desk target} {x y : UInt32} {n : Node} {v : Value} (h : d.Has x y n v) :
    n.kind = v.kind := by
  obtain ⟨env, all, typed⟩ := d.exists_env x y
  obtain ⟨_, i, hi, hid, hk⟩ := d.recorded.sound.nodes n h.mem
  obtain ⟨v', hv, kind⟩ := typed i hi
  have value := h.value
  rw [Graph.valueAt, all, Option.bind_some, ← hid, hv, Option.some.injEq] at value
  rw [← hk, ← kind, value]

/-- Nodes are numbered below the instructions to come. -/
theorem id_lt (d : Desk target) {n : Node} (hn : n ∈ d.nodes) :
    n.id < d.graph.instructions.size := by
  obtain ⟨_, i, hi, hid, _⟩ := d.recorded.sound.nodes n hn
  exact hid ▸ d.recorded.sound.id_lt hi

end Desk

/-! ## 3. Calls -/

/-- Textures keep their places. -/
theorem Graph.textures_prefix (g : Graph) (c : Call) :
    g.textures.toList <+: (g.texturesAfter c).toList := by
  cases c with
  | texture t =>
    rw [Graph.texturesAfter, Graph.bindTexture]
    split
    · exact List.prefix_rfl
    · rw [Array.toList_push]
      exact List.prefix_append _ _
  | _ => exact List.prefix_rfl

/-- A texture that is sampled is found at its place. -/
theorem Graph.getElem?_bindTexture (g : Graph) (t : Texture) :
    (g.texturesAfter (.texture t)).toList[(g.bindTexture t).2]? = some t := by
  rw [Graph.texturesAfter, Graph.bindTexture]
  split
  · rename_i slot found
    obtain ⟨here, _⟩ := Array.finIdxOf?_eq_some_iff.mp found
    rw [Array.getElem?_toList, Array.getElem?_eq_getElem slot.isLt]
    exact congrArg some here
  · rw [Array.toList_push, ← Array.length_toList, List.getElem?_concat_length]

/-- What a fragment samples of an image. -/
def sample (image : Image) (x y : UInt32) : Pixel :=
  (image.pixel? x y).getD ⟨0, 0, 0, 0⟩

theorem sample_of_pixel? {image : Image} {x y : UInt32} {p : Pixel}
    (h : image.pixel? x y = some p) : sample image x y = p := by
  rw [sample, h, Option.getD_some]

/-- Only what is inside an image has a pixel. -/
theorem inside_of_pixel? {image : Image} {x y : UInt32} {p : Pixel}
    (h : image.pixel? x y = some p) : x < image.width ∧ y < image.height := by
  by_contra outside
  rw [Image.pixel?, if_neg outside] at h
  cases h

/-- The texels of a fragment. -/
theorem Graph.texels_siteAt (g : Graph) (x y : UInt32) :
    (g.siteAt x y).texels = g.textures.toList.map fun t => sample t.image x y := by
  show (g.textures.toList.map Texture.image).map _ = _
  rw [List.map_map]
  rfl

namespace Desk

variable {target : Extent} (d : Desk target) (x y : UInt32) {c : Call} {kind : Kind} {term : Term}

/-- The desk after a call that fits. -/
def put (own : ∀ m ∈ c.operands, m ∈ d.nodes) (ht : d.graph.term? c = .ok (kind, term)) :
    Desk target where
  graph := {
    id := d.graph.id
    target := d.graph.target
    instructions := d.graph.instructions.push ⟨d.graph.instructions.size, kind, term⟩
    textures := d.graph.texturesAfter c }
  nodes := ⟨d.graph.id, d.graph.instructions.size, kind⟩ :: d.nodes
  recorded := by
    refine .record d.recorded c (fun m hm _ => own m hm) ?_
    rw [Graph.record, ht]
    rfl

/-- After a call, the instructions before it evaluate as they did: the texels that there were are at
    their places. -/
theorem values?_put (own : ∀ m ∈ c.operands, m ∈ d.nodes)
    (ht : d.graph.term? c = .ok (kind, term)) (env : Nat → Option Value) :
    values? ((d.put own ht).graph.siteAt x y) d.graph.instructions.toList env
      = values? (d.graph.siteAt x y) d.graph.instructions.toList env := by
  refine values?_congr (by rfl) (by rfl) (by rfl) d.recorded.sound.fits (fun slot lt => ?_) env
  have more : d.graph.textures.toList <+: (d.put own ht).graph.textures.toList :=
    d.graph.textures_prefix c
  rw [← Array.length_toList] at lt
  rw [Graph.texels_siteAt, Graph.texels_siteAt, List.getElem?_map, List.getElem?_map,
    List.prefix_iff_getElem?.mp more slot lt, List.getElem?_eq_getElem lt]

/-- **What a call that fits does to a desk**: all nodes keep their values, and the new node has the
    value of its instruction over theirs. -/
theorem record (own : ∀ m ∈ c.operands, m ∈ d.nodes)
    (ht : d.graph.term? c = .ok (kind, term)) :
    ∃ (n : Node) (d' : Desk target) (env : Nat → Option Value) (v : Value),
      Build.call c d.graph = .ok (n, d'.graph) ∧ d.Extends d' x y ∧
      d'.graph.textures = d.graph.texturesAfter c ∧
      values? (d.graph.siteAt x y) d.graph.instructions.toList (fun _ => none) = some env ∧
      Instruction.valueOver ⟨d.graph.instructions.size, kind, term⟩ (d'.graph.siteAt x y) env
        = some v ∧
      d'.Has x y n v := by
  obtain ⟨env, all, typed⟩ := d.exists_env x y
  have sound := d.recorded.sound
  obtain ⟨_, _, fits⟩ := Graph.term?_fits sound (fun m hm _ => own m hm) ht
  have enough : (d.graph.texturesAfter c).size
      ≤ ((d.put own ht).graph.siteAt x y).texels.length := by
    rw [Graph.texels_siteAt, List.length_map, Array.length_toList]
    exact Nat.le_refl _
  obtain ⟨v, value, _⟩ := fits.valueOver_yields (fun e he _ => typed e he) enough
  have now : values? ((d.put own ht).graph.siteAt x y) (d.put own ht).graph.instructions.toList
      (fun _ => none) = some (Function.update env d.graph.instructions.size (some v)) := by
    have pushed : (d.put own ht).graph.instructions.toList
        = d.graph.instructions.toList ++ [⟨d.graph.instructions.size, kind, term⟩] :=
      Array.toList_push
    rw [pushed, values?_append, d.values?_put x y own ht, all, Option.bind_some, values?, value]
    rfl
  refine ⟨⟨d.graph.id, d.graph.instructions.size, kind⟩, d.put own ht, env, v, ?_,
    fun m w hm => ?_, rfl, all, value, List.mem_cons_self, ?_⟩
  · rw [Build.call, Graph.record, ht]
    rfl
  · refine ⟨List.mem_cons_of_mem _ hm.mem, ?_⟩
    rw [Graph.valueAt, now, Option.bind_some,
      Function.update_of_ne (Nat.ne_of_lt (d.id_lt hm.mem)), ← hm.value, Graph.valueAt, all,
      Option.bind_some]
  · rw [Graph.valueAt, now, Option.bind_some, Function.update_self]

end Desk

/-! ## 4. Writing -/

/-- Writing succeeds and keeps the values of all nodes, and in the end something holds. -/
def Writes {target : Extent} {α : Type} (b : Build α) (d : Desk target) (x y : UInt32)
    (Q : α → Desk target → Prop) : Prop :=
  ∃ a d', b d.graph = .ok (a, d'.graph) ∧ d.Extends d' x y ∧ Q a d'

namespace Writes

variable {target : Extent} {d : Desk target} {x y : UInt32} {α β : Type} {b : Build α}
variable {P : α → Desk target → Prop} {f : α → Build β} {Q : β → Desk target → Prop}

theorem pure {a : α} (h : P a d) : Writes (Pure.pure a) d x y P :=
  ⟨a, d, rfl, fun _ _ hn => hn, h⟩

/-- **What is written first can be relied on afterwards.** -/
theorem bind (h : Writes b d x y P)
    (hf : ∀ a d', d.Extends d' x y → P a d' → Writes (f a) d' x y Q) :
    Writes (b >>= f) d x y Q := by
  obtain ⟨a, d', first, kept, ha⟩ := h
  obtain ⟨a', d'', rest, kept', ha'⟩ := hf a d' kept ha
  refine ⟨a', d'', ?_, fun _ _ hn => kept' (kept hn), ha'⟩
  show ((b d.graph).bind fun r => f r.1 r.2) = Except.ok (a', d''.graph)
  rw [first]
  exact rest

theorem imp (h : Writes b d x y P) {P' : α → Desk target → Prop} (hP : ∀ a d', P a d' → P' a d') :
    Writes b d x y P' := by
  obtain ⟨a, d', written, kept, ha⟩ := h
  exact ⟨a, d', written, kept, hP a d' ha⟩

end Writes

namespace Desk

variable {target : Extent} {x y : UInt32} (d : Desk target)

/-- **A call that fits writes a node**, whose value is the one that its instruction has over any values
    of the nodes so far. -/
theorem call {c : Call} {kind : Kind} {term : Term} {v : Value}
    (own : ∀ m ∈ c.operands, m ∈ d.nodes) (ht : d.graph.term? c = .ok (kind, term))
    (hv : ∀ (d' : Desk target) (env : Nat → Option Value),
      d'.graph.textures = d.graph.texturesAfter c →
      values? (d.graph.siteAt x y) d.graph.instructions.toList (fun _ => none) = some env →
        Instruction.valueOver ⟨d.graph.instructions.size, kind, term⟩ (d'.graph.siteAt x y) env
          = some v) :
    Writes (Build.call c) d x y fun n d' => d'.Has x y n v := by
  obtain ⟨n, d', env, w, written, kept, textures, he, value, has⟩ := d.record x y own ht
  obtain rfl : w = v := Option.some.inj (value.symm.trans (hv d' env textures he))
  exact ⟨n, d', written, kept, has⟩

/-- A finite number. -/
theorem float {r : Float32} (hr : r.isFinite = true) :
    Writes (Build.float r) d x y fun n d' => d'.Has x y n (.float r) := by
  have ht : d.graph.term? (.float r) = .ok (.f32, .float r) := by
    rw [Graph.term?, if_pos hr]
  exact d.call (by simp [Call.operands]) ht fun _ _ _ _ => rfl

/-- The place of the fragment: the middle of its pixel. -/
theorem position :
    Writes (Build.call .position) d x y fun n d' =>
      d'.Has x y n (.vec2 (x.toFloat32 + 0.5) (y.toFloat32 + 0.5)) :=
  d.call (by simp [Call.operands]) rfl fun _ _ _ _ => rfl

/-- Width and height of the target. -/
theorem resolution :
    Writes (Build.call .resolution) d x y fun n d' =>
      d'.Has x y n (.vec2 target.width.toFloat32 target.height.toFloat32) := by
  refine d.call (by simp [Call.operands]) rfl fun d' _ _ _ => ?_
  rw [Graph.siteAt, siteAt, d'.recorded.owner.2]
  rfl

/-- A texture of the extent of the target. -/
theorem texture {t : Texture} (ht : t.image.toExtent = target) :
    Writes (Build.call (.texture t)) d x y fun n d' =>
      d'.Has x y n (texelValue (sample t.image x y)) := by
  have fits : t.image.toExtent = d.graph.target := ht.trans d.recorded.owner.2.symm
  have called : d.graph.term? (.texture t) = .ok (.vec4, .texel (d.graph.bindTexture t).2) := by
    rw [Graph.term?, if_pos fits]
  refine d.call (by simp [Call.operands]) called fun d' _ textures _ => ?_
  show (d'.graph.siteAt x y).texels[(d.graph.bindTexture t).2]?.map texelValue = _
  rw [Graph.texels_siteAt, textures, List.getElem?_map, d.graph.getElem?_bindTexture]
  rfl

variable {d}

/-- No node of the desk belongs to another graph. -/
theorem stray?_eq_none {operands : List Node} (own : ∀ m ∈ operands, m ∈ d.nodes) :
    d.graph.stray? operands = none := by
  refine List.find?_eq_none.mpr fun n hn => ?_
  simp [(d.recorded.sound.nodes n (own n hn)).1]

/-- Nodes that have values are nodes of the desk, and the values are of their kinds. -/
theorem own_of_has {operands : List Node} {values : List Value}
    (h : List.Forall₂ (d.Has x y) operands values) :
    (∀ m ∈ operands, m ∈ d.nodes) ∧ operands.map Node.kind = values.map Value.kind ∧
      ∀ env, values? (d.graph.siteAt x y) d.graph.instructions.toList (fun _ => none) = some env →
        (operands.map Node.id).mapM env = some values := by
  induction h with
  | nil => exact ⟨nofun, rfl, fun _ _ => rfl⟩
  | @cons n v operands values has _ ih =>
    obtain ⟨own, kinds, all⟩ := ih
    refine ⟨fun m hm => ?_, ?_, fun env he => ?_⟩
    · rcases List.mem_cons.mp hm with rfl | hm
      · exact has.mem
      · exact own m hm
    · rw [List.map_cons, List.map_cons, has.kind, kinds]
    · have here : env n.id = some v := by
        rw [← has.value, Graph.valueAt, he, Option.bind_some]
      rw [List.map_cons, List.mapM_cons, here, all env he]
      rfl

/-- **An operator over nodes that have values.** -/
theorem apply {op : Operator} {operands : List Node} {values : List Value} {kind : Kind} {v : Value}
    (h : List.Forall₂ (d.Has x y) operands values)
    (hk : op.result? (values.map Value.kind) = some kind)
    (hl : Graph.badLane? op operands = none) (hv : op.evaluate? values = some v) :
    Writes (Build.call (.apply op operands)) d x y fun n d' => d'.Has x y n v := by
  obtain ⟨own, kinds, all⟩ := own_of_has h
  have called : d.graph.term? (.apply op operands)
      = .ok (kind, .apply op (operands.map Node.id)) := by
    simp only [Graph.term?, kinds, hk, hl, stray?_eq_none own]
  refine d.call own called fun d' env _ he => ?_
  show ((operands.map Node.id).mapM env).bind op.evaluate? = some v
  rw [all env he, Option.bind_some, hv]

/-- A sign between two nodes. -/
theorem binary {op : BinaryOp} {a b : Node} {v w u : Value} {kind : Kind} (ha : d.Has x y a v)
    (hb : d.Has x y b w) (hk : op.result? v.kind w.kind = some kind)
    (hv : op.evaluate? v w = some u) :
    Writes (Build.binary op a b) d x y fun n d' => d'.Has x y n u :=
  apply (.cons ha (.cons hb .nil)) hk rfl hv

/-- A function of two nodes. -/
theorem builtin {f : Builtin} {a b : Node} {v w u : Value} {kind : Kind} (ha : d.Has x y a v)
    (hb : d.Has x y b w) (hk : f.result? [v.kind, w.kind] = some kind)
    (hv : f.evaluate? [v, w] = some u) :
    Writes (Build.builtin f [a, b]) d x y fun n d' => d'.Has x y n u :=
  apply (.cons ha (.cons hb .nil)) hk rfl hv

/-- A lane of a vector. -/
theorem lane {a : Node} {v : Value} {index : Nat} {lanes : List Float32} {r : Float32}
    (ha : d.Has x y a v) (hk : v.kind.isVector = true) (hv : v.lanes? = some lanes)
    (hr : lanes[index]? = some r) :
    Writes (Build.lane a index) d x y fun n d' => d'.Has x y n (.float r) := by
  obtain ⟨_, hv', length⟩ := Value.exists_lanes (Value.isFloating_of_isVector hk)
  obtain rfl := Option.some.inj (hv.symm.trans hv')
  have hl : index < v.kind.components := length ▸ (List.getElem?_eq_some_iff.mp hr).1
  refine apply (.cons ha .nil) (show Operator.result? _ _ = some Kind.f32 from ?_) ?_ ?_
  · rw [List.map_cons, List.map_nil, Operator.result?, if_pos hk]
  · rw [Graph.badLane?, ha.kind, if_pos hl]
  · rw [Operator.evaluate?, hv, Option.bind_some, hr, Option.map_some]

/-- Parts that have values. -/
theorem construct {parts : List Node} {values : List Value} {kind : Kind} {v : Value}
    (h : List.Forall₂ (d.Has x y) parts values)
    (hk : constructed? (values.map Value.kind) = some kind) (hv : construct? kind values = some v) :
    Writes (Build.call (.construct parts)) d x y fun n d' => d'.Has x y n v := by
  obtain ⟨own, kinds, all⟩ := own_of_has h
  have called : d.graph.term? (.construct parts) = .ok (kind, .construct (parts.map Node.id)) := by
    simp only [Graph.term?, kinds, hk, stray?_eq_none own]
  refine d.call own called fun d' env _ he => ?_
  show ((parts.map Node.id).mapM env).bind (construct? kind) = some v
  rw [all env he, Option.bind_some, hv]

end Desk

/-! ## 5. Images -/

/-- **The image of an expression shows the values that have been written**, on a target that memory
    can hold. -/
theorem Build.image_pixels {b : Build Node} {target : Extent} (hh : target.isHoldable = true)
    {val : UInt32 → UInt32 → Value} (drawable : ∀ x y, (val x y).kind.isDrawable = true)
    (h : ∀ x y, Writes b (.blank target) x y fun n d => d.Has x y n (val x y)) :
    ∃ image, b.image target = .ok image ∧ image.toExtent = target ∧
      ∀ x y, x < target.width → y < target.height → image.pixel? x y = (val x y).pixel? := by
  obtain ⟨out, d, written, _, has⟩ := h 0 0
  have sound := d.recorded.sound
  have extent := d.recorded.owner.2
  obtain ⟨image, drawn, size, pixels⟩ := sound.render_pixels has.mem
    (by rw [has.kind]; exact drawable 0 0) (by rw [extent]; exact hh)
  rw [extent] at size pixels
  refine ⟨image, ?_, size, fun x y hx hy => ?_⟩
  · have start : b (.empty 0 target) = .ok (out, d.graph) := written
    rw [Build.image, start]
    exact drawn
  · obtain ⟨out', d', written', _, has'⟩ := h x y
    rw [written] at written'
    obtain ⟨rfl, same⟩ := Prod.mk.inj (Except.ok.inj written')
    rw [pixels x y hx hy, same, has'.value, Option.bind_some]

end Relief.Shading
