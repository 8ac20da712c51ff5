import Relief.Proofs.Shading.Channels
import Relief.Proofs.Shading.Stability

/-!
# Textures drawn as they are

A texture is read in channels between zero and one, and what is drawn is stored in eight bits again.
A node that samples a texture and nothing else gives the texture back.

* `Value.pixel?_texelValue`: the pixel of a texel is the one that has been read;
* `Graph.Sound.valueAt_texture`: the value of a texture's node, among whatever other textures;
* `Graph.Sound.render_texture`: **the image of that node is the image of the texture**;
* `bound_textures_are_drawn_unchanged`: **so it is on every bench**, whatever has been recorded
  before and whatever is done later.
-/

namespace Relief.Shading

/-- **The pixel of a texel is the one that has been read.** -/
theorem Value.pixel?_texelValue (p : Pixel) : (texelValue p).pixel? = some p := by
  simp only [texelValue, Value.pixel?, pixelOf, quantize_unquantize]

namespace Graph

variable {g g' : Graph} {nodes : List Node} {t : Texture} {n : Node}

/-- A texture of the extent of the target can be bound. -/
theorem exists_record_texture (ht : t.image.toExtent = g.target) :
    ∃ g' n, g.record (.texture t) = .ok (g', n) := by
  simp only [record, term?, if_pos ht]
  exact ⟨_, _, rfl⟩

/-- What a texture that is bound adds to a graph: an instruction that reads the place at which the
    texture is found, be it a new one or not. -/
theorem record_texture_eq_ok (made : g.record (.texture t) = .ok (g', n)) :
    ∃ slot, g'.instructions.toList = g.instructions.toList ++ [⟨n.id, .vec4, .texel slot⟩] ∧
      g'.textures.toList[slot]? = some t ∧ n.kind = .vec4 ∧ g'.target = g.target ∧
      t.image.toExtent = g.target := by
  obtain ⟨kind, term, called, pushed⟩ := record_eq_ok made
  obtain ⟨rfl, rfl⟩ := Prod.mk.inj pushed
  rw [term?] at called
  split at called
  · rename_i fits
    cases called
    exact ⟨_, Array.toList_push, g.getElem?_bindTexture t, rfl, rfl, fits⟩
  · cases called

/-- **The value of a texture's node** is the texel of this texture, whatever other textures there
    are. -/
theorem Sound.valueAt_texture (h : g'.Sound nodes) (made : g.record (.texture t) = .ok (g', n))
    (x y : UInt32) : g'.valueAt n x y = some (texelValue (sample t.image x y)) := by
  obtain ⟨slot, instructions, bound, _⟩ := record_texture_eq_ok made
  have enough : g'.textures.size ≤ (g'.siteAt x y).texels.length := by
    rw [texels_siteAt, List.length_map, Array.length_toList]
  obtain ⟨env, all, _⟩ := h.wellTyped.exists_env enough
  have texel : (Instruction.mk n.id .vec4 (.texel slot)).valueOver (g'.siteAt x y)
      = fun _ => some (texelValue (sample t.image x y)) := by
    funext before
    show (g'.siteAt x y).texels[slot]?.map texelValue = _
    rw [texels_siteAt, List.getElem?_map, bound, Option.map_some, Option.map_some]
  -- the instruction comes last, so that no other writes its value after it
  rw [instructions, values?_append, Option.bind_eq_some_iff] at all
  obtain ⟨before, first, last⟩ := all
  rw [valueAt, instructions, values?_append, first, Option.bind_some, values?, texel,
    Option.bind_some, values?, Option.bind_some, Function.update_self]

/-- **The image of a texture's node is the image of the texture.** -/
theorem Sound.render_texture (h : g'.Sound (n :: nodes))
    (made : g.record (.texture t) = .ok (g', n)) (hh : t.image.isHoldable = true) :
    g'.render n = .ok t.image := by
  obtain ⟨_, _, _, kind, target, fits⟩ := record_texture_eq_ok made
  have extent : g'.target = t.image.toExtent := target.trans fits.symm
  obtain ⟨drawn, rendered, size, pixels⟩ := h.render_pixels List.mem_cons_self
    (by rw [kind]; rfl) (by rw [extent]; exact hh)
  rw [extent] at size pixels
  suffices same : drawn = t.image by rw [rendered, same]
  refine Image.ext_pixel? size fun x y hx hy => ?_
  rw [size] at hx hy
  obtain ⟨p, here⟩ := t.image.exists_pixel hx hy
  rw [pixels x y hx hy, h.valueAt_texture made, Option.bind_some, Value.pixel?_texelValue,
    sample_of_pixel? here, here]

end Graph

/-- **Bound textures are drawn unchanged.** On a bench on which any calls have been carried out, bind
    a texture to a graph that has been made for its extent, an empty one or not. The call answers a
    node. After any further calls, whether they fail or not, and after anything is compiled or
    drawn, the image of this node is the image of the texture: its extent and all of its bytes. -/
theorem bound_textures_are_drawn_unchanged {targets : List Extent} {b : Bench} {nodes : List Node}
    (h : b.Handled targets nodes) {graph : Nat} {t : Texture}
    (fits : targets[graph]? = some t.image.toExtent) (hh : t.image.isHoldable = true)
    (deeds : List Deed) :
    ∃ n b' g, ((Call.texture t).carryOut graph).run b = .ok n b' ∧
      (deeds.foldl Bench.after b').graphs[graph]? = some g ∧ g.render n = .ok t.image := by
  have recorded := h.recorded
  obtain ⟨place, _⟩ := List.getElem?_eq_some_iff.mp fits
  obtain ⟨g, found⟩ := recorded.exists_graph place
  obtain ⟨target, same, alone⟩ := recorded.graph found
  obtain rfl := Option.some.inj (fits.symm.trans same)
  obtain ⟨g', n, made⟩ := Graph.exists_record_texture alone.owner.2.symm
  have sound := (alone.record (.texture t) (by simp [Call.operands]) made).sound
  -- the call is carried out in this graph, and the graph grows from there
  have done : b.record graph (.texture t) = .ok (⟨b.graphs.setIfInBounds graph g'⟩, n) := by
    simp only [Bench.record, Call.home, found, made]
  have numbered := (Bench.Grows.of_record recorded.numbered done).2
  have there : (b.graphs.setIfInBounds graph g')[graph]? = some g' :=
    Array.getElem?_setIfInBounds_self_of_lt (Array.getElem?_eq_some_iff.mp found).1
  obtain ⟨later, found', grows⟩ := Bench.grows_foldl_after numbered deeds graph g' there
  refine ⟨n, _, later, ?_, found', ?_⟩
  · rw [Call.carryOut_eq recorded.numbered, Bench.settle_eq_ok_iff, done]
  · rw [grows.render sound List.mem_cons_self, sound.render_texture made hh]

/-- A texture of two pixels, one of them transparent. -/
def lichen : Texture :=
  ⟨7, ⟨⟨2, 1⟩, #[⟨1, 254, 128, 0⟩, ⟨0, 77, 255, 255⟩], rfl⟩⟩

/-- After the texture has been bound, another one is, which is of the same image but not the same; a
    texture of another extent is refused, and the other graph is drawn. -/
def afternoon : List Deed :=
  [.call 1 (.texture { lichen with tag := 8 }), .call 1 (.texture sand), .render 0 ⟨0, 0, .f32⟩]

theorem lichen_is_drawn_unchanged :
    Bench.Handled [⟨0, 3⟩, ⟨2, 1⟩] (.ofTargets [⟨0, 3⟩, ⟨2, 1⟩]) [] ∧
    [⟨0, 3⟩, ⟨2, 1⟩][1]? = some lichen.image.toExtent ∧ lichen.image.isHoldable = true ∧
    ∃ n b g, ((Call.texture lichen).carryOut 1).run (.ofTargets [⟨0, 3⟩, ⟨2, 1⟩]) = .ok n b ∧
      (afternoon.foldl Bench.after b).graphs[1]? = some g ∧ g.render n = .ok lichen.image := by
  have blank : Bench.Handled [⟨0, 3⟩, ⟨2, 1⟩] (.ofTargets [⟨0, 3⟩, ⟨2, 1⟩]) [] := .start
  have holdable : lichen.image.isHoldable = true := rfl
  exact ⟨blank, rfl, holdable, bound_textures_are_drawn_unchanged blank rfl holdable afternoon⟩

end Relief.Shading
