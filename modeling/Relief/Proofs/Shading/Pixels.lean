import Relief.Proofs.Shading.Lowering

/-!
# Pixels

Each pixel of an image is that of a fragment. Here it is traced back to the value of the node that
is drawn.

* `Graph.valueAt`: the value of a node at a place, over all instructions of the graph;
* `Graph.Sound.colour_eq`: a fragment of the program for a node has the pixel of that value;
* `Graph.Sound.render_pixels`: **every pixel of an image is that of the value of the node there**.
-/

namespace Relief.Shading

/-- The place of a fragment of a graph, with the texels of all textures. -/
def Graph.siteAt (g : Graph) (x y : UInt32) : Site :=
  Shading.siteAt g.target (g.textures.toList.map Texture.image) x y

/-- The value of a node at a place. -/
def Graph.valueAt (g : Graph) (out : Node) (x y : UInt32) : Option Value :=
  (values? (g.siteAt x y) g.instructions.toList fun _ => none).bind fun env => env out.id

namespace Graph.Sound

variable {g : Graph} {nodes : List Node} (h : g.Sound nodes) {out : Node} (hn : out ∈ nodes)
variable (hd : out.kind.isDrawable = true)
include h hn hd

/-- A fragment of the program for a node has the pixel of the value of the node there. -/
theorem colour_eq {p : Program} (hp : p = .lower g.instructions.toList out.id g.target)
    (x y : UInt32) :
    p.colour? (Shading.siteAt g.target (g.inputsOf p) x y)
      = (g.valueAt out x y).bind Value.pixel? := by
  have spare : (Array.replicate g.instructions.size (default : Value)).size
      = g.instructions.size := Array.size_replicate
  obtain ⟨env, v, after, _, hall, run, _, hv, read, _, _⟩ :=
    h.reads hn hd hp x y p.holds_zero.size spare
  have ready : p.Sound := hp ▸ (h.compile hn hd).2
  have bound : (g.inputsOf p).length = p.inputs.length := hp ▸ (h.inputsOf out.id).1
  obtain ⟨pixel, _, colour, drawn, _⟩ :=
    ready.shade_eq ((length_texels g.target (g.inputsOf p) x y).trans bound) p.holds_zero.size
  have here : g.valueAt out x y = some v := by
    rw [valueAt, siteAt, hall, Option.bind_some, hv]
  rw [colour, here, Option.bind_some]
  simp only [Program.shade, run, read, Option.bind_some] at drawn
  split at drawn
  · cases drawn
  · rename_i shown e
    cases drawn
    exact e.symm

/-- **Every pixel of the image of a node is that of its value there.** There is an image, since
    memory can hold the target. -/
theorem render_pixels (hh : g.target.isHoldable = true) :
    ∃ image, g.render out = .ok image ∧ image.toExtent = g.target ∧
      ∀ x y, x < g.target.width → y < g.target.height →
        image.pixel? x y = (g.valueAt out x y).bind Value.pixel? := by
  obtain ⟨image, drawn⟩ := (h.render_eq_ok_iff hn hd).mpr hh
  obtain ⟨compiled, ready⟩ := h.compile hn hd
  generalize hp : Program.lower g.instructions.toList out.id g.target = p at compiled ready
  have target : p.target = g.target := by rw [← hp]; rfl
  refine ⟨image, drawn, ?_⟩
  rw [Graph.render, compiled] at drawn
  simp only [target] at drawn
  cases hempty : g.target.isEmpty with
  | true =>
    rw [hempty, if_pos rfl] at drawn
    refine ⟨(of_imageOf drawn).1, fun x y hx hy => ?_⟩
    rw [isEmpty_eq_false_of_lt hx hy] at hempty
    cases hempty
  | false =>
    rw [hempty, if_neg Bool.false_ne_true] at drawn
    obtain ⟨extent, pixels⟩ := ready.execute_pixels drawn
    rw [target] at extent pixels
    refine ⟨extent, fun x y hx hy => ?_⟩
    rw [pixels x y hx hy, h.colour_eq hn hd hp.symm]

end Graph.Sound

end Relief.Shading
