import Relief.Proofs.Shading.Bytes
import Relief.Proofs.Shading.Pruning

/-!
# Fragments

A program is sound if its instructions are well typed over its inputs, and its output can be drawn.
No fragment of such a program fails. The registers are handed on from fragment to fragment, and
still no fragment can tell what they held before it: its pixel is a function of its place and of the
texels there.

* `Program.Sound.registersAfter`: **every register comes to hold a value of its kind**;
* `Program.colour?`: the pixel of a fragment, without registers;
* `Program.Sound.shade_eq`: **a fragment has its pixel whatever the registers hold**, and leaves
  behind values of the kinds of the instructions;
* `Program.Sound.rows_pixels`: all pixels of all rows are drawn, each that of the fragment there.
-/

namespace Relief.Shading

/-- What a program needs for its fragments. -/
structure Program.Sound (p : Program) : Prop where
  wellTyped : WellTyped p.inputs.length p.instructions
  output : ∃ e ∈ p.instructions, e.id = p.output ∧ e.kind.isDrawable = true

/-! ## 1. Fragments -/

/-- Registers do not become more or fewer. -/
theorem registersFrom_size {slots : Array (Option Nat)} {site : Site} {next : Nat}
    {L : List Instruction} {registers after : Registers}
    (h : registersFrom slots site next L registers = .ok after) : after.size = registers.size := by
  induction L generalizing next registers with
  | nil =>
    obtain rfl := Except.ok.inj h
    rfl
  | cons i rest ih =>
    rw [registersFrom] at h
    split at h
    · cases h
    · rw [ih h, Array.size_setIfInBounds]

/-- What is not a matrix can be drawn. -/
theorem Value.exists_pixel {v : Value} (h : v.kind.isDrawable = true) :
    ∃ pixel, v.pixel? = some pixel := by
  cases v with
  | mat3 m => exact absurd h Bool.false_ne_true
  | _ => exact ⟨_, rfl⟩

/-- The pixel of a fragment, over the values of instructions and without registers. -/
def Program.colour? (p : Program) (site : Site) : Option Pixel :=
  (values? site p.instructions fun _ => none).bind fun env => (env p.output).bind Value.pixel?

/-- A value for each instruction, of its kind. -/
def Program.Holds (p : Program) (registers : Registers) : Prop :=
  registers.toList.map Value.kind = p.instructions.map Instruction.kind

theorem Program.Holds.size {p : Program} {registers : Registers} (h : p.Holds registers) :
    registers.size = p.instructions.length := by
  have lengths := congrArg List.length h
  rwa [List.length_map, List.length_map, Array.length_toList] at lengths

theorem Value.kind_zero (k : Kind) : (Value.zero k).kind = k := by
  cases k <;> rfl

/-- There is a texel of each image. -/
theorem length_texels (target : Extent) (inputs : List Image) (x y : UInt32) :
    (siteAt target inputs x y).texels.length = inputs.length :=
  List.length_map _

/-- The registers that drawing starts with. -/
theorem Program.holds_zero (p : Program) :
    p.Holds (p.instructions.map fun i => Value.zero i.kind).toArray := by
  rw [Holds, List.map_map]
  exact List.map_congr_left fun i _ => Value.kind_zero i.kind

namespace Program.Sound

variable {p : Program} (h : p.Sound)
include h

/-- **Every register comes to hold a value of the kind of its instruction**, at every fragment with
    a texel for each input. -/
theorem registersAfter {site : Site} (ht : site.texels.length = p.inputs.length)
    {registers : Registers} (size : registers.size = p.instructions.length) :
    ∃ after, p.registersAfter p.slots site registers = .ok after ∧
      ∀ e ∈ p.instructions, Yields (read? p.slots after e.id) e.kind := by
  obtain ⟨env, hall, typed⟩ := h.wellTyped.exists_env (Nat.le_of_eq ht.symm)
  obtain ⟨after, run, holds⟩ := p.registersAfter_spec h.wellTyped hall size
  refine ⟨after, run, fun e he => ?_⟩
  rw [holds e he]
  exact typed e he

/-- Registers in which each instruction finds a value of its kind. -/
theorem holds_of_yields {registers : Registers} (size : registers.size = p.instructions.length)
    (typed : ∀ e ∈ p.instructions, Yields (read? p.slots registers e.id) e.kind) :
    p.Holds registers := by
  refine List.ext_getElem? fun k => ?_
  rw [List.getElem?_map, List.getElem?_map, Array.getElem?_toList]
  cases hk : p.instructions[k]? with
  | none =>
    have beyond : registers.size ≤ k := size ▸ List.getElem?_eq_none_iff.mp hk
    rw [Array.getElem?_eq_none beyond]
    rfl
  | some e =>
    obtain ⟨v, value, kind⟩ := typed e (List.mem_of_getElem? hk)
    rw [← p.read?_eq h.wellTyped.ordered hk, value]
    exact congrArg some kind

/-- **A fragment has its pixel whatever the registers hold**, as long as there is one for each
    instruction. They are left with values of the kinds of the instructions. -/
theorem shade_eq {site : Site} (ht : site.texels.length = p.inputs.length) {registers : Registers}
    (size : registers.size = p.instructions.length) :
    ∃ pixel after, p.colour? site = some pixel ∧
      p.shade p.slots site registers = .ok (pixel, after) ∧ p.Holds after := by
  obtain ⟨env, hall, typed⟩ := h.wellTyped.exists_env (Nat.le_of_eq ht.symm)
  obtain ⟨after, run, holds⟩ := p.registersAfter_spec h.wellTyped hall size
  obtain ⟨e, he, hid, drawable⟩ := h.output
  obtain ⟨v, value, kind⟩ := typed e he
  obtain ⟨pixel, drawn⟩ := Value.exists_pixel (v := v) (by rw [kind]; exact drawable)
  have read := holds e he
  rw [hid] at read value
  refine ⟨pixel, after, ?_, ?_, h.holds_of_yields ((registersFrom_size run).trans size) ?_⟩
  · rw [colour?, hall, Option.bind_some, value, Option.bind_some, drawn]
  · simp only [Program.shade, run, read, value, Option.bind_some, drawn]
  · intro e he
    rw [holds e he]
    exact typed e he

end Program.Sound

/-! ## 2. Rows -/

/-- Where every element has a good outcome, so has the list. -/
theorem exists_mapM {α β : Type} {f : α → Except Failure β} {P : β → Prop} {l : List α}
    (h : ∀ a ∈ l, ∃ b, f a = .ok b ∧ P b) :
    ∃ bs, l.mapM f = .ok bs ∧ bs.length = l.length ∧ ∀ b ∈ bs, P b := by
  induction l with
  | nil => exact ⟨[], rfl, rfl, by simp⟩
  | cons a rest ih =>
    obtain ⟨b, hb, hP⟩ := h a List.mem_cons_self
    obtain ⟨bs, hbs, length, all⟩ := ih fun a ha => h a (List.mem_cons_of_mem _ ha)
    refine ⟨b :: bs, ?_, by rw [List.length_cons, List.length_cons, length], ?_⟩
    · rw [List.mapM_cons, hb, hbs]
      rfl
    · intro c hc
      rcases List.mem_cons.mp hc with rfl | hc
      · exact hP
      · exact all c hc

/-- What the elements of a list become, one by one. -/
theorem getElem?_mapM {α β : Type} {f : α → Except Failure β} {l : List α} {bs : List β}
    (h : l.mapM f = .ok bs) {k : Nat} {a : α} (ha : l[k]? = some a) :
    ∃ b, bs[k]? = some b ∧ f a = .ok b := by
  induction l generalizing k bs with
  | nil => cases ha
  | cons first rest ih =>
    rw [List.mapM_cons] at h
    cases hf : f first with
    | error e =>
      rw [hf] at h
      cases h
    | ok b =>
      cases hr : rest.mapM f with
      | error e =>
        rw [hf, hr] at h
        cases h
      | ok others =>
        rw [hf, hr] at h
        cases h
        cases k with
        | zero =>
          cases ha
          exact ⟨b, rfl, hf⟩
        | succ k => exact ih hr ha

namespace Program.Sound

variable {p : Program} (h : p.Sound) {inputs : List Image}
variable (hi : inputs.length = p.inputs.length)
include h hi

/-- The pixels of a row are those of the fragments along it. -/
theorem row_pixels (y : UInt32) (count : Nat) (x : UInt32) {registers : Registers}
    (size : registers.size = p.instructions.length) :
    ∃ pixels, p.row p.slots inputs y count x registers = .ok pixels ∧ pixels.length = count ∧
      ∀ j < count, pixels[j]? = p.colour? (siteAt p.target inputs (x + j.toUInt32) y) := by
  induction count generalizing x registers with
  | zero => exact ⟨[], rfl, rfl, fun j hj => absurd hj (Nat.not_lt_zero j)⟩
  | succ count ih =>
    obtain ⟨pixel, after, colour, drawn, kinds⟩ :=
      h.shade_eq ((length_texels p.target inputs x y).trans hi) size
    obtain ⟨pixels, rest, length, along⟩ := ih (x + 1) kinds.size
    refine ⟨pixel :: pixels, ?_, by rw [List.length_cons, length], fun j hj => ?_⟩
    · simp only [Program.row, drawn, rest]
    · cases j with
      | zero =>
        rw [show x + (0 : Nat).toUInt32 = x from UInt32.add_zero x, colour]
        rfl
      | succ j =>
        have next : x + (j + 1).toUInt32 = x + 1 + j.toUInt32 := by
          have sum : (j + 1).toUInt32 = j.toUInt32 + 1 := UInt32.ofNat_add j 1
          rw [sum, UInt32.add_comm j.toUInt32, UInt32.add_assoc]
        rw [next, ← along j (Nat.lt_of_succ_lt_succ hj)]
        rfl

/-- **All pixels of all rows are drawn.** Laid end to end, they are those of the fragments in their
    places. -/
theorem rows_pixels :
    ∃ rows, p.rows inputs = .ok rows ∧ rows.flatten.length = p.target.area ∧
      ∀ x y, x < p.target.width → y < p.target.height →
        rows.flatten[y.toNat * p.target.width.toNat + x.toNat]?
          = p.colour? (siteAt p.target inputs x y) := by
  have row := fun y : UInt32 => h.row_pixels hi y p.target.width.toNat 0 p.holds_zero.size
  obtain ⟨rows, made, length, widths⟩ := exists_mapM (l := List.range p.target.height.toNat)
    fun k _ => (row k.toUInt32).imp fun _ r => ⟨r.1, r.2.1⟩
  refine ⟨rows, made, ?_, fun x y hx hy => ?_⟩
  · rw [length_flatten_of_forall widths, length, List.length_range, Extent.area, Nat.mul_comm]
  have place : x.toNat < p.target.width.toNat := UInt32.lt_iff_toNat_lt.mp hx
  obtain ⟨line, hline, drawn⟩ :=
    getElem?_mapM made (List.getElem?_range (UInt32.lt_iff_toNat_lt.mp hy))
  obtain ⟨line', drawn', _, along⟩ := row y.toNat.toUInt32
  obtain rfl := Except.ok.inj (drawn.symm.trans drawn')
  have back : ∀ w : UInt32, w.toNat.toUInt32 = w := fun _ => UInt32.ofNat_toNat
  have here := along x.toNat place
  rw [back, back, UInt32.zero_add] at here
  rw [getElem?_flatten widths y.toNat place, hline, Option.bind_some, here]

end Program.Sound

end Relief.Shading
