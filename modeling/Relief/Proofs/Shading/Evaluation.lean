import Mathlib.Logic.Function.Basic
import Relief.Proofs.Shading.Recording
import Relief.Shading.Render

/-!
# Evaluating instructions

Instructions are evaluated over registers. Here they are evaluated over the values of the
instructions before them, known by their numbers, and it is shown that the registers come to hold
those values.

* `Instruction.valueOver`, `values?`: evaluation without registers;
* `WellTyped.exists_env`: **well-typed instructions all have values, of their kinds**;
* `slots_getElem?`: each instruction of a program has the register of its place;
* `Program.registersAfter_spec`: **the registers hold the values**, whatever they held before.
-/

namespace Relief.Shading

/-! ## 1. Evaluation without registers -/

/-- The value of an instruction, over the values of others. -/
def Instruction.valueOver (i : Instruction) (site : Site) (env : Nat → Option Value) :
    Option Value :=
  match i.term with
  | .float x => some (.float x)
  | .integer n => some (.integer n)
  | .boolean b => some (.boolean b)
  | .texel binding => site.texels[binding]?.map texelValue
  | .position => some (.vec2 (site.x.toFloat32 + 0.5) (site.y.toFloat32 + 0.5))
  | .resolution => some (.vec2 site.target.width.toFloat32 site.target.height.toFloat32)
  | .construct parts => (parts.mapM env).bind (construct? i.kind)
  | .apply op operands => (operands.mapM env).bind op.evaluate?

/-- The values of instructions, each over those of the ones before it. -/
def values? (site : Site) : List Instruction → (Nat → Option Value) → Option (Nat → Option Value)
  | [], env => some env
  | i :: rest, env =>
    (i.valueOver site env).bind fun v => values? site rest (Function.update env i.id (some v))

theorem mapM_congr {ids : List Nat} {env env' : Nat → Option Value}
    (h : ∀ id ∈ ids, env id = env' id) : ids.mapM env = ids.mapM env' := by
  induction ids with
  | nil => rfl
  | cons id rest ih =>
    rw [List.mapM_cons, List.mapM_cons, h id List.mem_cons_self,
      ih fun id hid => h id (List.mem_cons_of_mem _ hid)]

/-- The value of an instruction depends on those of its operands. -/
theorem Instruction.valueOver_congr (i : Instruction) (site : Site) {env env' : Nat → Option Value}
    (h : ∀ id ∈ i.term.operands, env id = env' id) :
    i.valueOver site env = i.valueOver site env' := by
  obtain ⟨id, kind, term⟩ := i
  cases term with
  | construct parts => exact congrArg (fun values => values.bind (construct? kind)) (mapM_congr h)
  | apply op operands => exact congrArg (fun values => values.bind op.evaluate?) (mapM_congr h)
  | _ => rfl

/-! ## 2. Values of the right kinds -/

/-- Operands that refer to values of their kinds have values of those kinds. -/
theorem exists_values {L : List Instruction} {place : Nat} {env : Nat → Option Value}
    (typed : ∀ e ∈ L, e.id < place → Yields (env e.id) e.kind) {ids : List Nat} {kinds : List Kind}
    (h : List.Forall₂ (Refers L place) ids kinds) :
    ∃ values, ids.mapM env = some values ∧ values.map Value.kind = kinds := by
  induction h with
  | nil => exact ⟨[], rfl, rfl⟩
  | cons r _ ih =>
    obtain ⟨lt, e, he, rfl, rfl⟩ := r
    obtain ⟨v, hv, kind⟩ := typed e he lt
    obtain ⟨values, hvs, kinds⟩ := ih
    refine ⟨v :: values, ?_, ?_⟩
    · rw [List.mapM_cons, hv, hvs]
      rfl
    · rw [List.map_cons, kind, kinds]

/-- **An instruction that fits has a value of its kind** over values of the right kinds. -/
theorem Instruction.Fits.valueOver_yields {i : Instruction} {L : List Instruction}
    {textures : Nat} {site : Site} {env : Nat → Option Value} (h : i.Fits L textures)
    (typed : ∀ e ∈ L, e.id < i.id → Yields (env e.id) e.kind)
    (ht : textures ≤ site.texels.length) : Yields (i.valueOver site env) i.kind := by
  obtain ⟨id, kind, term⟩ := i
  cases term with
  | float x => exact .some h.symm
  | integer n => exact .some h.symm
  | boolean b => exact .some h.symm
  | position => exact .some h.symm
  | resolution => exact .some h.symm
  | texel slot =>
    obtain ⟨vec4, lt⟩ := h
    have bound := List.getElem?_eq_getElem (Nat.lt_of_lt_of_le lt ht)
    exact ⟨_, congrArg (Option.map texelValue) bound, vec4.symm⟩
  | construct parts =>
    obtain ⟨kinds, all, built⟩ := h
    obtain ⟨values, hvs, rfl⟩ := exists_values typed all
    simp only [valueOver, hvs, Option.bind_some]
    exact construct?_yields built
  | apply op operands =>
    obtain ⟨kinds, all, result, lane⟩ := h
    obtain ⟨values, hvs, rfl⟩ := exists_values typed all
    simp only [valueOver, hvs, Option.bind_some]
    exact Operator.evaluate?_yields result lane

/-- Where numbers increase, what has a lesser number comes before. -/
theorem mem_of_id_lt {done rest : List Instruction} {i : Instruction}
    (h : (done ++ i :: rest).Pairwise fun a b => a.id < b.id) {e : Instruction}
    (he : e ∈ done ++ i :: rest) (lt : e.id < i.id) : e ∈ done := by
  rcases List.mem_append.mp he with he | he
  · exact he
  · rcases List.mem_cons.mp he with rfl | he
    · omega
    · have after := (List.pairwise_cons.mp (List.pairwise_append.mp h).2.1).1 e he
      omega

/-- Where numbers increase, what comes before has a lesser number. -/
theorem id_lt_of_mem {done rest : List Instruction} {i : Instruction}
    (h : (done ++ i :: rest).Pairwise fun a b => a.id < b.id) {e : Instruction} (he : e ∈ done) :
    e.id < i.id :=
  (List.pairwise_append.mp h).2.2 e he i List.mem_cons_self

/-- Well-typed instructions have values of their kinds over those of the ones before them. -/
theorem values?_yields {textures : Nat} {site : Site} (ht : textures ≤ site.texels.length)
    (done rest : List Instruction) (h : WellTyped textures (done ++ rest))
    {env : Nat → Option Value} (typed : ∀ e ∈ done, Yields (env e.id) e.kind) :
    ∃ env', values? site rest env = some env' ∧
      ∀ e ∈ done ++ rest, Yields (env' e.id) e.kind := by
  induction rest generalizing done env with
  | nil => exact ⟨env, rfl, by rwa [List.append_nil]⟩
  | cons i rest ih =>
    have fits := h.fits i (List.mem_append_right _ List.mem_cons_self)
    have before : ∀ e ∈ done ++ i :: rest, e.id < i.id → Yields (env e.id) e.kind :=
      fun e he lt => typed e (mem_of_id_lt h.ordered he lt)
    obtain ⟨v, hv, kind⟩ := fits.valueOver_yields before ht
    have shift : done ++ i :: rest = (done ++ [i]) ++ rest := by simp
    have next : ∀ e ∈ done ++ [i], Yields (Function.update env i.id (some v) e.id) e.kind := by
      intro e he
      rcases List.mem_append.mp he with he | he
      · rw [Function.update_of_ne (Nat.ne_of_lt (id_lt_of_mem h.ordered he))]
        exact typed e he
      · rw [List.mem_singleton.mp he, Function.update_self]
        exact .some kind
    obtain ⟨env', hall, all⟩ := ih (done ++ [i]) (shift ▸ h) next
    refine ⟨env', ?_, shift ▸ all⟩
    rw [values?, hv, Option.bind_some, hall]

/-- **Well-typed instructions all have values, of their kinds.** -/
theorem WellTyped.exists_env {textures : Nat} {L : List Instruction} (h : WellTyped textures L)
    {site : Site} (ht : textures ≤ site.texels.length) :
    ∃ env, values? site L (fun _ => none) = some env ∧ ∀ e ∈ L, Yields (env e.id) e.kind :=
  values?_yields ht [] L h fun _ he => absurd he List.not_mem_nil

/-! ## 3. Registers -/

/-- A number that no instruction has keeps its register. -/
theorem slotsFrom_of_ne {L : List Instruction} {id : Nat} (h : ∀ e ∈ L, e.id ≠ id) (next : Nat)
    (slots : Array (Option Nat)) : (slotsFrom next L slots)[id]? = slots[id]? := by
  induction L generalizing next slots with
  | nil => rfl
  | cons i rest ih =>
    rw [slotsFrom, ih fun e he => h e (List.mem_cons_of_mem _ he)]
    exact Array.getElem?_setIfInBounds_ne (h i List.mem_cons_self)

theorem slotsFrom_getElem? {L : List Instruction} (h : L.Pairwise fun a b => a.id < b.id)
    {next : Nat} {slots : Array (Option Nat)} (hs : ∀ e ∈ L, e.id < slots.size) {k : Nat}
    {e : Instruction} (hk : L[k]? = some e) :
    (slotsFrom next L slots)[e.id]? = some (some (next + k)) := by
  induction L generalizing next slots k with
  | nil => cases hk
  | cons i rest ih =>
    obtain ⟨before, ordered⟩ := List.pairwise_cons.mp h
    rw [slotsFrom]
    cases k with
    | zero =>
      obtain rfl := Option.some.inj hk
      rw [slotsFrom_of_ne fun e he => Nat.ne_of_gt (before e he)]
      exact Array.getElem?_setIfInBounds_self_of_lt (hs _ List.mem_cons_self)
    | succ k =>
      rw [ih ordered (fun e he => ?_) hk, Nat.add_assoc, Nat.add_comm 1 k]
      rw [Array.size_setIfInBounds]
      exact hs e (List.mem_cons_of_mem _ he)

/-- **Each instruction of a program has the register of its place.** -/
theorem Program.slots_getElem? {p : Program}
    (h : p.instructions.Pairwise fun a b => a.id < b.id) {k : Nat} {e : Instruction}
    (hk : p.instructions[k]? = some e) : p.slots[e.id]? = some (some k) := by
  have mem := List.mem_of_getElem? hk
  obtain ⟨front, last, hlast⟩ :=
    (List.eq_nil_or_concat p.instructions).resolve_left (List.ne_nil_of_mem mem)
  rw [List.concat_eq_append] at hlast
  have size : ∀ e ∈ p.instructions, e.id < last.id + 1 := by
    intro e he
    rw [hlast] at he h
    rcases List.mem_append.mp he with he | he
    · exact Nat.lt_succ_of_lt (id_lt_of_mem h he)
    · rw [List.mem_singleton.mp he]
      exact Nat.lt_succ_self _
  have getLast : p.instructions.getLast? = some last := by
    rw [hlast, List.getLast?_append]
    rfl
  rw [Program.slots, getLast, slotsFrom_getElem? h (fun e he => ?_) hk, Nat.zero_add]
  rw [Array.size_replicate]
  exact size e he

/-- What a register holds, by the number of its instruction. -/
theorem Program.read?_eq {p : Program} (h : p.instructions.Pairwise fun a b => a.id < b.id)
    {k : Nat} {e : Instruction} (hk : p.instructions[k]? = some e) (registers : Registers) :
    read? p.slots registers e.id = registers[k]? := by
  rw [read?, p.slots_getElem? h hk]
  rfl

/-- The registers after some instructions hold their values, where those before hold the values of
    the instructions before. -/
theorem Program.registersFrom_spec {p : Program} {textures : Nat} {site : Site}
    (done rest : List Instruction) (hp : p.instructions = done ++ rest)
    (h : WellTyped textures p.instructions) {env env' : Nat → Option Value}
    (hall : values? site rest env = some env') {registers : Registers}
    (size : registers.size = p.instructions.length)
    (holds : ∀ (k : Nat) (e : Instruction), done[k]? = some e → registers[k]? = env e.id) :
    ∃ after, registersFrom p.slots site done.length rest registers = .ok after ∧
      ∀ (k : Nat) (e : Instruction), p.instructions[k]? = some e → after[k]? = env' e.id := by
  induction rest generalizing done env registers with
  | nil =>
    obtain rfl := Option.some.inj hall
    rw [List.append_nil] at hp
    exact ⟨registers, rfl, fun k e hk => holds k e (hp ▸ hk)⟩
  | cons i rest ih =>
    have ordered := h.ordered
    have mem : i ∈ p.instructions := hp ▸ List.mem_append_right _ List.mem_cons_self
    -- the operands have been evaluated before, so the registers hold their values
    have reads : ∀ id ∈ i.term.operands, read? p.slots registers id = env id := by
      intro id hid
      obtain ⟨lt, e, he, rfl⟩ := (h.fits i mem).refers id hid
      rw [hp] at he ordered
      obtain ⟨k, hk, rfl⟩ := List.getElem_of_mem (mem_of_id_lt ordered he lt)
      have done_k : done[k]? = some done[k] := List.getElem?_eq_getElem hk
      have all_k : p.instructions[k]? = some done[k] := by
        rw [hp, List.getElem?_append_left hk, done_k]
      rw [p.read?_eq h.ordered all_k]
      exact holds k _ done_k
    have same : i.value? p.slots registers site = i.valueOver site env :=
      i.valueOver_congr site reads
    obtain ⟨v, hv, hrest⟩ := Option.bind_eq_some_iff.mp hall
    have shift : p.instructions = (done ++ [i]) ++ rest := by rw [hp]; simp
    have inside : done.length < registers.size := by
      rw [size, hp, List.length_append, List.length_cons]
      omega
    have next : ∀ (k : Nat) (e : Instruction), (done ++ [i])[k]? = some e →
        (registers.setIfInBounds done.length v)[k]? = Function.update env i.id (some v) e.id := by
      intro k e hk
      rcases Nat.lt_or_ge k done.length with lt | ge
      · rw [List.getElem?_append_left lt] at hk
        have before : e.id < i.id := id_lt_of_mem (hp ▸ ordered) (List.mem_of_getElem? hk)
        rw [Array.getElem?_setIfInBounds_ne (Nat.ne_of_gt lt),
          Function.update_of_ne (Nat.ne_of_lt before)]
        exact holds k e hk
      · rw [List.getElem?_append_right ge] at hk
        obtain ⟨rfl, rfl⟩ : k = done.length ∧ i = e := by
          cases hd : k - done.length with
          | zero =>
            rw [hd] at hk
            exact ⟨by omega, Option.some.inj hk⟩
          | succ n =>
            rw [hd] at hk
            cases hk
        rw [Array.getElem?_setIfInBounds_self_of_lt inside, Function.update_self]
    obtain ⟨after, run, all⟩ := ih (done ++ [i]) shift hrest
      (by rw [Array.size_setIfInBounds]; exact size) next
    refine ⟨after, ?_, all⟩
    rw [registersFrom, same, hv]
    rw [List.length_append, List.length_singleton] at run
    exact run

/-- **The registers of a well-typed program come to hold the values of its instructions**, whatever
    they held before. -/
theorem Program.registersAfter_spec {p : Program} {textures : Nat}
    (h : WellTyped textures p.instructions) {site : Site} {env : Nat → Option Value}
    (hall : values? site p.instructions (fun _ => none) = some env) {registers : Registers}
    (size : registers.size = p.instructions.length) :
    ∃ after, p.registersAfter p.slots site registers = .ok after ∧
      ∀ e ∈ p.instructions, read? p.slots after e.id = env e.id := by
  obtain ⟨after, run, all⟩ := p.registersFrom_spec [] p.instructions rfl h hall size (by simp)
  refine ⟨after, run, fun e he => ?_⟩
  obtain ⟨k, hk⟩ := List.getElem?_of_mem he
  rw [p.read?_eq h.ordered hk]
  exact all k e hk

end Relief.Shading
