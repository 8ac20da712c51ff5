import Relief.Proofs.Number.Range
import Relief.Proofs.Shading.Drawing
import Relief.Proofs.Shading.Literals
import Relief.Proofs.Wgsl.Typing

/-!
# Typed source

The source of a program, line by line, under the typing rules of WGSL.

* `isFloat_of_isFinite`, `isInteger_iff`: the texts of numbers are literals, but for the least
  integer, whose digits alone are one more than the type holds;
* `binaryTy?_of_result?`, `callTy?_of_result?`: **where there is an operator for kinds, there is an
  overload for their types**, but for the choice between matrices;
* `hasType_of_fits`: so the line of an instruction that fits is typed, unless it is one of the two;
* `emitted_lines_are_typed`: **which lines of a program are typed**.
-/

namespace Relief.Wgsl

open Shading (Kind BinaryOp UnaryOp Builtin Operator constructed? Instruction Program)

/-! ## 1. Literals -/

/-- The shortest decimal of a single is rounded to it, and so not to infinity. -/
theorem value_shortest_lt {m : ℕ} {e : ℤ} (c : Single.Canonical m e) :
    (Decimal.shortest 24 (-149) m e).value < 2 ^ 128 - 2 ^ 103 := by
  have holds : (Decimal.Target.ofExact 24 (-149) m e).Holds (Decimal.shortest 24 (-149) m e).value :=
    Decimal.holds_shortest (by norm_num) c.pos c.lt
  generalize (Decimal.shortest 24 (-149) m e).value = q at holds ⊢
  have place : (0 : ℚ) < 2 ^ e := by positivity
  have top : (2 : ℚ) ^ e ≤ 2 ^ (104 : ℤ) := zpow_le_zpow_right₀ (by norm_num) c.le'
  rw [Decimal.holds_iff c.pos] at holds
  split at holds
  · -- an even mantissa is not the greatest
    have small : (m : ℚ) + 1 / 2 ≤ 2 ^ 24 - 3 / 2 := by
      have le : m + 2 ≤ 2 ^ 24 := by
        have := c.lt
        omega
      have cast : (m : ℚ) + 2 ≤ 2 ^ 24 := by exact_mod_cast le
      linarith
    calc q ≤ (m + 1 / 2) * 2 ^ e := holds.2
      _ ≤ (2 ^ 24 - 3 / 2) * 2 ^ (104 : ℤ) := by gcongr
      _ < 2 ^ 128 - 2 ^ 103 := by norm_num
  · have small : (m : ℚ) + 1 / 2 ≤ 2 ^ 24 - 1 / 2 := by
      have cast : (m : ℚ) + 1 ≤ 2 ^ 24 := by exact_mod_cast c.lt
      linarith
    calc q < (m + 1 / 2) * 2 ^ e := holds.2
      _ ≤ (2 ^ 24 - 1 / 2) * 2 ^ (104 : ℤ) := by gcongr
      _ ≤ 2 ^ 128 - 2 ^ 103 := by norm_num

/-- **Finite singles are written as literals.** -/
theorem isFloat_of_isFinite {x : Float32} (h : x.isFinite = true) : IsFloat (Expr.float x).text := by
  obtain ⟨n, text, literal, kind⟩ := Single.exists_numeral h
  refine ⟨n, literal, ?_, by rw [Expr.text, text]⟩
  rcases kind with ⟨_, _, _, value⟩ | ⟨_, m, e, c, _, _, value⟩
  · rw [value]
    norm_num
  · rw [value]
    exact value_shortest_lt c

/-- **Integers are written as literals**, but for the least one. -/
theorem isInteger_iff (i : Int32) : IsInteger (Expr.integer i).text ↔ i ≠ Int32.minValue := by
  have least : Int32.minValue.toInt = -2147483648 := rfl
  have range := i.le_toInt
  have range' := i.toInt_lt
  constructor
  · rintro ⟨minus, n, le, text⟩ rfl
    rw [Expr.text, String.append_left_inj] at text
    have read := readInt?_toString Int32.minValue.toInt
    rw [text, String.toList_append, Nat.toString_eq_repr, Nat.toList_repr, least] at read
    cases minus with
    | true =>
      have e := Option.some.inj (read.symm.trans (readInt?_minus n))
      omega
    | false =>
      have e := Option.some.inj (read.symm.trans (readInt?_toDigits n))
      omega
  · intro other
    have inner : i.toInt ≠ -2147483648 := fun h => other (Int32.toInt_inj.mp (h.trans least.symm))
    refine ⟨decide (i.toInt < 0), i.toInt.natAbs, by omega, ?_⟩
    rw [Expr.text, String.append_left_inj]
    apply String.toList_inj.mp
    rw [toList_toString_int, String.toList_append, Nat.toString_eq_repr, Nat.toList_repr]
    split
    · rename_i pos
      rw [decide_eq_false (by omega), show i.toInt.toNat = i.toInt.natAbs by omega]
      rfl
    · rename_i neg
      rw [decide_eq_true (by omega), show (-i.toInt).toNat = i.toInt.natAbs by omega]
      rfl

/-! ## 2. Overloads -/

/-- **Every sign has an overload** for the kinds that it takes. -/
theorem unaryTy?_of_result? {op : UnaryOp} {a k : Kind} (h : op.result? a = some k) :
    unaryTy? op (.ofKind a) = some (.ofKind k) := by
  cases op <;> cases a <;> cases h <;> rfl

theorem binaryTy?_of_result? {op : BinaryOp} {a b k : Kind} (h : op.result? a b = some k) :
    binaryTy? op (.ofKind a) (.ofKind b) = some (.ofKind k) := by
  cases op <;> cases a <;> cases b <;> cases h <;> rfl

/-- **Every function has an overload** for the kinds that it takes, but for the choice between
    matrices. -/
theorem callTy?_of_result? {f : Builtin} {kinds : List Kind} {k : Kind}
    (h : f.result? kinds = some k) (hs : ¬ (f = .select ∧ k = .mat3)) :
    callTy? f (kinds.map .ofKind) = some (.ofKind k) := by
  match f, kinds, h with
  | .sin, [a], h | .cos, [a], h | .tan, [a], h | .sqrt, [a], h | .floor, [a], h | .abs, [a], h
  | .length, [a], h | .normalize, [a], h => cases a <;> cases h <;> rfl
  | .atan2, [a, b], h | .pow, [a, b], h | .step, [a, b], h | .min, [a, b], h | .max, [a, b], h
  | .dot, [a, b], h => cases a <;> cases b <;> cases h <;> rfl
  | .clamp, [a, b, c], h | .mix, [a, b, c], h =>
    rw [Builtin.result?] at h
    split at h
    · rename_i same
      subst same
      cases a <;> cases b <;> cases h <;> rfl
    · cases h
  | .select, [a, b, c], h =>
    rw [Builtin.result?] at h
    split at h
    · rename_i same
      obtain ⟨rfl, rfl⟩ := same
      cases h
      cases k <;> first | rfl | exact absurd ⟨rfl, rfl⟩ hs
    · cases h

/-- No overload of the choice has matrices. -/
theorem callTy?_select_ne (ts : List Ty) : callTy? .select ts ≠ some .mat3 := by
  match ts with
  | [a, b, c] =>
    rw [callTy?]
    split
    · rename_i types
      intro h
      exact types.2.1 (Option.some.inj h)
    · exact nofun
  | [] | [_] | [_, _] | _ :: _ :: _ :: _ :: _ => exact nofun

/-- **Every construction has a constructor.** -/
theorem constructs_of_constructed? {kinds : List Kind} {k : Kind} (h : constructed? kinds = some k) :
    constructs k (kinds.map .ofKind) = true := by
  unfold constructed? at h
  split at h <;> cases h <;> rfl

theorem memberTy?_lane {a : Kind} (vector : a.isVector = true) {index : Nat}
    (lane : index < a.components) :
    memberTy? (Shading.laneMember index) (.ofKind a) = some .f32 := by
  cases a <;> cases vector <;> simp only [Kind.components] at lane <;> interval_cases index <;> rfl

/-! ## 3. Instructions -/

section Operands

variable {s : Scope} {L : List Instruction} {place : Nat}
variable (named : ∀ id k, Shading.Refers L place id k → s.values id = some (.ofKind k))
include named

/-- **Operands have the types of their kinds.** -/
theorem hasType_operands {ids : List Nat} {kinds : List Kind}
    (h : List.Forall₂ (Shading.Refers L place) ids kinds) :
    List.Forall₂ (HasType s) (ids.map .var) (kinds.map .ofKind) := by
  rw [List.forall₂_map_left_iff, List.forall₂_map_right_iff]
  exact h.imp fun id k r => .var (named id k r)

/-- **What applies an operator has the type of its kind**, unless it chooses between matrices. -/
theorem hasType_apply {op : Operator} {operands : List Nat} {kinds : List Kind} {k : Kind}
    (refers : List.Forall₂ (Shading.Refers L place) operands kinds)
    (result : op.result? kinds = some k) (lane : op.LaneFits kinds)
    (hs : ¬ (op = .builtin .select ∧ k = .mat3)) (hi : op = .inverse → s.invertsMatrices = true) :
    HasType s (op.expr (operands.map .var)) (.ofKind k) := by
  have operandTypes := hasType_operands named refers
  have length := refers.length_eq
  cases op with
  | unary op =>
    match kinds, operands, length, result, operandTypes with
    | [_], [_], _, result, .cons ta .nil => exact .unary ta (unaryTy?_of_result? result)
  | binary op =>
    match kinds, operands, length, result, operandTypes with
    | [_, _], [_, _], _, result, .cons ta (.cons tb .nil) =>
      exact .binary ta tb (binaryTy?_of_result? result)
  | builtin f =>
    refine .call operandTypes (callTy?_of_result? result ?_)
    rintro ⟨rfl, rfl⟩
    exact hs ⟨rfl, rfl⟩
  | lane index =>
    match kinds, operands, length, result, lane, operandTypes with
    | [a], [_], _, result, lane, .cons ta .nil =>
      rw [Operator.result?] at result
      split at result
      · rename_i vector
        cases result
        exact .member ta (memberTy?_lane vector lane)
      · cases result
  | xyz =>
    match kinds, operands, length, result, operandTypes with
    | [.vec4], [_], _, result, .cons ta .nil =>
      cases result
      exact .member ta rfl
  | inverse =>
    match kinds, operands, length, result, operandTypes with
    | [.mat3], [_], _, result, .cons ta .nil =>
      cases result
      exact .inverse (hi rfl) ta
  | toFloat =>
    match kinds, operands, length, result, operandTypes with
    | [.i32], [_], _, result, types =>
      cases result
      exact .make types rfl
  | toInteger =>
    match kinds, operands, length, result, operandTypes with
    | [.f32], [_], _, result, types =>
      cases result
      exact .make types rfl

end Operands

/-- What a stage has no text for: the least integer, and a choice between matrices. -/
def Let.IsInexpressible (l : Let) : Prop :=
  l.value = .integer Int32.minValue ∨ (l.kind = .mat3 ∧ ∃ args, l.value = .call .select args)

/-- **What is inexpressible has no type.** -/
theorem Let.IsInexpressible.not_isTyped {l : Let} {s : Scope} (h : l.IsInexpressible) :
    ¬ l.IsTyped s := by
  rintro ⟨-, typed⟩
  obtain ⟨id, kind, value⟩ := l
  rcases h with rfl | ⟨rfl, args, rfl⟩
  · cases kind <;> cases typed
    rename_i literal
    exact (isInteger_iff _).mp literal rfl
  · cases typed with
    | call ha overload => exact callTy?_select_ne _ overload

/-- The line of an instruction. -/
def lineOf (target : Extent) (i : Instruction) : Let :=
  ⟨i.id, i.kind, i.expr target⟩

theorem lines_fragment (p : Program) :
    p.fragment.lines = p.instructions.map (lineOf p.target) := rfl

/-- Where numbers increase, an instruction is found by its number. -/
theorem find?_id {L : List Instruction} (h : L.Pairwise fun a b => a.id < b.id) {e : Instruction}
    (he : e ∈ L) : L.find? (fun i => i.id = e.id) = some e := by
  induction L with
  | nil => cases he
  | cons i rest ih =>
    obtain ⟨before, ordered⟩ := List.pairwise_cons.mp h
    rcases List.mem_cons.mp he with rfl | he
    · exact List.find?_cons_of_pos (decide_eq_true rfl)
    · have other : i.id ≠ e.id := Nat.ne_of_lt (before e he)
      rw [List.find?_cons_of_neg (by simpa using other), ih ordered he]

/-- **A scope has the values of the instructions before it.** -/
theorem scope_values {p : Program} {L : List Instruction}
    (h : L.Pairwise fun a b => a.id < b.id) {e : Instruction} (he : e ∈ L) :
    (p.fragment.scope (L.map (lineOf p.target))).values e.id = some (.ofKind e.kind) := by
  have found : L.find? ((fun l : Let => l.id = e.id) ∘ lineOf p.target) = some e := find?_id h he
  rw [Fragment.scope]
  simp only [List.find?_map, found, Option.map_some]
  rfl

/-- A number that no instruction has is no value. -/
theorem scope_values_none {p : Program} {L : List Instruction} {id : Nat} (h : ∀ e ∈ L, e.id ≠ id) :
    (p.fragment.scope (L.map (lineOf p.target))).values id = none := by
  have found : L.find? ((fun l : Let => l.id = id) ∘ lineOf p.target) = none :=
    List.find?_eq_none.mpr fun e he => by
      rw [Function.comp_apply, lineOf, decide_eq_true_iff]
      exact h e he
  rw [Fragment.scope]
  simp only [List.find?_map, found, Option.map_none]

/-! ## 4. Stages -/

/-- **The line of an instruction has the type that it says**, unless it is inexpressible. -/
theorem hasType_of_fits {s : Scope} {L : List Instruction} {textures : Nat} {i : Instruction}
    (fits : i.Fits L textures) (finite : i.IsFinite)
    (named : ∀ id k, Shading.Refers L i.id id k → s.values id = some (.ofKind k))
    (bound : textures ≤ s.textures) (inverts : i.inverts = true → s.invertsMatrices = true)
    {target : Extent} (hs : ¬ (lineOf target i).IsInexpressible) :
    HasType s (i.expr target) (.ofKind i.kind) := by
  obtain ⟨id, kind, term⟩ := i
  cases term with
  | float x =>
    obtain rfl : kind = .f32 := fits
    exact .float (isFloat_of_isFinite (finite x rfl))
  | integer n =>
    obtain rfl : kind = .i32 := fits
    refine .integer ((isInteger_iff n).mpr ?_)
    rintro rfl
    exact hs (.inl rfl)
  | boolean b =>
    obtain rfl : kind = .bool := fits
    exact .boolean
  | texel slot =>
    obtain ⟨rfl, lt⟩ : kind = .vec4 ∧ slot < textures := fits
    exact .texel (Nat.lt_of_lt_of_le lt bound)
  | position =>
    obtain rfl : kind = .vec2 := fits
    exact .position
  | resolution =>
    obtain rfl : kind = .vec2 := fits
    have number := fun n : UInt32 => HasType.float (s := s)
      (isFloat_of_isFinite (Single.isFinite_toFloat32 n))
    exact .make (.cons (number _) (.cons (number _) .nil)) rfl
  | construct parts =>
    obtain ⟨kinds, refers, built⟩ := fits
    exact .make (hasType_operands named refers) (constructs_of_constructed? built)
  | apply op operands =>
    obtain ⟨kinds, refers, result, lane⟩ := fits
    refine hasType_apply named refers result lane ?_ ?_
    · rintro ⟨rfl, rfl⟩
      exact hs (.inr ⟨rfl, _, rfl⟩)
    · rintro rfl
      exact inverts rfl

/-- **The colour of a value is a vector of four lanes**, whichever kind can be drawn. -/
theorem hasType_colour {s : Scope} {kind : Kind} {value : Expr} (hd : kind.isDrawable = true)
    (hv : HasType s value (.ofKind kind)) :
    HasType s (Shading.colourExpr kind value) (.vec 4) := by
  have zero : HasType s (.float 0) .f32 := .float (isFloat_of_isFinite rfl)
  have one : HasType s (.float 1) .f32 := .float (isFloat_of_isFinite rfl)
  cases kind with
  | f32 => exact .make (.cons hv (.cons hv (.cons hv (.cons one .nil)))) rfl
  | i32 =>
    have number : HasType s (.make .f32 [value]) .f32 := .make (.cons hv .nil) rfl
    have grey : HasType s (.make .vec3 [.make .f32 [value]]) (.vec 3) :=
      .make (.cons number .nil) rfl
    exact .make (.cons grey (.cons one .nil)) rfl
  | bool =>
    have number : HasType s (.call .select [.float 0, .float 1, value]) .f32 :=
      .call (.cons zero (.cons one (.cons hv .nil))) rfl
    have grey : HasType s (.make .vec3 [.call .select [.float 0, .float 1, value]]) (.vec 3) :=
      .make (.cons number .nil) rfl
    exact .make (.cons grey (.cons one .nil)) rfl
  | vec2 => exact .make (.cons hv (.cons zero (.cons one .nil))) rfl
  | vec3 => exact .make (.cons hv (.cons one .nil)) rfl
  | vec4 => exact hv
  | mat3 => cases hd

/-- **Which lines are typed.** The program of a node that can be drawn, of any recorded graph: its
    lines have the types that they say, each over the values of the lines before it, except where
    a line is the least integer or chooses between matrices. Its colour always has its type. -/
theorem emitted_lines_are_typed {id : Nat} {target : Extent} {g : Shading.Graph}
    {nodes : List Shading.Node} (h : Shading.Recorded id target g nodes) {out : Shading.Node}
    (hout : out ∈ nodes) (hd : out.kind.isDrawable = true) :
    ∃ p, g.compile out = .ok p ∧
      (∀ before l after, p.fragment.lines = before ++ l :: after →
        (l.IsTyped (p.fragment.scope before) ↔ ¬ l.IsInexpressible)) ∧
      p.fragment.ReturnIsTyped := by
  obtain ⟨compiled, sound⟩ := h.sound.compile hout hd
  have finite := Shading.isFinite_lower h.isFinite out.id g.target
  generalize Program.lower g.instructions.toList out.id g.target = p at compiled sound finite
  have ordered := sound.wellTyped.ordered
  refine ⟨p, compiled, fun before l after split => ?_, ?_⟩
  · rw [lines_fragment, List.map_eq_append_iff] at split
    obtain ⟨done, rest, whole, rfl, behind⟩ := split
    obtain ⟨i, rest', rfl, rfl, rfl⟩ := List.map_eq_cons_iff.mp behind
    have mem : i ∈ p.instructions := by
      rw [whole]
      exact List.mem_append_right _ List.mem_cons_self
    rw [whole] at ordered
    constructor
    · exact fun typed inexpressible => inexpressible.not_isTyped typed
    · intro expressible
      refine ⟨scope_values_none fun e he => Nat.ne_of_lt (Shading.id_lt_of_mem ordered he), ?_⟩
      refine hasType_of_fits (sound.wellTyped.fits i mem) (finite i mem) ?_ (Nat.le_refl _) ?_
        expressible
      · rintro id k ⟨lt, e, he, rfl, rfl⟩
        rw [whole] at he
        exact scope_values (List.pairwise_append.mp ordered).1
          (Shading.mem_of_id_lt ordered he lt)
      · exact fun inverts => List.any_eq_true.mpr ⟨i, mem, inverts⟩
  · obtain ⟨e, he, output, drawable⟩ := sound.output
    have kind : p.outputKind = e.kind := by
      rw [Program.outputKind, ← output, find?_id ordered he]
    have value : (p.fragment.scope p.fragment.lines).values p.output = some (.ofKind e.kind) := by
      rw [← output]
      exact scope_values ordered he
    have colour := hasType_colour drawable (.var value)
    rw [← kind] at colour
    exact colour

/-- Lines with a texture, a member, a number and a sum all have their types. -/
theorem mossGraph_is_typed :
    ∃ p, (Shading.mossGraph 6).compile ⟨0, 5, .f32⟩ = .ok p ∧
      (p.fragment.lines.map Let.id = [1, 2, 4, 5]) ∧
      (∀ before l after, p.fragment.lines = before ++ l :: after →
        l.IsTyped (p.fragment.scope before)) ∧
      p.fragment.ReturnIsTyped := by
  have mem : (⟨0, 5, .f32⟩ : Shading.Node) ∈ Shading.mossNodes 6 := List.mem_cons_self
  obtain ⟨p, compiled, typed, colour⟩ := emitted_lines_are_typed Shading.recorded_mossGraph mem rfl
  obtain rfl := Except.ok.inj compiled
  refine ⟨_, compiled, rfl, fun before l after split => (typed before l after split).mpr ?_, colour⟩
  have lines : (Program.lower Shading.mossInstructions 5 ⟨1, 1⟩).fragment.lines =
      [⟨1, .vec4, .texel 0⟩, ⟨2, .f32, .member (.var 1) .x⟩, ⟨4, .f32, .float 0.5⟩,
        ⟨5, .f32, .binary .add (.var 2) (.var 4)⟩] := rfl
  have mem : l ∈ [_, _, _, _] := lines ▸ split ▸ List.mem_append_right _ List.mem_cons_self
  simp only [List.mem_cons, List.not_mem_nil, or_false] at mem
  rcases mem with rfl | rfl | rfl | rfl <;> rintro (h | ⟨h, _⟩) <;> cases h

/-- A vector that is turned by one of two matrices, and scaled by the least integer. -/
def scaleInstructions : List Instruction :=
  [⟨0, .i32, .integer Int32.minValue⟩, ⟨1, .f32, .float 1⟩, ⟨2, .vec3, .construct [1, 1, 1]⟩,
    ⟨3, .mat3, .construct [2, 2, 2]⟩, ⟨4, .bool, .boolean true⟩,
    ⟨5, .mat3, .apply (.builtin .select) [3, 3, 4]⟩, ⟨6, .vec3, .apply (.binary .mul) [5, 2]⟩,
    ⟨7, .f32, .apply .toFloat [0]⟩, ⟨8, .vec3, .apply (.binary .mul) [6, 7]⟩]

/-- The graph after so many calls. -/
def scaleGraph (calls : Nat) : Shading.Graph where
  id := 0
  target := ⟨1, 1⟩
  instructions := (scaleInstructions.take calls).toArray
  textures := #[]

/-- The nodes that so many calls have answered, the last one first. -/
def scaleNodes (calls : Nat) : List Shading.Node :=
  ((scaleInstructions.take calls).map fun i => ⟨0, i.id, i.kind⟩).reverse

theorem recorded_scaleGraph : Shading.Recorded 0 ⟨1, 1⟩ (scaleGraph 9) (scaleNodes 9) := by
  have r0 : Shading.Recorded 0 ⟨1, 1⟩ (scaleGraph 0) (scaleNodes 0) := .empty
  have r1 : Shading.Recorded 0 ⟨1, 1⟩ (scaleGraph 1) (scaleNodes 1) :=
    .record r0 (.integer Int32.minValue) (by decide) rfl
  have r2 : Shading.Recorded 0 ⟨1, 1⟩ (scaleGraph 2) (scaleNodes 2) :=
    .record r1 (.float 1) (by decide) rfl
  have r3 : Shading.Recorded 0 ⟨1, 1⟩ (scaleGraph 3) (scaleNodes 3) :=
    .record r2 (.construct [⟨0, 1, .f32⟩, ⟨0, 1, .f32⟩, ⟨0, 1, .f32⟩]) (by decide) rfl
  have r4 : Shading.Recorded 0 ⟨1, 1⟩ (scaleGraph 4) (scaleNodes 4) :=
    .record r3 (.construct [⟨0, 2, .vec3⟩, ⟨0, 2, .vec3⟩, ⟨0, 2, .vec3⟩]) (by decide) rfl
  have r5 : Shading.Recorded 0 ⟨1, 1⟩ (scaleGraph 5) (scaleNodes 5) :=
    .record r4 (.boolean true) (by decide) rfl
  have r6 : Shading.Recorded 0 ⟨1, 1⟩ (scaleGraph 6) (scaleNodes 6) :=
    .record r5 (.apply (.builtin .select) [⟨0, 3, .mat3⟩, ⟨0, 3, .mat3⟩, ⟨0, 4, .bool⟩])
      (by decide) rfl
  have r7 : Shading.Recorded 0 ⟨1, 1⟩ (scaleGraph 7) (scaleNodes 7) :=
    .record r6 (.apply (.binary .mul) [⟨0, 5, .mat3⟩, ⟨0, 2, .vec3⟩]) (by decide) rfl
  have r8 : Shading.Recorded 0 ⟨1, 1⟩ (scaleGraph 8) (scaleNodes 8) :=
    .record r7 (.apply .toFloat [⟨0, 0, .i32⟩]) (by decide) rfl
  exact .record r8 (.apply (.binary .mul) [⟨0, 6, .vec3⟩, ⟨0, 7, .f32⟩]) (by decide) rfl

/-- Of the nine lines of a program, the least integer and the choice have no type. -/
theorem scaleGraph_is_not_typed :
    ∃ p, Shading.Recorded 0 ⟨1, 1⟩ (scaleGraph 9) (scaleNodes 9) ∧
      (⟨0, 8, .vec3⟩ : Shading.Node) ∈ scaleNodes 9 ∧
      (scaleGraph 9).compile ⟨0, 8, .vec3⟩ = .ok p ∧
      (∃ l after, p.fragment.lines = l :: after ∧ l.value = .integer Int32.minValue ∧
        ¬ l.IsTyped (p.fragment.scope [])) ∧
      ∃ before l after, p.fragment.lines = before ++ l :: after ∧ l.kind = .mat3 ∧
        l.value = .call .select [.var 3, .var 3, .var 4] ∧
        ¬ l.IsTyped (p.fragment.scope before) := by
  have compiled : (scaleGraph 9).compile ⟨0, 8, .vec3⟩ =
      .ok (.lower scaleInstructions 8 ⟨1, 1⟩) := rfl
  have lines : (Program.lower scaleInstructions 8 ⟨1, 1⟩).fragment.lines =
      scaleInstructions.map (lineOf ⟨1, 1⟩) := rfl
  refine ⟨_, recorded_scaleGraph, List.mem_cons_self, compiled, ⟨_, _, lines, rfl, ?_⟩,
    (scaleInstructions.take 5).map (lineOf ⟨1, 1⟩), lineOf ⟨1, 1⟩
      ⟨5, .mat3, .apply (.builtin .select) [3, 3, 4]⟩,
    (scaleInstructions.drop 6).map (lineOf ⟨1, 1⟩), lines, rfl, rfl, ?_⟩
  · exact Let.IsInexpressible.not_isTyped (.inl rfl)
  · exact Let.IsInexpressible.not_isTyped (.inr ⟨rfl, _, rfl⟩)

end Relief.Wgsl
