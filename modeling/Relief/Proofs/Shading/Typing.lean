import Mathlib.Data.List.Basic
import Relief.Shading.Graph
import Relief.Shading.Value

/-!
# Operators keep to their kinds

What an operator makes of values is a value of the kind that its table of kinds foretells.

* `Yields`: there is a value, and it is of a given kind;
* `map?_yields`, `zip?_yields`, `zip3?_yields`: functions of lanes;
* `evaluate?_yields`: **an operator that takes operands of their kinds has a value, of the kind of
  its result**;
* `construct?_yields`: so has a construction.
-/

namespace Relief.Shading

/-- There is a value, and it is of the kind. -/
def Yields (v? : Option Value) (k : Kind) : Prop :=
  ∃ v, v? = some v ∧ v.kind = k

theorem Yields.some {v : Value} {k : Kind} (h : v.kind = k) : Yields (some v) k := ⟨v, rfl, h⟩

/-! ## 1. Lanes -/

namespace Value

/-- A value with floating-point lanes has as many of them as its kind has components. -/
theorem exists_lanes {v : Value} (h : v.kind.isFloating = true) :
    ∃ lanes, v.lanes? = some lanes ∧ lanes.length = v.kind.components := by
  cases v with
  | float x => exact ⟨[x], rfl, rfl⟩
  | vec2 x y => exact ⟨[x, y], rfl, rfl⟩
  | vec3 v => exact ⟨v.toList, rfl, rfl⟩
  | vec4 x y z w => exact ⟨[x, y, z, w], rfl, rfl⟩
  | integer i => exact absurd h Bool.false_ne_true
  | boolean b => exact absurd h Bool.false_ne_true
  | mat3 m => exact absurd h Bool.false_ne_true

/-- As many lanes as a kind has components make a value of that kind. -/
theorem ofLanes?_yields {lanes : List Float32} {k : Kind} (hk : k.isFloating = true)
    (hl : lanes.length = k.components) : Yields (ofLanes? lanes) k := by
  cases k with
  | f32 =>
    obtain ⟨x, rfl⟩ := List.length_eq_one_iff.mp hl
    exact .some rfl
  | vec2 =>
    obtain ⟨x, y, rfl⟩ := List.length_eq_two.mp hl
    exact .some rfl
  | vec3 =>
    obtain ⟨x, y, z, rfl⟩ := List.length_eq_three.mp hl
    exact .some rfl
  | vec4 =>
    obtain ⟨x, y, z, w, rfl⟩ := List.length_eq_four.mp hl
    exact .some rfl
  | i32 => cases hk
  | bool => cases hk
  | mat3 => cases hk

theorem spread_of_length_eq {n : Nat} {lanes : List Float32} (h : lanes.length = n) :
    spread n lanes = lanes := by
  unfold spread
  split
  · subst h
    rfl
  · rfl

theorem length_spread_one (n : Nat) (x : Float32) : (spread n [x]).length = n :=
  List.length_replicate

theorem isFloating_of_isVector {k : Kind} (h : k.isVector = true) : k.isFloating = true := by
  rw [Kind.isFloating, h, Bool.or_true]

/-- A function of each lane gives a value of the same kind. -/
theorem map?_yields (f : Float32 → Float32) {a : Value} (h : a.kind.isFloating = true) :
    Yields (a.map? f) a.kind := by
  obtain ⟨lanes, e, length⟩ := exists_lanes h
  rw [map?, e, Option.bind_some]
  exact ofLanes?_yields h (by rw [List.length_map, length])

section Zip

variable (f : Float32 → Float32 → Float32) {a b : Value}

/-- A function of pairs of lanes, where they go together. -/
theorem zip?_yields_of_spread {as bs : List Float32} {k : Kind} (hk : k.isFloating = true)
    (ha : a.lanes? = some as) (hb : b.lanes? = some bs)
    (has : (spread (max as.length bs.length) as).length = k.components)
    (hbs : (spread (max as.length bs.length) bs).length = k.components) :
    Yields (a.zip? f b) k := by
  simp only [zip?, ha, hb]
  rw [if_pos (has.trans hbs.symm)]
  exact ofLanes?_yields hk (by rw [List.length_zipWith, has, hbs, Nat.min_self])

/-- A function of the lanes of two values of one kind gives a value of that kind. -/
theorem zip?_yields (h : a.kind.isFloating = true) (hab : a.kind = b.kind) :
    Yields (a.zip? f b) a.kind := by
  obtain ⟨as, ea, la⟩ := exists_lanes h
  obtain ⟨bs, eb, lb⟩ := exists_lanes (hab ▸ h)
  have n : max as.length bs.length = a.kind.components := by
    rw [la, lb, ← hab, Nat.max_self]
  refine zip?_yields_of_spread f h ea eb ?_ ?_
  · rw [n, spread_of_length_eq la, la]
  · rw [n, spread_of_length_eq (lb.trans (congrArg _ hab.symm)), lb, ← hab]

theorem components_pos (k : Kind) : 1 ≤ k.components := by
  cases k <;> decide

/-- A lone lane on the right goes with every lane on the left. -/
theorem zip?_yields_left (h : a.kind.isFloating = true) (hb : b.kind = .f32) :
    Yields (a.zip? f b) a.kind := by
  obtain ⟨as, ea, la⟩ := exists_lanes h
  obtain ⟨bs, eb, lb⟩ := exists_lanes (v := b) (by rw [hb]; rfl)
  rw [hb] at lb
  obtain ⟨x, rfl⟩ := List.length_eq_one_iff.mp lb
  have n : max as.length 1 = a.kind.components := by
    rw [la]
    exact Nat.max_eq_left (components_pos _)
  refine zip?_yields_of_spread f h ea eb ?_ ?_
  · rw [List.length_singleton, n, spread_of_length_eq la, la]
  · rw [List.length_singleton, n, length_spread_one]

/-- A lone lane on the left goes with every lane on the right. -/
theorem zip?_yields_right (h : b.kind.isFloating = true) (ha : a.kind = .f32) :
    Yields (a.zip? f b) b.kind := by
  obtain ⟨bs, eb, lb⟩ := exists_lanes h
  obtain ⟨as, ea, la⟩ := exists_lanes (v := a) (by rw [ha]; rfl)
  rw [ha] at la
  obtain ⟨x, rfl⟩ := List.length_eq_one_iff.mp la
  have n : max 1 bs.length = b.kind.components := by
    rw [lb]
    exact Nat.max_eq_right (components_pos _)
  refine zip?_yields_of_spread f h ea eb ?_ ?_
  · rw [List.length_singleton, n, length_spread_one]
  · rw [List.length_singleton, n, spread_of_length_eq lb, lb]

end Zip

/-- A function of the lanes of three values of one kind gives a value of that kind. -/
theorem zip3?_yields (f : Float32 → Float32 → Float32 → Float32) {a b c : Value}
    (h : a.kind.isFloating = true) (hb : b.kind = a.kind) (hc : c.kind = a.kind) :
    Yields (a.zip3? f b c) a.kind := by
  obtain ⟨as, ea, la⟩ := exists_lanes h
  obtain ⟨bs, eb, lb⟩ := exists_lanes (v := b) (by rw [hb]; exact h)
  obtain ⟨cs, ec, lc⟩ := exists_lanes (v := c) (by rw [hc]; exact h)
  rw [hb] at lb
  rw [hc] at lc
  simp only [zip3?, ea, eb, ec, la, lb, lc, Nat.max_self, spread_of_length_eq la,
    spread_of_length_eq lb, spread_of_length_eq lc, and_self, if_true]
  refine ofLanes?_yields h ?_
  rw [List.length_map, List.length_zip, List.length_zip, la, lb, lc, Nat.min_self, Nat.min_self]

/-- Vectors of one kind have a scalar product. -/
theorem exists_dot {a b : Value} (h : a.kind.isFloating = true) (hab : a.kind = b.kind) :
    ∃ x, a.dot? b = some x := by
  obtain ⟨as, ea, la⟩ := exists_lanes h
  obtain ⟨bs, eb, lb⟩ := exists_lanes (hab ▸ h)
  have length : as.length = bs.length := by rw [la, lb, hab]
  refine Option.isSome_iff_exists.mp ?_
  simp only [dot?, ea, eb, if_pos length, Option.isSome_some]

theorem exists_length {a : Value} (h : a.kind.isFloating = true) :
    ∃ x, a.length? = some x := by
  obtain ⟨x, e⟩ := exists_dot h rfl
  exact ⟨x.sqrt, by rw [length?, e]; rfl⟩

end Value

/-! ## 2. Signs -/

/-- Two operands of one kind of a class. -/
theorem same?_eq_some {p : Kind → Bool} {a b k : Kind} (h : same? p a b = some k) :
    a = b ∧ p a = true ∧ a = k := by
  unfold same? at h
  split at h
  · rename_i hp
    exact ⟨hp.1, hp.2, Option.some.inj h⟩
  · cases h

/-- Numbers are integers or have floating-point lanes. -/
theorem isNumeric_cases {k : Kind} (h : k.isNumeric = true) : k = .i32 ∨ k.isFloating = true := by
  simpa [Kind.isNumeric] using h

theorem exists_integer {v : Value} (h : v.kind = .i32) : ∃ i, v = .integer i := by
  cases v <;> first | exact ⟨_, rfl⟩ | cases h

theorem exists_float {v : Value} (h : v.kind = .f32) : ∃ x, v = .float x := by
  cases v <;> first | exact ⟨_, rfl⟩ | cases h

theorem exists_boolean {v : Value} (h : v.kind = .bool) : ∃ b, v = .boolean b := by
  cases v <;> first | exact ⟨_, rfl⟩ | cases h

theorem exists_vec3 {v : Value} (h : v.kind = .vec3) : ∃ w, v = .vec3 w := by
  cases v <;> first | exact ⟨_, rfl⟩ | cases h

theorem exists_mat3 {v : Value} (h : v.kind = .mat3) : ∃ m, v = .mat3 m := by
  cases v <;> first | exact ⟨_, rfl⟩ | cases h

namespace BinaryOp

variable {op : BinaryOp} {a b : Value} {k : Kind}

/-- Arithmetic on floating-point lanes goes lane by lane. -/
theorem arithmetic?_of_isFloating (h : a.kind.isFloating = true) :
    op.arithmetic? a b = a.zip? op.onLanes b := by
  cases a with
  | integer i => cases h
  | boolean b => cases h
  | mat3 m => cases h
  | _ => rfl

/-- Arithmetic on numbers of one kind gives one of that kind. -/
theorem arithmetic?_yields (h : same? Kind.isNumeric a.kind b.kind = some k) :
    Yields (op.arithmetic? a b) k := by
  obtain ⟨hab, ha, rfl⟩ := same?_eq_some h
  rcases isNumeric_cases ha with integer | floating
  · obtain ⟨i, rfl⟩ := exists_integer integer
    obtain ⟨j, rfl⟩ := exists_integer (hab ▸ integer)
    exact .some rfl
  · rw [arithmetic?_of_isFloating floating]
    exact Value.zip?_yields _ floating hab

/-- Products: besides numbers of one kind, vectors with lanes, and matrices. -/
theorem mul_yields (h : mul.result? a.kind b.kind = some k) : Yields (mul.arithmetic? a b) k := by
  simp only [result?] at h
  split at h
  · rename_i hv
    obtain rfl := Option.some.inj h
    have floating := Value.isFloating_of_isVector hv.1
    rw [arithmetic?_of_isFloating floating]
    exact Value.zip?_yields_left _ floating hv.2
  · split at h
    · rename_i hv
      obtain rfl := Option.some.inj h
      rw [arithmetic?_of_isFloating (by rw [hv.1]; rfl)]
      exact Value.zip?_yields_right _ (Value.isFloating_of_isVector hv.2) hv.1
    · split at h
      · rename_i hm
        obtain rfl := Option.some.inj h
        obtain ⟨m, rfl⟩ := exists_mat3 hm.1
        rcases hm.2 with hb | hb
        · obtain ⟨n, rfl⟩ := exists_mat3 hb
          exact .some rfl
        · obtain ⟨v, rfl⟩ := exists_vec3 hb
          exact .some rfl
      · exact arithmetic?_yields h

/-- Quotients: besides numbers of one kind, vectors by a lane. -/
theorem div_yields (h : div.result? a.kind b.kind = some k) : Yields (div.arithmetic? a b) k := by
  simp only [result?] at h
  split at h
  · rename_i hv
    obtain rfl := Option.some.inj h
    have floating := Value.isFloating_of_isVector hv.1
    rw [arithmetic?_of_isFloating floating]
    exact Value.zip?_yields_left _ floating hv.2
  · exact arithmetic?_yields h

/-- What can be compared compares, and the answer is a truth value. -/
theorem compare?_yields
    (h : (same? Kind.isOrdered a.kind b.kind).map (fun _ => Kind.bool) = some k) :
    Yields ((compare? a b).map fun o => .boolean (op.holds o)) k := by
  obtain ⟨same, hs, rfl⟩ := Option.map_eq_some_iff.mp h
  obtain ⟨hab, ordered, _⟩ := same?_eq_some hs
  cases a with
  | float x =>
    obtain ⟨y, rfl⟩ := exists_float hab.symm
    exact .some rfl
  | integer i =>
    obtain ⟨j, rfl⟩ := exists_integer hab.symm
    exact .some rfl
  | _ => cases ordered

/-- **A sign between operands of its kinds gives a value of the kind of its result.** -/
theorem evaluate?_yields (h : op.result? a.kind b.kind = some k) :
    Yields (op.evaluate? a b) k := by
  cases op with
  | add => exact arithmetic?_yields h
  | sub => exact arithmetic?_yields h
  | mul => exact mul_yields h
  | div => exact div_yields h
  | lt => exact compare?_yields h
  | le => exact compare?_yields h
  | gt => exact compare?_yields h
  | ge => exact compare?_yields h
  | eq => exact compare?_yields h
  | ne => exact compare?_yields h
  | and =>
    simp only [result?] at h
    obtain ⟨hab, ha, rfl⟩ := same?_eq_some h
    obtain ⟨p, rfl⟩ := exists_boolean (of_decide_eq_true ha)
    obtain ⟨q, rfl⟩ := exists_boolean hab.symm
    exact .some rfl
  | or =>
    simp only [result?] at h
    obtain ⟨hab, ha, rfl⟩ := same?_eq_some h
    obtain ⟨p, rfl⟩ := exists_boolean (of_decide_eq_true ha)
    obtain ⟨q, rfl⟩ := exists_boolean hab.symm
    exact .some rfl

end BinaryOp

/-- **So does a sign before its operand.** -/
theorem UnaryOp.evaluate?_yields {op : UnaryOp} {a : Value} {k : Kind}
    (h : op.result? a.kind = some k) : Yields (op.evaluate? a) k := by
  cases op with
  | neg =>
    simp only [UnaryOp.result?] at h
    split at h
    · rename_i ha
      obtain rfl := Option.some.inj h
      rcases isNumeric_cases ha with integer | floating
      · obtain ⟨i, rfl⟩ := exists_integer integer
        exact .some rfl
      · have lanes : UnaryOp.neg.evaluate? a = a.map? fun x => -x := by
          cases a with
          | integer i => cases floating
          | _ => rfl
        rw [lanes]
        exact Value.map?_yields _ floating
    · cases h
  | not =>
    simp only [UnaryOp.result?] at h
    split at h
    · rename_i ha
      obtain rfl := Option.some.inj h
      obtain ⟨b, rfl⟩ := exists_boolean ha
      exact .some rfl
    · cases h

/-! ## 3. Functions -/

namespace Builtin

/-- How many operands a function takes. -/
def arity : Builtin → Nat
  | sin | cos | tan | sqrt | abs | floor | length | normalize => 1
  | atan2 | pow | dot | min | max | step => 2
  | clamp | mix | select => 3

theorem length_of_result? {f : Builtin} {kinds : List Kind} {k : Kind}
    (h : f.result? kinds = some k) : kinds.length = f.arity := by
  rcases kinds with _ | ⟨a, _ | ⟨b, _ | ⟨c, _ | ⟨d, rest⟩⟩⟩⟩ <;>
    cases f <;> first | rfl | cases h

/-- What is left of a condition on a kind that is handed through. -/
theorem of_ite_eq_some {p : Prop} [Decidable p] {a k : Kind}
    (h : (if p then some a else none) = some k) : p ∧ a = k := by
  split at h
  · rename_i hp
    exact ⟨hp, Option.some.inj h⟩
  · cases h

section Lanes

variable {a b c : Value} {k : Kind}

theorem map_yields (f : Float32 → Float32)
    (h : (if a.kind.isFloating = true then some a.kind else none) = some k) :
    Yields (a.map? f) k := by
  obtain ⟨floating, rfl⟩ := of_ite_eq_some h
  exact Value.map?_yields f floating

theorem zip_yields (f : Float32 → Float32 → Float32)
    (h : same? Kind.isFloating a.kind b.kind = some k) : Yields (a.zip? f b) k := by
  obtain ⟨hab, floating, rfl⟩ := same?_eq_some h
  exact Value.zip?_yields f floating hab

theorem magnitude_yields (h : (if a.kind.isNumeric = true then some a.kind else none) = some k) :
    Yields (abs.evaluate? [a]) k := by
  obtain ⟨numeric, rfl⟩ := of_ite_eq_some h
  rcases isNumeric_cases numeric with integer | floating
  · obtain ⟨i, rfl⟩ := exists_integer integer
    exact .some rfl
  · have lanes : abs.evaluate? [a] = a.map? Float32.abs := by
      cases a with
      | integer i => cases floating
      | _ => rfl
    rw [lanes]
    exact Value.map?_yields _ floating

/-- A function that has one meaning for integers and another for lanes. -/
theorem numbers_yield {f : Builtin} {g : Float32 → Float32 → Float32}
    (h : same? Kind.isNumeric a.kind b.kind = some k)
    (integers : ∀ i j, Yields (f.evaluate? [.integer i, .integer j]) .i32)
    (lanes : a.kind.isFloating = true → f.evaluate? [a, b] = a.zip? g b) :
    Yields (f.evaluate? [a, b]) k := by
  obtain ⟨hab, numeric, rfl⟩ := same?_eq_some h
  rcases isNumeric_cases numeric with integer | floating
  · obtain ⟨i, rfl⟩ := exists_integer integer
    obtain ⟨j, rfl⟩ := exists_integer (hab ▸ integer)
    exact integers i j
  · rw [lanes floating]
    exact Value.zip?_yields _ floating hab

theorem min_yields (h : same? Kind.isNumeric a.kind b.kind = some k) :
    Yields (min.evaluate? [a, b]) k := by
  refine numbers_yield (g := least) h (fun i j => .some rfl) fun floating => ?_
  cases a with
  | integer i => cases floating
  | _ => rfl

theorem max_yields (h : same? Kind.isNumeric a.kind b.kind = some k) :
    Yields (max.evaluate? [a, b]) k := by
  refine numbers_yield (g := greatest) h (fun i j => .some rfl) fun floating => ?_
  cases a with
  | integer i => cases floating
  | _ => rfl

theorem clamp_yields
    (h : (if b.kind = c.kind then same? Kind.isNumeric a.kind b.kind else none) = some k) :
    Yields (clamp.evaluate? [a, b, c]) k := by
  split at h
  · rename_i hbc
    obtain ⟨hab, numeric, rfl⟩ := same?_eq_some h
    rcases isNumeric_cases numeric with integer | floating
    · obtain ⟨i, rfl⟩ := exists_integer integer
      obtain ⟨low, rfl⟩ := exists_integer (hab ▸ integer)
      obtain ⟨high, rfl⟩ := exists_integer (hbc ▸ hab ▸ integer)
      exact .some rfl
    · have lanes : clamp.evaluate? [a, b, c]
          = a.zip3? (fun x l h => least (greatest x l) h) b c := by
        cases a with
        | integer i => cases floating
        | _ => rfl
      rw [lanes]
      exact Value.zip3?_yields _ floating hab.symm (hab.trans hbc).symm
  · cases h

theorem mix_yields
    (h : (if b.kind = c.kind then same? Kind.isFloating a.kind b.kind else none) = some k) :
    Yields (a.zip3? blend b c) k := by
  split at h
  · rename_i hbc
    obtain ⟨hab, floating, rfl⟩ := same?_eq_some h
    exact Value.zip3?_yields _ floating hab.symm (hab.trans hbc).symm
  · cases h

theorem length_yields (h : (if a.kind.isVector = true then some Kind.f32 else none) = some k) :
    Yields (a.length?.map .float) k := by
  obtain ⟨vector, rfl⟩ := of_ite_eq_some h
  obtain ⟨x, e⟩ := Value.exists_length (Value.isFloating_of_isVector vector)
  rw [e]
  exact .some rfl

theorem normalize_yields (h : (if a.kind.isVector = true then some a.kind else none) = some k) :
    Yields (a.length?.bind fun length => a.map? (· / length)) k := by
  obtain ⟨vector, rfl⟩ := of_ite_eq_some h
  have floating := Value.isFloating_of_isVector vector
  obtain ⟨x, e⟩ := Value.exists_length floating
  rw [e]
  exact Value.map?_yields _ floating

theorem dot_yields
    (h : (same? Kind.isVector a.kind b.kind).map (fun _ => Kind.f32) = some k) :
    Yields ((a.dot? b).map .float) k := by
  obtain ⟨same, hs, rfl⟩ := Option.map_eq_some_iff.mp h
  obtain ⟨hab, vector, _⟩ := same?_eq_some hs
  obtain ⟨x, e⟩ := Value.exists_dot (Value.isFloating_of_isVector vector) hab
  rw [e]
  exact .some rfl

theorem select_yields
    (h : (if a.kind = b.kind ∧ c.kind = .bool then some a.kind else none) = some k) :
    Yields (select.evaluate? [a, b, c]) k := by
  obtain ⟨⟨hab, hc⟩, rfl⟩ := of_ite_eq_some h
  obtain ⟨chosen, rfl⟩ := exists_boolean hc
  refine ⟨if chosen then b else a, rfl, ?_⟩
  cases chosen with
  | true => exact hab.symm
  | false => rfl

end Lanes

/-- **A function of operands of its kinds has a value of the kind of its result.** -/
theorem evaluate?_yields {f : Builtin} {values : List Value} {k : Kind}
    (h : f.result? (values.map Value.kind) = some k) : Yields (f.evaluate? values) k := by
  have length := length_of_result? h
  rw [List.length_map] at length
  cases f with
  | sin => obtain ⟨a, rfl⟩ := List.length_eq_one_iff.mp length; exact map_yields _ h
  | cos => obtain ⟨a, rfl⟩ := List.length_eq_one_iff.mp length; exact map_yields _ h
  | tan => obtain ⟨a, rfl⟩ := List.length_eq_one_iff.mp length; exact map_yields _ h
  | sqrt => obtain ⟨a, rfl⟩ := List.length_eq_one_iff.mp length; exact map_yields _ h
  | floor => obtain ⟨a, rfl⟩ := List.length_eq_one_iff.mp length; exact map_yields _ h
  | abs => obtain ⟨a, rfl⟩ := List.length_eq_one_iff.mp length; exact magnitude_yields h
  | length => obtain ⟨a, rfl⟩ := List.length_eq_one_iff.mp length; exact length_yields h
  | normalize => obtain ⟨a, rfl⟩ := List.length_eq_one_iff.mp length; exact normalize_yields h
  | atan2 =>
    obtain ⟨a, b, rfl⟩ := List.length_eq_two.mp length
    simp only [List.map_cons, List.map_nil, result?] at h
    obtain ⟨hab, lane, rfl⟩ := same?_eq_some h
    exact Value.zip?_yields _ (by rw [of_decide_eq_true lane]; rfl) hab
  | pow => obtain ⟨a, b, rfl⟩ := List.length_eq_two.mp length; exact zip_yields _ h
  | step => obtain ⟨a, b, rfl⟩ := List.length_eq_two.mp length; exact zip_yields _ h
  | min => obtain ⟨a, b, rfl⟩ := List.length_eq_two.mp length; exact min_yields h
  | max => obtain ⟨a, b, rfl⟩ := List.length_eq_two.mp length; exact max_yields h
  | dot => obtain ⟨a, b, rfl⟩ := List.length_eq_two.mp length; exact dot_yields h
  | clamp => obtain ⟨a, b, c, rfl⟩ := List.length_eq_three.mp length; exact clamp_yields h
  | mix => obtain ⟨a, b, c, rfl⟩ := List.length_eq_three.mp length; exact mix_yields h
  | select => obtain ⟨a, b, c, rfl⟩ := List.length_eq_three.mp length; exact select_yields h

end Builtin

/-! ## 4. Operators and constructions -/

/-- Whether a vector of the given kind has the lane that an operator asks for. -/
def Operator.LaneFits : Operator → List Kind → Prop
  | lane index, [k] => index < k.components
  | _, _ => True

/-- A lane that a vector has. -/
theorem lane_yields {a : Value} {index : Nat} {k : Kind}
    (h : (if a.kind.isVector = true then some Kind.f32 else none) = some k)
    (hl : index < a.kind.components) :
    Yields (a.lanes?.bind fun lanes => lanes[index]?.map .float) k := by
  split at h
  · rename_i vector
    obtain rfl := Option.some.inj h
    obtain ⟨lanes, e, length⟩ := Value.exists_lanes (Value.isFloating_of_isVector vector)
    rw [e, Option.bind_some, List.getElem?_eq_getElem (length ▸ hl)]
    exact .some rfl
  · cases h

/-- **An operator of operands of its kinds has a value of the kind of its result.** -/
theorem Operator.evaluate?_yields {op : Operator} {values : List Value} {k : Kind}
    (h : op.result? (values.map Value.kind) = some k) (hl : op.LaneFits (values.map Value.kind)) :
    Yields (op.evaluate? values) k := by
  cases op with
  | builtin f => exact Builtin.evaluate?_yields h
  | unary op =>
    match values, h with
    | [a], h => exact UnaryOp.evaluate?_yields h
  | binary op =>
    match values, h with
    | [a, b], h => exact BinaryOp.evaluate?_yields h
  | lane index =>
    match values, h, hl with
    | [a], h, hl => exact lane_yields h hl
  | xyz =>
    match values, h with
    | [.vec4 x y z w], h =>
      obtain rfl := Option.some.inj h
      exact .some rfl
  | inverse =>
    match values, h with
    | [.mat3 m], h =>
      obtain rfl := Option.some.inj h
      exact .some rfl
  | toFloat =>
    match values, h with
    | [.integer i], h =>
      obtain rfl := Option.some.inj h
      exact .some rfl
  | toInteger =>
    match values, h with
    | [.float x], h =>
      obtain rfl := Option.some.inj h
      exact .some rfl

/-- **A construction from parts of its kinds has a value of the kind that is built.** -/
theorem construct?_yields {parts : List Value} {k : Kind}
    (h : constructed? (parts.map Value.kind) = some k) : Yields (construct? k parts) k := by
  match parts, h with
  | [.float x, .float y], h =>
    obtain rfl := Option.some.inj h
    exact .some rfl
  | [.float x, .float y, .float z], h =>
    obtain rfl := Option.some.inj h
    exact .some rfl
  | [.float x, .float y, .float z, .float w], h =>
    obtain rfl := Option.some.inj h
    exact .some rfl
  | [.vec3 v, .float w], h =>
    obtain rfl := Option.some.inj h
    exact .some rfl
  | [.vec3 a, .vec3 b, .vec3 c], h =>
    obtain rfl := Option.some.inj h
    exact .some rfl

end Relief.Shading
