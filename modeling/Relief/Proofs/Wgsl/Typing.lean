import Relief.Proofs.Number.Numerals
import Relief.Wgsl.Syntax

/-!
# Types of shader source

The typing rules of WGSL, as far as fragment stages need them.

* `Ty`: the types that values of a stage have;
* `IsFloat`, `IsInteger`: the texts that are literals. A sign in front is an operator and no part of
  the literal, so the least integer has none;
* `unaryTy?`, `binaryTy?`, `callTy?`, `memberTy?`, `constructs`: the overloads of operators, functions,
  members and constructors;
* `HasType`: **an expression has a type**, where some values have been named;
* `Let.IsTyped`, `Fragment.ReturnIsTyped`: what a stage asks of its lines and of its colour.
-/

namespace Relief.Wgsl

open Shading (Kind BinaryOp UnaryOp Builtin)

/-! ## 1. Types -/

/-- A type. Of vectors and matrices there are those of singles only. -/
inductive Ty where
  | f32
  | i32
  | bool
  | vec (lanes : Nat)
  | mat3
  deriving DecidableEq, Repr

namespace Ty

/-- The type that is written so. -/
def ofKind : Kind → Ty
  | .f32 => f32
  | .i32 => i32
  | .bool => bool
  | .vec2 => vec 2
  | .vec3 => vec 3
  | .vec4 => vec 4
  | .mat3 => mat3

/-- A single, or a vector of singles. -/
def isFloating : Ty → Bool
  | f32 | vec _ => true
  | _ => false

/-- A number, or a vector of numbers. -/
def isNumeric : Ty → Bool
  | f32 | i32 | vec _ => true
  | _ => false

def isScalar : Ty → Bool
  | f32 | i32 | bool => true
  | _ => false

/-- How many lanes of a vector it gives, if it can be part of one. -/
def lanes? : Ty → Option Nat
  | f32 => some 1
  | vec n => some n
  | _ => none

end Ty

/-! ## 2. Literals -/

/-- An integer: digits and an `i` behind them, no more than the type can hold. A minus in front
    negates it. -/
def IsInteger (text : String) : Prop :=
  ∃ (minus : Bool) (n : Nat), n ≤ 2147483647 ∧
    text = (if minus then "-" else "") ++ toString n ++ "i"

/-- A number with a point or a power of ten, which is rounded to a single. It must not lie so far out
    that it is rounded to infinity. A minus in front negates it. -/
def IsFloat (text : String) : Prop :=
  ∃ n : Numeral, n.IsLiteral ∧ n.decimal.value < 2 ^ 128 - 2 ^ 103 ∧ text = n.text

/-! ## 3. Overloads -/

/-- Numbers have a negative, truth values a complement. -/
def unaryTy? : UnaryOp → Ty → Option Ty
  | .neg, a => if a.isNumeric then some a else none
  | .not, a => if a = .bool then some a else none

/-- Numbers of one type, vectors of one type lane by lane, and a vector with one number. -/
def arithmeticTy? : Ty → Ty → Option Ty
  | .vec n, .f32 => some (.vec n)
  | .f32, .vec n => some (.vec n)
  | a, b => if a = b ∧ a.isNumeric then some a else none

/-- Matrices are added to matrices, and multiplied by matrices, vectors and numbers. The comparison of
    vectors is left out: no value of a stage has its type. -/
def binaryTy? (op : BinaryOp) (a b : Ty) : Option Ty :=
  match op, a, b with
  | .add, .mat3, .mat3 | .sub, .mat3, .mat3 => some .mat3
  | .mul, .mat3, .mat3 | .mul, .mat3, .f32 | .mul, .f32, .mat3 => some .mat3
  | .mul, .mat3, .vec 3 | .mul, .vec 3, .mat3 => some (.vec 3)
  | .add, a, b | .sub, a, b | .mul, a, b | .div, a, b => arithmeticTy? a b
  | .lt, a, b | .le, a, b | .gt, a, b | .ge, a, b =>
    if a = b ∧ (a = .f32 ∨ a = .i32) then some .bool else none
  | .eq, a, b | .ne, a, b => if a = b ∧ a.isScalar then some .bool else none
  | .and, a, b | .or, a, b => if a = b ∧ a = .bool then some .bool else none

/-- Most functions work lane by lane. A choice is between scalars or vectors, and never between
    matrices. -/
def callTy? : Builtin → List Ty → Option Ty
  | .sin, [a] | .cos, [a] | .tan, [a] | .sqrt, [a] | .floor, [a] =>
    if a.isFloating then some a else none
  | .abs, [a] => if a.isNumeric then some a else none
  | .atan2, [a, b] | .pow, [a, b] | .step, [a, b] =>
    if a = b ∧ a.isFloating then some a else none
  | .min, [a, b] | .max, [a, b] => if a = b ∧ a.isNumeric then some a else none
  | .clamp, [a, b, c] => if a = b ∧ b = c ∧ a.isNumeric then some a else none
  | .mix, [a, b, c] => if a = b ∧ (c = a ∨ c = .f32) ∧ a.isFloating then some a else none
  | .length, [a] => if a.isFloating then some .f32 else none
  | .normalize, [.vec n] => some (.vec n)
  | .dot, [.vec n, .vec m] => if n = m then some .f32 else none
  | .select, [a, b, c] => if a = b ∧ a ≠ .mat3 ∧ c = .bool then some a else none
  | _, _ => none

/-- A lane, or the first three, of a vector that has them. -/
def memberTy? (m : Member) (a : Ty) : Option Ty :=
  match m, a with
  | .x, .vec n => if 0 < n then some .f32 else none
  | .y, .vec n => if 1 < n then some .f32 else none
  | .z, .vec n => if 2 < n then some .f32 else none
  | .w, .vec n => if 3 < n then some .f32 else none
  | .xyz, .vec n => if 2 < n then some (.vec 3) else none
  | _, _ => none

/-- Whether a vector can be made of parts: of one number for all lanes, or of parts that have as many
    lanes together. -/
def makesVector (n : Nat) (parts : List Ty) : Bool :=
  parts = [.f32] || (parts.mapM Ty.lanes?).map List.sum = some n

/-- Whether there is a constructor of a type that takes parts of the given ones. -/
def constructs (kind : Kind) (parts : List Ty) : Bool :=
  match kind, parts with
  | .f32, [a] | .i32, [a] | .bool, [a] => a.isScalar
  | .vec2, parts => makesVector 2 parts
  | .vec3, parts => makesVector 3 parts
  | .vec4, parts => makesVector 4 parts
  | .mat3, parts => parts = [.vec 3, .vec 3, .vec 3] || parts = List.replicate 9 .f32
  | _, _ => false

/-! ## 4. Expressions -/

/-- What can be used at a place of a stage: the values that have been named before it, the textures
    that are bound, and the function that inverts matrices. -/
structure Scope where
  values : Nat → Option Ty
  textures : Nat
  invertsMatrices : Bool

/-- **An expression has a type.** -/
inductive HasType (s : Scope) : Expr → Ty → Prop where
  | var {id : Nat} {t : Ty} (h : s.values id = some t) : HasType s (.var id) t
  | float {x : Float32} (h : IsFloat (Expr.float x).text) : HasType s (.float x) .f32
  | integer {i : Int32} (h : IsInteger (Expr.integer i).text) : HasType s (.integer i) .i32
  | boolean {b : Bool} : HasType s (.boolean b) .bool
  | texel {binding : Nat} (h : binding < s.textures) : HasType s (.texel binding) (.vec 4)
  | position : HasType s .position (.vec 2)
  | unary {op : UnaryOp} {a : Expr} {t r : Ty} (ha : HasType s a t) (h : unaryTy? op t = some r) :
      HasType s (.unary op a) r
  | binary {op : BinaryOp} {a b : Expr} {t u r : Ty} (ha : HasType s a t) (hb : HasType s b u)
      (h : binaryTy? op t u = some r) : HasType s (.binary op a b) r
  | call {f : Builtin} {args : List Expr} {ts : List Ty} {r : Ty}
      (ha : List.Forall₂ (HasType s) args ts) (h : callTy? f ts = some r) : HasType s (.call f args) r
  | make {kind : Kind} {args : List Expr} {ts : List Ty} (ha : List.Forall₂ (HasType s) args ts)
      (h : constructs kind ts = true) : HasType s (.make kind args) (.ofKind kind)
  | inverse {a : Expr} (h : s.invertsMatrices = true) (ha : HasType s a .mat3) :
      HasType s (.inverse a) .mat3
  | member {a : Expr} {m : Member} {t r : Ty} (ha : HasType s a t) (h : memberTy? m t = some r) :
      HasType s (.member a m) r

/-! ## 5. Stages -/

/-- What can be used behind some lines of a stage. -/
def Fragment.scope (f : Fragment) (before : List Let) : Scope where
  values id := (before.find? fun l => l.id = id).map fun l => .ofKind l.kind
  textures := f.textures
  invertsMatrices := f.invertsMatrices

/-- A line gives a new name to a value of the type that it says. -/
def Let.IsTyped (l : Let) (s : Scope) : Prop :=
  s.values l.id = none ∧ HasType s l.value (.ofKind l.kind)

/-- A stage returns a colour. -/
def Fragment.ReturnIsTyped (f : Fragment) : Prop :=
  HasType (f.scope f.lines) f.colour (.vec 4)

end Relief.Wgsl
