import Relief.Shading.Kind

/-!
# Operators

The operators of shading expressions, and the kinds of operands that each of them takes.

* `Operator`: the signs, the built-in functions and the conversions;
* `Operator.result?`: the kind of the result for given kinds of operands; none where there is no
  such operator;
* `constructed?`: the kind that is built from given kinds of parts.
-/

namespace Relief.Shading

/-- An operator written between its operands. -/
inductive BinaryOp where
  | add
  | sub
  | mul
  | div
  | lt
  | le
  | gt
  | ge
  | eq
  | ne
  | and
  | or
  deriving DecidableEq, Repr

/-- An operator written before its operand. -/
inductive UnaryOp where
  | neg
  | not
  deriving DecidableEq, Repr

/-- A built-in function. -/
inductive Builtin where
  | sin
  | cos
  | tan
  | atan2
  | sqrt
  | abs
  | pow
  | floor
  | length
  | normalize
  | dot
  | min
  | max
  | clamp
  | mix
  | step
  /-- The first operand, or the second where the third holds. -/
  | select
  deriving DecidableEq, Repr

/-- An operator of shading expressions. -/
inductive Operator where
  | unary (op : UnaryOp)
  | binary (op : BinaryOp)
  | builtin (f : Builtin)
  /-- One lane of a vector. -/
  | lane (index : Nat)
  /-- The first three lanes of four. -/
  | xyz
  /-- The inverse of a matrix. -/
  | inverse
  /-- An integer as a floating-point number. -/
  | toFloat
  /-- The whole part of a floating-point number, as an integer. -/
  | toInteger
  deriving DecidableEq, Repr

/-! ## 1. Kinds of signs -/

/-- `k` for two operands of that one kind, if it is of the given class. -/
def same? (p : Kind → Bool) (a b : Kind) : Option Kind :=
  if a = b ∧ p a then some a else none

/-- Arithmetic joins numbers of one kind. A vector may also be multiplied by a lane on either side
    and divided by one, and a matrix be multiplied by a matrix or a vector of three lanes. -/
def BinaryOp.result? (op : BinaryOp) (a b : Kind) : Option Kind :=
  match op with
  | add | sub => same? Kind.isNumeric a b
  | mul =>
    if a.isVector ∧ b = .f32 then some a
    else if a = .f32 ∧ b.isVector then some b
    else if a = .mat3 ∧ (b = .mat3 ∨ b = .vec3) then some b
    else same? Kind.isNumeric a b
  | div => if a.isVector ∧ b = .f32 then some a else same? Kind.isNumeric a b
  | lt | le | gt | ge | eq | ne => (same? Kind.isOrdered a b).map fun _ => .bool
  | and | or => same? (· = .bool) a b

/-- Numbers have a negative, truth values a complement. -/
def UnaryOp.result? (op : UnaryOp) (a : Kind) : Option Kind :=
  match op with
  | neg => if a.isNumeric then some a else none
  | not => if a = .bool then some a else none

/-! ## 2. Kinds of functions -/

/-- Most functions work lane by lane, on operands of one kind. -/
def Builtin.result? : Builtin → List Kind → Option Kind
  | sin, [a] | cos, [a] | tan, [a] | sqrt, [a] | floor, [a] => if a.isFloating then some a else none
  | abs, [a] => if a.isNumeric then some a else none
  | atan2, [a, b] => same? (· = .f32) a b
  | pow, [a, b] | step, [a, b] => same? Kind.isFloating a b
  | min, [a, b] | max, [a, b] => same? Kind.isNumeric a b
  | length, [a] => if a.isVector then some .f32 else none
  | normalize, [a] => if a.isVector then some a else none
  | dot, [a, b] => (same? Kind.isVector a b).map fun _ => .f32
  | clamp, [a, b, c] => if b = c then same? Kind.isNumeric a b else none
  | mix, [a, b, c] => if b = c then same? Kind.isFloating a b else none
  | select, [a, b, c] => if a = b ∧ c = .bool then some a else none
  | _, _ => none

/-- The kind of the result of an operator; none where it does not take operands of these kinds.
    Whether a vector has the lane that is asked for is not a matter of kinds. -/
def Operator.result? : Operator → List Kind → Option Kind
  | unary op, [a] => op.result? a
  | binary op, [a, b] => op.result? a b
  | builtin f, kinds => f.result? kinds
  | lane _, [a] => if a.isVector then some .f32 else none
  | xyz, [.vec4] => some .vec3
  | inverse, [.mat3] => some .mat3
  | toFloat, [.i32] => some .f32
  | toInteger, [.f32] => some .i32
  | _, _ => none

/-- The kind that is built from parts of the given kinds. -/
def constructed? : List Kind → Option Kind
  | [.f32, .f32] => some .vec2
  | [.f32, .f32, .f32] => some .vec3
  | [.f32, .f32, .f32, .f32] => some .vec4
  | [.vec3, .f32] => some .vec4
  | [.vec3, .vec3, .vec3] => some .mat3
  | _ => none

end Relief.Shading
