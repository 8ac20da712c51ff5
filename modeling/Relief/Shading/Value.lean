import Relief.Number.Elementary
import Relief.Number.Whole
import Relief.Shading.Matrix
import Relief.Shading.Operator

/-!
# Values and what operators make of them

Values of the seven kinds, and the operators on them. A value with floating-point lanes is taken
apart into the list of its lanes and put together again, so that one definition serves a lane and
the vectors; a lone lane goes with every lane of the other operand.

Integers wrap, and an integer divided by zero stays what it was. `Operator.evaluate?` is the meaning
of an operator; it has none where the values do not fit.
-/

namespace Relief.Shading

/-- A value of a shading program. -/
inductive Value where
  | float (x : Float32)
  | integer (i : Int32)
  | boolean (b : Bool)
  | vec2 (x y : Float32)
  | vec3 (v : Triple Float32)
  | vec4 (x y z w : Float32)
  | mat3 (m : Matrix3 Float32)
  deriving Inhabited

namespace Value

/-- The kind of a value. -/
def kind : Value → Kind
  | float _ => .f32
  | integer _ => .i32
  | boolean _ => .bool
  | vec2 _ _ => .vec2
  | vec3 _ => .vec3
  | vec4 _ _ _ _ => .vec4
  | mat3 _ => .mat3

/-- The value of a kind whose components are all zero. -/
def zero : Kind → Value
  | .f32 => float 0
  | .i32 => integer 0
  | .bool => boolean false
  | .vec2 => vec2 0 0
  | .vec3 => vec3 ⟨0, 0, 0⟩
  | .vec4 => vec4 0 0 0 0
  | .mat3 => mat3 ⟨⟨0, 0, 0⟩, ⟨0, 0, 0⟩, ⟨0, 0, 0⟩⟩

/-! ## 1. Lanes -/

/-- The lanes of a value that has floating-point lanes. -/
def lanes? : Value → Option (List Float32)
  | float x => some [x]
  | vec2 x y => some [x, y]
  | vec3 v => some v.toList
  | vec4 x y z w => some [x, y, z, w]
  | _ => none

/-- The value with the given lanes, one to four. -/
def ofLanes? : List Float32 → Option Value
  | [x] => some (float x)
  | [x, y] => some (vec2 x y)
  | [x, y, z] => some (vec3 ⟨x, y, z⟩)
  | [x, y, z, w] => some (vec4 x y z w)
  | _ => none

/-- Brings a lone lane to the length of a list of lanes. -/
def spread (length : Nat) : List Float32 → List Float32
  | [x] => List.replicate length x
  | lanes => lanes

/-- A function of each lane. -/
def map? (f : Float32 → Float32) (a : Value) : Option Value :=
  a.lanes?.bind fun lanes => ofLanes? (lanes.map f)

/-- A function of the lanes of two values, pair by pair. -/
def zip? (f : Float32 → Float32 → Float32) (a b : Value) : Option Value :=
  match a.lanes?, b.lanes? with
  | some as, some bs =>
    let n := max as.length bs.length
    let as := spread n as
    let bs := spread n bs
    if as.length = bs.length then ofLanes? (as.zipWith f bs) else none
  | _, _ => none

/-- A function of the lanes of three values. -/
def zip3? (f : Float32 → Float32 → Float32 → Float32) (a b c : Value) : Option Value :=
  match a.lanes?, b.lanes?, c.lanes? with
  | some as, some bs, some cs =>
    let n := max (max as.length bs.length) cs.length
    let as := spread n as
    let bs := spread n bs
    let cs := spread n cs
    if as.length = n ∧ bs.length = n ∧ cs.length = n then
      ofLanes? (((as.zip bs).zip cs).map fun ((x, y), z) => f x y z)
    else none
  | _, _, _ => none

/-- The sum of the products of the lanes of two values. It starts from the negative zero, which
    leaves every number as it is. -/
def dot? (a b : Value) : Option Float32 :=
  match a.lanes?, b.lanes? with
  | some as, some bs =>
    if as.length = bs.length then some ((as.zipWith (· * ·) bs).foldl (· + ·) (-0.0)) else none
  | _, _ => none

/-- The square root of the sum of the squares of the lanes. -/
def length? (a : Value) : Option Float32 :=
  (dot? a a).map Float32.sqrt

end Value

/-! ## 2. Numbers -/

/-- The lesser of two numbers, the second where they are equal, and the other where one is not a
    number. -/
def least (a b : Float32) : Float32 :=
  if a.isNaN then b else if b ≤ a then b else a

/-- The greater of two numbers, the second where they are equal, and the other where one is not a
    number. -/
def greatest (a b : Float32) : Float32 :=
  if a.isNaN then b else if a ≤ b then b else a

/-- `a` at zero and `b` at one. -/
def blend (a b t : Float32) : Float32 :=
  a * (1 - t) + b * t

/-- One from the edge on, and zero before it. -/
def threshold (edge x : Float32) : Float32 :=
  if edge ≤ x then 1 else 0

/-- The quotient of two integers, cut toward zero; a number divided by zero is itself. -/
def quotient (a b : Int32) : Int32 :=
  if b = 0 then a else a / b

/-- The magnitude of an integer; the least one has none and stays itself. -/
def magnitude (a : Int32) : Int32 :=
  if a < 0 then -a else a

/-! ## 3. Operators -/

/-- How two numbers compare; not at all if one is not a number. -/
def compare? : Value → Value → Option (Option Ordering)
  | .integer a, .integer b => some (some (if a < b then .lt else if a = b then .eq else .gt))
  | .float a, .float b =>
    some (if a < b then some .lt else if a == b then some .eq else if b < a then some .gt else none)
  | _, _ => none

namespace BinaryOp

/-- Arithmetic on lanes. -/
def onLanes : BinaryOp → Float32 → Float32 → Float32
  | add => (· + ·)
  | sub => (· - ·)
  | mul => (· * ·)
  | _ => (· / ·)

/-- Arithmetic on integers. -/
def onIntegers : BinaryOp → Int32 → Int32 → Int32
  | add => (· + ·)
  | sub => (· - ·)
  | mul => (· * ·)
  | _ => quotient

/-- Arithmetic on values. -/
def arithmetic? (op : BinaryOp) : Value → Value → Option Value
  | .integer a, .integer b => some (.integer (op.onIntegers a b))
  | .mat3 m, .mat3 n => if op = mul then some (.mat3 (m.mul n)) else none
  | .mat3 m, .vec3 v => if op = mul then some (.vec3 (m.mulVec v)) else none
  | a, b => Value.zip? op.onLanes a b

/-- Whether numbers that compare in a given way satisfy a comparison. -/
def holds (op : BinaryOp) (ordering : Option Ordering) : Bool :=
  match op with
  | lt => ordering = some .lt
  | le => ordering = some .lt || ordering = some .eq
  | gt => ordering = some .gt
  | ge => ordering = some .gt || ordering = some .eq
  | eq => ordering = some .eq
  | _ => ordering ≠ some .eq

/-- The meaning of an operator between its operands. -/
def evaluate? (op : BinaryOp) (a b : Value) : Option Value :=
  match op with
  | add | sub | mul | div => op.arithmetic? a b
  | lt | le | gt | ge | eq | ne => (compare? a b).map fun o => .boolean (op.holds o)
  | and =>
    match a, b with
    | .boolean p, .boolean q => some (.boolean (p && q))
    | _, _ => none
  | or =>
    match a, b with
    | .boolean p, .boolean q => some (.boolean (p || q))
    | _, _ => none

end BinaryOp

/-- The meaning of an operator before its operand. -/
def UnaryOp.evaluate? : UnaryOp → Value → Option Value
  | neg, .integer i => some (.integer (-i))
  | neg, a => a.map? fun x => -x
  | not, .boolean b => some (.boolean (!b))
  | not, _ => none

/-- The meaning of a function. -/
def Builtin.evaluate? : Builtin → List Value → Option Value
  | sin, [a] => a.map? Single.sin
  | cos, [a] => a.map? Single.cos
  | tan, [a] => a.map? Single.tan
  | sqrt, [a] => a.map? Float32.sqrt
  | floor, [a] => a.map? Single.floor
  | abs, [.integer i] => some (.integer (magnitude i))
  | abs, [a] => a.map? Float32.abs
  | atan2, [a, b] => a.zip? Single.atan2 b
  | pow, [a, b] => a.zip? Single.pow b
  | length, [a] => a.length?.map .float
  | normalize, [a] => a.length?.bind fun length => a.map? (· / length)
  | dot, [a, b] => (a.dot? b).map .float
  | min, [.integer a, .integer b] => some (.integer (if b < a then b else a))
  | min, [a, b] => a.zip? least b
  | max, [.integer a, .integer b] => some (.integer (if a < b then b else a))
  | max, [a, b] => a.zip? greatest b
  | clamp, [.integer a, .integer low, .integer high] =>
    let raised := if a < low then low else a
    some (.integer (if high < raised then high else raised))
  | clamp, [a, low, high] => a.zip3? (fun x l h => least (greatest x l) h) low high
  | mix, [a, b, t] => a.zip3? blend b t
  | step, [edge, a] => edge.zip? threshold a
  | select, [no, yes, .boolean b] => some (if b then yes else no)
  | _, _ => none

/-- The meaning of an operator. -/
def Operator.evaluate? : Operator → List Value → Option Value
  | unary op, [a] => op.evaluate? a
  | binary op, [a, b] => op.evaluate? a b
  | builtin f, values => f.evaluate? values
  | lane index, [a] => a.lanes?.bind fun lanes => lanes[index]?.map .float
  | xyz, [.vec4 x y z _] => some (.vec3 ⟨x, y, z⟩)
  | inverse, [.mat3 m] => some (.mat3 m.inverse)
  | toFloat, [.integer i] => some (.float (Single.ofInt i.toInt))
  | toInteger, [.float x] => some (.integer (.ofInt (Single.toInt (-2 ^ 31) (2 ^ 31 - 1) x)))
  | _, _ => none

/-- The value built from parts: lanes laid end to end, or three columns. -/
def construct? (kind : Kind) (parts : List Value) : Option Value :=
  if kind = .mat3 then
    match parts with
    | [.vec3 a, .vec3 b, .vec3 c] => some (.mat3 ⟨a, b, c⟩)
    | _ => none
  else
    (parts.mapM Value.lanes?).bind fun lanes =>
      if lanes.flatten.length = kind.components then Value.ofLanes? lanes.flatten else none

end Relief.Shading
