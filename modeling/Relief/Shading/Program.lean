import Relief.Fingerprint
import Relief.Shading.Graph
import Relief.Wgsl.Syntax

/-!
# Programs

A program is what one node of a graph needs: the instructions that its value depends on, in the
order in which they were recorded, and the textures that these sample, numbered in the order of
their first use.

* `live`: marks the instructions that an output depends on, from the last to the first;
* `renumber`: numbers the textures;
* `Program.fragment`, `Program.fingerprint`: the shader source of a program, and the hash by which
  it is known.
-/

namespace Relief.Shading

/-! ## 1. The instructions that matter -/

/-- Marks some instructions. -/
def markAll (marks : Array Bool) (ids : List Nat) : Array Bool :=
  ids.foldl (fun marks id => marks.setIfInBounds id true) marks

/-- Whether an instruction is marked. -/
def isMarked (marks : Array Bool) (id : Nat) : Bool :=
  marks[id]?.getD false

/-- The instructions that the value of `output` depends on. Every instruction reads earlier ones
    only, so one pass from the last to the first marks them all. -/
def live (instructions : List Instruction) (output : Nat) : Array Bool :=
  instructions.foldr
    (fun i marks => if isMarked marks i.id then markAll marks i.term.operands else marks)
    (markAll (Array.replicate instructions.length false) [output])

/-! ## 2. The textures that matter -/

/-- The number of a texture slot among those in use, which are added to if it is not among them. -/
def bindingOf (slot : Nat) (inputs : List Nat) : Nat × List Nat :=
  match inputs.idxOf? slot with
  | some binding => (binding, inputs)
  | none => (inputs.length, inputs ++ [slot])

/-- Numbers the texture slots of some instructions in the order of their first use, going on from
    the slots that are in use already. -/
def renumber : List Instruction → (inputs : List Nat) → List Instruction × List Nat
  | [], inputs => ([], inputs)
  | i :: rest, inputs =>
    match i.term with
    | .texel slot =>
      let (binding, inputs) := bindingOf slot inputs
      let (rest, inputs) := renumber rest inputs
      ({ i with term := .texel binding } :: rest, inputs)
    | _ =>
      let (rest, inputs) := renumber rest inputs
      (i :: rest, inputs)

/-! ## 3. Programs -/

/-- What an output needs. -/
structure Program where
  target : Extent
  instructions : List Instruction
  output : Nat
  /-- The slots of the graph's textures, in the order in which they are bound. -/
  inputs : List Nat

/-- The program for an output of recorded instructions. -/
def Program.lower (instructions : List Instruction) (output : Nat) (target : Extent) : Program :=
  let marks := live instructions output
  let (kept, inputs) := renumber (instructions.filter fun i => isMarked marks i.id) []
  { target, instructions := kept, output, inputs }

/-- The program for a node of a graph. -/
def Graph.compile (g : Graph) (out : Node) : Except Failure Program :=
  if out.kind.isDrawable then
    if out.graph = g.id then .ok (.lower g.instructions.toList out.id g.target)
    else .error (.misuse (.foreignNode out.graph g.id))
  else .error (.misuse (.noSuchOperator [out.kind]))

/-! ## 4. Shader source -/

/-- A lane by its index. -/
def laneMember : Nat → Wgsl.Member
  | 0 => .x
  | 1 => .y
  | 2 => .z
  | _ => .w

/-- The shader expression of an operator. -/
def Operator.expr (op : Operator) (operands : List Wgsl.Expr) : Wgsl.Expr :=
  match op, operands with
  | .unary op, [a] => .unary op a
  | .binary op, [a, b] => .binary op a b
  | .builtin f, args => .call f args
  | .lane index, [a] => .member a (laneMember index)
  | .xyz, [a] => .member a .xyz
  | .inverse, [a] => .inverse a
  | .toFloat, args => .make .f32 args
  | .toInteger, args => .make .i32 args
  | _, args => .make .f32 args

/-- The shader expression of an instruction. -/
def Instruction.expr (i : Instruction) (target : Extent) : Wgsl.Expr :=
  match i.term with
  | .float x => .float x
  | .integer n => .integer n
  | .boolean b => .boolean b
  | .texel binding => .texel binding
  | .position => .position
  | .resolution => .make .vec2 [.float target.width.toFloat32, .float target.height.toFloat32]
  | .construct parts => .make i.kind (parts.map .var)
  | .apply op operands => op.expr (operands.map .var)

/-- The colour of a value: a scalar is a grey level, a truth value black or white, lanes that are
    missing are zero and alpha is one. -/
def colourExpr (kind : Kind) (value : Wgsl.Expr) : Wgsl.Expr :=
  match kind with
  | .f32 => .make .vec4 [value, value, value, .float 1]
  | .i32 => .make .vec4 [.make .vec3 [.make .f32 [value]], .float 1]
  | .bool => .make .vec4 [.make .vec3 [.call .select [.float 0, .float 1, value]], .float 1]
  | .vec2 => .make .vec4 [value, .float 0, .float 1]
  | .vec3 => .make .vec4 [value, .float 1]
  | .vec4 | .mat3 => value

/-- Whether an instruction inverts a matrix. -/
def Instruction.inverts (i : Instruction) : Bool :=
  match i.term with
  | .apply .inverse _ => true
  | _ => false

namespace Program

/-- The kind of the output. -/
def outputKind (p : Program) : Kind :=
  match p.instructions.find? fun i => i.id = p.output with
  | some i => i.kind
  | none => .vec4

/-- The fragment stage of a program. -/
def fragment (p : Program) : Wgsl.Fragment where
  textures := p.inputs.length
  invertsMatrices := p.instructions.any Instruction.inverts
  lines := p.instructions.map fun i => ⟨i.id, i.kind, i.expr p.target⟩
  colour := colourExpr p.outputKind (.var p.output)

/-- The source of the fragment stage. -/
def source (p : Program) : String :=
  p.fragment.text

/-- The hash of both stages and of the number of textures. -/
def fingerprint (p : Program) : UInt64 :=
  let state := Fingerprint.absorbAll Fingerprint.start (Fingerprint.utf8 Wgsl.vertexStage)
  let state := Fingerprint.absorbAll state (Fingerprint.utf8 p.source)
  Fingerprint.absorbAll state (Fingerprint.littleEndian p.inputs.length.toUInt32)

end Program

end Relief.Shading
