import Relief.Number.Decimal
import Relief.Shading.Operator

/-!
# Shader source

The part of WGSL that shading programs are written in, and its text.

* `Wgsl.Expr`: expressions over the values that earlier lines have named;
* `Wgsl.Fragment`: a whole fragment stage: the textures it reads, one line for each value, and the
  colour it returns;
* `Wgsl.vertexStage`: the vertex stage, the same for every program: one triangle over the target.

The text of an expression puts every sign and its operands in brackets, so that reading it back
needs no precedence.
-/

namespace Relief.Wgsl

open Shading (Kind BinaryOp UnaryOp Builtin)

/-! ## 1. Expressions -/

/-- What can follow a value after a point. -/
inductive Member where
  | x
  | y
  | z
  | w
  | xyz
  deriving DecidableEq, Repr

/-- An expression of a fragment stage. -/
inductive Expr where
  /-- A value named on an earlier line. -/
  | var (id : Nat)
  | float (x : Float32)
  | integer (i : Int32)
  | boolean (b : Bool)
  /-- The texel of a bound texture under the fragment. -/
  | texel (binding : Nat)
  /-- The middle of the fragment. -/
  | position
  | unary (op : UnaryOp) (a : Expr)
  | binary (op : BinaryOp) (a b : Expr)
  | call (f : Builtin) (args : List Expr)
  /-- A value of a kind made of parts, or a scalar of a kind made of another. -/
  | make (kind : Kind) (args : List Expr)
  /-- The inverse of a matrix, by the helper function. -/
  | inverse (a : Expr)
  | member (a : Expr) (m : Member)

/-- The sign of an operator. -/
def binarySign : BinaryOp → String
  | .add => "+"
  | .sub => "-"
  | .mul => "*"
  | .div => "/"
  | .lt => "<"
  | .le => "<="
  | .gt => ">"
  | .ge => ">="
  | .eq => "=="
  | .ne => "!="
  | .and => "&&"
  | .or => "||"

/-- The sign of an operator. -/
def unarySign : UnaryOp → String
  | .neg => "-"
  | .not => "!"

/-- The name of a function. -/
def builtinName : Builtin → String
  | .sin => "sin"
  | .cos => "cos"
  | .tan => "tan"
  | .atan2 => "atan2"
  | .sqrt => "sqrt"
  | .abs => "abs"
  | .pow => "pow"
  | .floor => "floor"
  | .length => "length"
  | .normalize => "normalize"
  | .dot => "dot"
  | .min => "min"
  | .max => "max"
  | .clamp => "clamp"
  | .mix => "mix"
  | .step => "step"
  | .select => "select"

/-- The name of a member. -/
def memberName : Member → String
  | .x => "x"
  | .y => "y"
  | .z => "z"
  | .w => "w"
  | .xyz => "xyz"

/-- The name of a value. -/
def varName (id : Nat) : String :=
  "v" ++ toString id

/-- The name of a texture. -/
def textureName (binding : Nat) : String :=
  "t_in" ++ toString binding

mutual

/-- The text of an expression. -/
def Expr.text : Expr → String
  | .var id => varName id
  | .float x => Single.text x
  | .integer i => toString i.toInt ++ "i"
  | .boolean b => if b then "true" else "false"
  | .texel binding => "textureLoad(" ++ textureName binding ++ ", px, 0)"
  | .position => "frag.xy"
  | .unary op a => "(" ++ unarySign op ++ a.text ++ ")"
  | .binary op a b => "(" ++ a.text ++ " " ++ binarySign op ++ " " ++ b.text ++ ")"
  | .call f args => builtinName f ++ "(" ++ Expr.listText args ++ ")"
  | .make kind args => kind.text ++ "(" ++ Expr.listText args ++ ")"
  | .inverse a => "inverse3(" ++ a.text ++ ")"
  | .member a m => a.text ++ "." ++ memberName m

/-- The texts of operands, with commas between them. -/
def Expr.listText : List Expr → String
  | [] => ""
  | [a] => a.text
  | a :: b :: rest => a.text ++ ", " ++ Expr.listText (b :: rest)

end

/-! ## 2. Stages -/

/-- A line that names a value. -/
structure Let where
  id : Nat
  kind : Kind
  value : Expr

/-- The text of a line. -/
def Let.text (l : Let) : String :=
  "  let " ++ varName l.id ++ ": " ++ l.kind.text ++ " = " ++ l.value.text ++ ";\n"

/-- A fragment stage. -/
structure Fragment where
  /-- How many textures are bound, at the places from zero on. -/
  textures : Nat
  /-- Whether the stage brings the function that inverts matrices. -/
  invertsMatrices : Bool
  lines : List Let
  colour : Expr

/-- The declaration of a texture. -/
def textureLine (binding : Nat) : String :=
  "@group(0) @binding(" ++ toString binding ++ ") var " ++ textureName binding
    ++ ": texture_2d<f32>;\n"

/-- The function that inverts matrices: the cross products of the columns are the rows of the
    adjugate. -/
def inverseHelper : String :=
  "fn inverse3(m: mat3x3<f32>) -> mat3x3<f32> \x7b\n" ++
  "  let r0 = cross(m[1], m[2]);\n" ++
  "  let r1 = cross(m[2], m[0]);\n" ++
  "  let r2 = cross(m[0], m[1]);\n" ++
  "  let det = dot(m[0], r0);\n" ++
  "  return transpose(mat3x3<f32>(r0, r1, r2)) * (1.0 / det);\n" ++
  "\x7d\n"

/-- The text of a fragment stage. -/
def Fragment.text (f : Fragment) : String :=
  String.join ((List.range f.textures).map textureLine) ++
  (if f.textures = 0 then "" else "\n") ++
  (if f.invertsMatrices then inverseHelper ++ "\n" else "") ++
  "@fragment\n" ++
  "fn fs(@builtin(position) frag: vec4<f32>) -> @location(0) vec4<f32> \x7b\n" ++
  "  let px = vec2<i32>(floor(frag.xy));\n" ++
  String.join (f.lines.map Let.text) ++
  "  return " ++ f.colour.text ++ ";\n" ++
  "\x7d\n"

/-- The vertex stage. -/
def vertexStage : String :=
  "@vertex\n" ++
  "fn vs(@builtin(vertex_index) vi: u32) -> @builtin(position) vec4<f32> \x7b\n" ++
  "  var p = array<vec2<f32>, 3>(\n" ++
  "    vec2<f32>(-1.0, -1.0),\n" ++
  "    vec2<f32>( 3.0, -1.0),\n" ++
  "    vec2<f32>(-1.0,  3.0),\n" ++
  "  );\n" ++
  "  return vec4<f32>(p[vi], 0.0, 1.0);\n" ++
  "\x7d\n"

end Relief.Wgsl
