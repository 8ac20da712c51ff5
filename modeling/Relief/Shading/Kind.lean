/-!
# Kinds of values

Every value that a shading program computes has one of seven kinds. The operators accept classes of
kinds: numbers, floating-point lanes, vectors, and kinds that can be compared.
-/

namespace Relief.Shading

/-- The kind of a value. -/
inductive Kind where
  | f32
  | i32
  | bool
  | vec2
  | vec3
  | vec4
  /-- Three columns of three lanes. -/
  | mat3
  deriving DecidableEq, Inhabited, Repr

namespace Kind

/-- The name of a kind in shader source. -/
def text : Kind → String
  | f32 => "f32"
  | i32 => "i32"
  | bool => "bool"
  | vec2 => "vec2<f32>"
  | vec3 => "vec3<f32>"
  | vec4 => "vec4<f32>"
  | mat3 => "mat3x3<f32>"

/-- The number of components: lanes of a vector, entries of a matrix, one for a scalar. -/
def components : Kind → Nat
  | f32 | i32 | bool => 1
  | vec2 => 2
  | vec3 => 3
  | vec4 => 4
  | mat3 => 9

/-- Vectors have a length and lanes. -/
def isVector : Kind → Bool
  | vec2 | vec3 | vec4 => true
  | _ => false

/-- One lane or a vector of them. -/
def isFloating (k : Kind) : Bool :=
  k = f32 || k.isVector

/-- What can be added and multiplied lane by lane. -/
def isNumeric (k : Kind) : Bool :=
  k = i32 || k.isFloating

/-- What can be compared. -/
def isOrdered (k : Kind) : Bool :=
  k = f32 || k = i32

/-- What can be drawn: everything but a matrix. -/
def isDrawable (k : Kind) : Bool :=
  k ≠ mat3

end Kind

end Relief.Shading
