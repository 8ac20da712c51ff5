/-!
# Matrices of three columns

Products and the inverse of three-by-three matrices over any scalars. The shading programs use them
over single-precision numbers; over a field they are the linear algebra that their names promise.

* `Matrix3.mulVec`: the columns, weighted by the lanes of a vector, added up from zero;
* `Matrix3.mul`: the product, column by column;
* `Matrix3.inverse`: the cross products of the columns are the rows of the adjugate, and the
  determinant is the scalar product of the first column with the first of them.
-/

namespace Relief.Shading

/-- Three lanes. -/
structure Triple (α : Type) where
  x : α
  y : α
  z : α
  deriving DecidableEq, Inhabited, Repr

/-- Three columns of three lanes. -/
structure Matrix3 (α : Type) where
  c0 : Triple α
  c1 : Triple α
  c2 : Triple α
  deriving DecidableEq, Inhabited, Repr

namespace Triple

variable {α : Type}

/-- The lanes in order. -/
def toList (v : Triple α) : List α :=
  [v.x, v.y, v.z]

/-- A vector scaled by a number. -/
def scale [Mul α] (v : Triple α) (s : α) : Triple α :=
  ⟨v.x * s, v.y * s, v.z * s⟩

/-- The sum, lane by lane. -/
def add [Add α] (v w : Triple α) : Triple α :=
  ⟨v.x + w.x, v.y + w.y, v.z + w.z⟩

/-- The scalar product. -/
def dot [Add α] [Mul α] (v w : Triple α) : α :=
  v.x * w.x + v.y * w.y + v.z * w.z

/-- The cross product. -/
def cross [Sub α] [Mul α] (v w : Triple α) : Triple α :=
  ⟨v.y * w.z - v.z * w.y, v.z * w.x - v.x * w.z, v.x * w.y - v.y * w.x⟩

end Triple

namespace Matrix3

variable {α : Type}

/-- A matrix applied to a vector. -/
def mulVec [Add α] [Mul α] [OfNat α 0] (m : Matrix3 α) (v : Triple α) : Triple α :=
  ((Triple.add ⟨0, 0, 0⟩ (m.c0.scale v.x)).add (m.c1.scale v.y)).add (m.c2.scale v.z)

/-- The product of two matrices: the first applied to each column of the second. -/
def mul [Add α] [Mul α] [OfNat α 0] (m n : Matrix3 α) : Matrix3 α :=
  ⟨m.mulVec n.c0, m.mulVec n.c1, m.mulVec n.c2⟩

/-- The determinant, by the first column. -/
def det [Add α] [Sub α] [Mul α] (m : Matrix3 α) : α :=
  m.c0.dot (m.c1.cross m.c2)

/-- The columns of a matrix, taken as rows. -/
def transpose (m : Matrix3 α) : Matrix3 α :=
  ⟨⟨m.c0.x, m.c1.x, m.c2.x⟩, ⟨m.c0.y, m.c1.y, m.c2.y⟩, ⟨m.c0.z, m.c1.z, m.c2.z⟩⟩

/-- The inverse: the adjugate over the determinant. -/
def inverse [Add α] [Sub α] [Mul α] [Div α] [OfNat α 1] (m : Matrix3 α) : Matrix3 α :=
  let factor := 1 / m.det
  let rows : Matrix3 α := ⟨m.c1.cross m.c2, m.c2.cross m.c0, m.c0.cross m.c1⟩
  let columns := rows.transpose
  ⟨columns.c0.scale factor, columns.c1.scale factor, columns.c2.scale factor⟩

end Matrix3

end Relief.Shading
