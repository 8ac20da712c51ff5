import Mathlib.LinearAlgebra.CrossProduct
import Mathlib.LinearAlgebra.Matrix.Determinant.Basic
import Relief.Shading.Value
import Relief.Wgsl.Syntax

/-!
# The algebra of matrices

Products and inverses are computed column by column. Over a field, where nothing is rounded, they
are those of linear algebra, and the function that shader source brings along computes the same
inverse.

* `Triple.toVector`, `Matrix3.toMatrix`: lanes and columns as vectors and matrices of the algebra;
* `Matrix3.toVector_mulVec`, `Matrix3.toMatrix_mul`, `Matrix3.det_toMatrix`: **products and
  determinants are the algebra's**;
* `Matrix3.cofactors_mul`: the cross products of the columns, as rows, are the adjugate;
* `Matrix3.inverse_mul`, `Matrix3.mul_inverse`: **the inverse is one from both sides**;
* `Wgsl.Routine`: a function over matrices, its source and its meaning; `Wgsl.inversion` is the one
  that is emitted (`Wgsl.text_inversion`), and **its meaning is the inverse**
  (`Wgsl.evaluate?_inversion`);
* `matrices_obey_linear_algebra`: all of this for what programs do.
-/

/-- A field of numbers. Among the names of this library, a field is one of a record. -/
abbrev Scalars (K : Type) := Field K

namespace Relief.Shading

open Matrix

/-! ## 1. Vectors and matrices of the algebra -/

section Entries

variable {K : Type}

/-- Three lanes as a vector. -/
def Triple.toVector (v : Triple K) : Fin 3 → K :=
  ![v.x, v.y, v.z]

/-- Three columns as a matrix: its entries are found by row and column. -/
def Matrix3.toMatrix (m : Matrix3 K) : Matrix (Fin 3) (Fin 3) K :=
  (Matrix.of ![m.c0.toVector, m.c1.toVector, m.c2.toVector])ᵀ

theorem Triple.toVector_injective {v w : Triple K} (h : v.toVector = w.toVector) : v = w := by
  obtain ⟨x, y, z⟩ := v
  obtain ⟨x', y', z'⟩ := w
  obtain rfl : x = x' := congrFun h 0
  obtain rfl : y = y' := congrFun h 1
  obtain rfl : z = z' := congrFun h 2
  rfl

theorem Matrix3.toMatrix_injective {m n : Matrix3 K} (h : m.toMatrix = n.toMatrix) : m = n := by
  have columns := congrArg Matrix.transpose h
  obtain ⟨a, b, c⟩ := m
  obtain ⟨a', b', c'⟩ := n
  obtain rfl : a = a' := Triple.toVector_injective (congrFun columns 0)
  obtain rfl : b = b' := Triple.toVector_injective (congrFun columns 1)
  obtain rfl : c = c' := Triple.toVector_injective (congrFun columns 2)
  rfl

end Entries

variable {K : Type} [Scalars K]

/-- The cross product is the algebra's. -/
theorem Triple.toVector_cross (v w : Triple K) :
    (v.cross w).toVector = crossProduct v.toVector w.toVector := by
  rw [cross_apply]
  rfl

/-- The scalar product is the algebra's. -/
theorem Triple.dot_eq (v w : Triple K) : v.dot w = v.toVector ⬝ᵥ w.toVector := by
  rw [vec3_dotProduct]
  rfl

namespace Matrix3

/-- The columns of the unit matrix. -/
def one : Matrix3 K :=
  ⟨⟨1, 0, 0⟩, ⟨0, 1, 0⟩, ⟨0, 0, 1⟩⟩

theorem toMatrix_one : (one : Matrix3 K).toMatrix = 1 := by
  ext r c
  fin_cases r <;> fin_cases c <;> rfl

/-! ## 2. Products -/

/-- **A matrix is applied to a vector as in the algebra.** -/
theorem toVector_mulVec (m : Matrix3 K) (v : Triple K) :
    (m.mulVec v).toVector = m.toMatrix *ᵥ v.toVector := by
  ext r
  rw [Matrix.mulVec, vec3_dotProduct]
  fin_cases r <;> simp [toMatrix, Triple.toVector, mulVec, Triple.add, Triple.scale]

/-- **The product of two matrices is the algebra's.** -/
theorem toMatrix_mul (m n : Matrix3 K) : (m.mul n).toMatrix = m.toMatrix * n.toMatrix := by
  ext r c
  have column : (m.toMatrix * n.toMatrix) r c = (m.toMatrix *ᵥ n.toMatrixᵀ c) r := rfl
  rw [column]
  fin_cases c
  · exact congrFun (m.toVector_mulVec n.c0) r
  · exact congrFun (m.toVector_mulVec n.c1) r
  · exact congrFun (m.toVector_mulVec n.c2) r

/-- A product is applied factor by factor. -/
theorem mulVec_mul (m n : Matrix3 K) (v : Triple K) :
    (m.mul n).mulVec v = m.mulVec (n.mulVec v) := by
  apply Triple.toVector_injective
  rw [toVector_mulVec, toVector_mulVec, toVector_mulVec, toMatrix_mul, Matrix.mulVec_mulVec]

/-! ## 3. Inverses -/

/-- The cross products of the columns, each of them a row. -/
def cofactors (m : Matrix3 K) : Matrix (Fin 3) (Fin 3) K :=
  Matrix.of ![crossProduct m.c1.toVector m.c2.toVector, crossProduct m.c2.toVector m.c0.toVector,
    crossProduct m.c0.toVector m.c1.toVector]

/-- The determinant is the product of the first column with the first of these rows. -/
theorem det_eq (m : Matrix3 K) :
    m.det = m.c0.toVector ⬝ᵥ crossProduct m.c1.toVector m.c2.toVector := by
  rw [det, Triple.dot_eq, Triple.toVector_cross]

/-- **The determinant is the algebra's.** -/
theorem det_toMatrix (m : Matrix3 K) : m.toMatrix.det = m.det := by
  rw [det_eq, triple_product_eq_det, toMatrix, Matrix.det_transpose]
  rfl

/-- **The cross products are the adjugate**: each of them is orthogonal to two columns, and the
    determinant is its product with the third. -/
theorem cofactors_mul (m : Matrix3 K) : m.cofactors * m.toMatrix = m.det • 1 := by
  have entry : ∀ r c, (m.cofactors * m.toMatrix) r c = m.toMatrixᵀ c ⬝ᵥ m.cofactors r :=
    fun r c => (Matrix.mul_apply' ..).trans (dotProduct_comm _ _)
  have first := m.det_eq
  have second := (triple_product_permutation m.c0.toVector m.c1.toVector m.c2.toVector).symm
  have third := triple_product_permutation m.c2.toVector m.c0.toVector m.c1.toVector
  ext r c
  rw [entry]
  fin_cases r <;> fin_cases c
  · exact first.symm.trans (by simp)
  · exact (dot_self_cross _ _).trans (by simp)
  · exact (dot_cross_self _ _).trans (by simp)
  · exact (dot_cross_self _ _).trans (by simp)
  · exact second.trans (first.symm.trans (by simp))
  · exact (dot_self_cross _ _).trans (by simp)
  · exact (dot_self_cross _ _).trans (by simp)
  · exact (dot_cross_self _ _).trans (by simp)
  · exact third.trans (first.symm.trans (by simp))

/-- The inverse is the adjugate over the determinant. -/
theorem toMatrix_inverse (m : Matrix3 K) : m.inverse.toMatrix = (1 / m.det) • m.cofactors := by
  have rows : m.cofactors = Matrix.of ![(m.c1.cross m.c2).toVector, (m.c2.cross m.c0).toVector,
      (m.c0.cross m.c1).toVector] := by
    simp only [cofactors, Triple.toVector_cross]
  ext r c
  rw [rows, Matrix.smul_apply, smul_eq_mul, mul_comm]
  fin_cases r <;> fin_cases c <;> rfl

/-- **What is multiplied by the inverse from the left is the unit.** -/
theorem inverse_mul {m : Matrix3 K} (h : m.det ≠ 0) : m.inverse.mul m = one := by
  apply toMatrix_injective
  rw [toMatrix_mul, toMatrix_inverse, Matrix.smul_mul, cofactors_mul, smul_smul,
    one_div_mul_cancel h, one_smul, toMatrix_one]

/-- **So is what is multiplied by it from the right.** -/
theorem mul_inverse {m : Matrix3 K} (h : m.det ≠ 0) : m.mul m.inverse = one := by
  apply toMatrix_injective
  rw [toMatrix_mul, toMatrix_one, mul_eq_one_comm, ← toMatrix_mul, inverse_mul h, toMatrix_one]

end Matrix3

end Relief.Shading

namespace Relief.Wgsl

open Matrix Shading

/-! ## 4. The emitted function -/

/-- A term of a function over matrices. -/
inductive Formula where
  /-- What has been named before: the parameter, or an earlier line. -/
  | name (n : String)
  /-- A column of a matrix that has been named. -/
  | column (n : String) (index : Nat)
  | cross (a b : Formula)
  | dot (a b : Formula)
  /-- The matrix of three columns. -/
  | columns (a b c : Formula)
  | transpose (a : Formula)
  /-- A matrix, entry by entry times a number. -/
  | times (a b : Formula)
  /-- One over a number. -/
  | reciprocal (a : Formula)

/-- The source of a term. -/
def Formula.text : Formula → String
  | name n => n
  | column n index => n ++ "[" ++ toString index ++ "]"
  | cross a b => "cross(" ++ a.text ++ ", " ++ b.text ++ ")"
  | dot a b => "dot(" ++ a.text ++ ", " ++ b.text ++ ")"
  | columns a b c => Kind.mat3.text ++ "(" ++ a.text ++ ", " ++ b.text ++ ", " ++ c.text ++ ")"
  | transpose a => "transpose(" ++ a.text ++ ")"
  | times a b => a.text ++ " * " ++ b.text
  | reciprocal a => "(1.0 / " ++ a.text ++ ")"

/-- What a term can stand for. -/
inductive Amount (K : Type) where
  | number (x : K)
  | vector (v : Fin 3 → K)
  | matrix (m : Matrix (Fin 3) (Fin 3) K)

/-- What a term stands for, given what the names do. -/
def Formula.evaluate? {K : Type} [Scalars K] (names : String → Option (Amount K)) :
    Formula → Option (Amount K)
  | name n => names n
  | column n index =>
    match names n with
    | some (.matrix m) => if h : index < 3 then some (.vector (mᵀ ⟨index, h⟩)) else none
    | _ => none
  | cross a b =>
    match a.evaluate? names, b.evaluate? names with
    | some (.vector v), some (.vector w) => some (.vector (crossProduct v w))
    | _, _ => none
  | dot a b =>
    match a.evaluate? names, b.evaluate? names with
    | some (.vector v), some (.vector w) => some (.number (v ⬝ᵥ w))
    | _, _ => none
  | columns a b c =>
    match a.evaluate? names, b.evaluate? names, c.evaluate? names with
    | some (.vector u), some (.vector v), some (.vector w) => some (.matrix (.of ![u, v, w])ᵀ)
    | _, _, _ => none
  | transpose a =>
    match a.evaluate? names with
    | some (.matrix m) => some (.matrix mᵀ)
    | _ => none
  | times a b =>
    match a.evaluate? names, b.evaluate? names with
    | some (.matrix m), some (.number x) => some (.matrix (x • m))
    | _, _ => none
  | reciprocal a =>
    match a.evaluate? names with
    | some (.number x) => some (.number (1 / x))
    | _ => none

/-- A function from matrices to matrices: lines that name values, and the value returned. -/
structure Routine where
  name : String
  parameter : String
  lines : List (String × Formula)
  result : Formula

namespace Routine

/-- The source of a function. -/
def text (r : Routine) : String :=
  "fn " ++ r.name ++ "(" ++ r.parameter ++ ": " ++ Kind.mat3.text ++ ") -> " ++ Kind.mat3.text
    ++ " \x7b\n"
    ++ String.join (r.lines.map fun (n, value) => "  let " ++ n ++ " = " ++ value.text ++ ";\n")
    ++ "  return " ++ r.result.text ++ ";\n"
    ++ "\x7d\n"

variable {K : Type} [Scalars K]

/-- What the names stand for after some lines. -/
def namesAfter? : List (String × Formula) → (String → Option (Amount K)) →
    Option (String → Option (Amount K))
  | [], names => some names
  | (n, value) :: rest, names =>
    (value.evaluate? names).bind fun v => namesAfter? rest (Function.update names n (some v))

/-- The matrix that a function returns. -/
def evaluate? (r : Routine) (m : Matrix (Fin 3) (Fin 3) K) : Option (Matrix (Fin 3) (Fin 3) K) :=
  match (namesAfter? r.lines (Function.update (fun _ => none) r.parameter (some (.matrix m)))).bind
    r.result.evaluate? with
  | some (.matrix m) => some m
  | _ => none

end Routine

/-- The function that inverts matrices. -/
def inversion : Routine where
  name := "inverse3"
  parameter := "m"
  lines := [
    ("r0", .cross (.column "m" 1) (.column "m" 2)),
    ("r1", .cross (.column "m" 2) (.column "m" 0)),
    ("r2", .cross (.column "m" 0) (.column "m" 1)),
    ("det", .dot (.column "m" 0) (.name "r0"))]
  result := .times (.transpose (.columns (.name "r0") (.name "r1") (.name "r2")))
    (.reciprocal (.name "det"))

/-- **It is the one that source brings along.** -/
theorem text_inversion : inversion.text = inverseHelper := by
  decide +kernel

/-- **What the emitted function returns is the inverse**, entry by entry. -/
theorem evaluate?_inversion {K : Type} [Scalars K] (m : Matrix3 K) :
    inversion.evaluate? m.toMatrix = some m.inverse.toMatrix := by
  have first : m.toMatrixᵀ 0 = m.c0.toVector := rfl
  have second : m.toMatrixᵀ 1 = m.c1.toVector := rfl
  have third : m.toMatrixᵀ 2 = m.c2.toVector := rfl
  rw [m.toMatrix_inverse, m.det_eq]
  simp [Routine.evaluate?, inversion, Routine.namesAfter?, Formula.evaluate?, Function.update,
    first, second, third, Matrix3.cofactors]

end Relief.Wgsl

namespace Relief.Shading

open Matrix

/-! ## 5. What programs do with matrices -/

/-- **Matrices obey linear algebra.** What programs do with matrices of singles is done here with
    numbers of a field, the rationals among them. The product of matrices and the application to a
    vector are the algebra's, so that a product is applied factor by factor. The determinant is the
    algebra's, too, and wherever it is not zero, the inverse is one from both sides. The function
    that source brings along is `Wgsl.inversion`, and it returns this inverse, entry by entry. -/
theorem matrices_obey_linear_algebra :
    (∀ (a b : Matrix3 Float32) (w : Triple Float32),
      BinaryOp.mul.evaluate? (.mat3 a) (.mat3 b) = some (.mat3 (a.mul b)) ∧
      BinaryOp.mul.evaluate? (.mat3 a) (.vec3 w) = some (.vec3 (a.mulVec w)) ∧
      Operator.inverse.evaluate? [.mat3 a] = some (.mat3 a.inverse)) ∧
    Wgsl.inversion.text = Wgsl.inverseHelper ∧
    ∀ {K : Type} [Scalars K] (m n : Matrix3 K) (v : Triple K),
      (m.mul n).mulVec v = m.mulVec (n.mulVec v) ∧
      (m.mul n).toMatrix = m.toMatrix * n.toMatrix ∧
      (m.mulVec v).toVector = m.toMatrix *ᵥ v.toVector ∧
      m.det = m.toMatrix.det ∧
      (m.toMatrix.det ≠ 0 → m.mul m.inverse = .one ∧ m.inverse.mul m = .one) ∧
      Wgsl.inversion.evaluate? m.toMatrix = some m.inverse.toMatrix := by
  refine ⟨fun a b w => ⟨rfl, rfl, rfl⟩, Wgsl.text_inversion, fun m n v => ?_⟩
  refine ⟨m.mulVec_mul n v, m.toMatrix_mul n, m.toVector_mulVec v, m.det_toMatrix.symm, fun h => ?_,
    Wgsl.evaluate?_inversion m⟩
  rw [Matrix3.det_toMatrix] at h
  exact ⟨Matrix3.mul_inverse h, Matrix3.inverse_mul h⟩

/-- A matrix of whole numbers whose inverse has sevenths. -/
def skewed : Matrix3 ℚ :=
  ⟨⟨2, 0, 1⟩, ⟨1, 3, 0⟩, ⟨0, 1, 1⟩⟩

theorem skewed_is_inverted : skewed.toMatrix.det ≠ 0 ∧
    skewed.inverse = ⟨⟨3 / 7, 1 / 7, -3 / 7⟩, ⟨-1 / 7, 2 / 7, 1 / 7⟩, ⟨1 / 7, -2 / 7, 6 / 7⟩⟩ ∧
    skewed.mul skewed.inverse = .one ∧ skewed.inverse.mul skewed = .one := by
  have det : skewed.toMatrix.det ≠ 0 := by
    rw [Matrix3.det_toMatrix]
    decide +kernel
  obtain ⟨_, _, _, _, inverts, _⟩ := matrices_obey_linear_algebra.2.2 skewed .one ⟨0, 0, 0⟩
  exact ⟨det, by decide +kernel, inverts det⟩

end Relief.Shading
