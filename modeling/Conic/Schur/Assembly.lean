import Conic.Cone.Composite
import Conic.Ldl.Symbolic
import Conic.Sparse.Search

/-!
# The Schur complement and its assembly

Eliminating the primal step from the Newton system leaves a system with the
matrix `M = A Θ² Aᵀ`.  It is a sum of *terms*.  Every coordinate of the orthant
gives the term `θ² a aᵀ` of its column `a`.  Every second-order cone gives the
term `η² (2 u uᵀ - Σⱼ qⱼ aⱼ aⱼᵀ)` of its columns `aⱼ`, where `u = Σⱼ wⱼ aⱼ`.

A term touches the rows in which its columns have entries, and on these rows it
is dense.  The pattern of `M` is the union of all these squares and of the
diagonal.  It does not depend on the scaling, so it is fixed once, and each
term knows where its entries go.

Only the upper triangle is stored.  The upper triangle of a term is laid out by
columns, so entry `(p, q)` with `p ≤ q` is at `q (q + 1) / 2 + p`.
-/

namespace Conic

namespace Schur

variable {α : Type}

/-- A term of the complement. -/
inductive Term (α : Type) where
  /-- The term of column `j`, with the factor `θ²`. -/
  | column (j : Nat) (factor : α)
  /-- The term of a second-order cone whose first column is `start`. -/
  | cone (start : Nat) (K : SecondOrder α)

/-- The columns of a term. -/
def Term.cols : Term α → List Nat
  | column j _ => [j]
  | cone start K => List.range' start K.numel

/-- The terms of a block. -/
def blockTerms [Scalar α] (span : Nat × Block α) : List (Term α) :=
  match span.2 with
  | .orthant K => (K.thetaSq.zipIdx span.1).map fun p => .column p.2 p.1
  | .secondOrder K => [.cone span.1 K]

/-- The terms of a cone, in the order of their columns. -/
def terms [Scalar α] (K : Composite α) : List (Term α) := K.spans.flatMap blockTerms

/-! ## The pattern -/

/-- Naturals in increasing order, each of them once. -/
def sorted (xs : List Nat) : List Nat :=
  (xs.mergeSort fun a b => decide (a ≤ b)).eraseReps

/-- The rows in which some columns have entries, in increasing order. -/
def touched (A : Csc α) (cols : List Nat) : List Nat :=
  sorted (cols.flatMap fun j => (A.column j).map (·.1))

/-- Adds the square of some rows to the rows of each column of a pattern. -/
def addSquare (pattern : Array (List Nat)) (rows : List Nat) : Array (List Nat) :=
  rows.zipIdx.foldl (fun pattern r =>
    pattern.modify r.1 fun col => sorted (col ++ rows.take (r.2 + 1))) pattern

/-- The rows of each column of the upper triangle. -/
def pattern (m : Nat) (squares : List (List Nat)) : Array (List Nat) :=
  squares.foldl addSquare (((List.range m).map fun r => [r]).toArray)

/-- The matrix with the given rows in its columns and no values. -/
def ofPattern [Zero α] (m : Nat) (columns : Array (List Nat)) : Csc α where
  nrows := m
  ncols := m
  colPtr := Ldl.runningSums (columns.toList.map List.length)
  rowIdx := columns.toList.flatten.toArray
  values := Array.replicate columns.toList.flatten.length 0

/-- Where an entry of the triangle is stored. -/
def locate (M : Csc α) (row col : Nat) : Nat :=
  M.colPtr.getD col 0 + (Search.place ((M.rows? col).getD #[]) row).position

/-- The rows that a term touches, and where the entries of its triangle are
stored. -/
structure Square where
  /-- The rows, in increasing order. -/
  rows : Array Nat
  /-- The place of each entry of the triangle. -/
  places : List Nat

/-- The places of a square of rows. -/
def square (M : Csc α) (rows : List Nat) : Square where
  rows := rows.toArray
  places := rows.zipIdx.flatMap fun r => (rows.take (r.2 + 1)).map fun p => locate M p r.1

/-! ## The values of a term -/

variable [Scalar α]

/-- The upper triangle of `t * a * aᵀ`. -/
def outer (t : α) (a : List α) : List α :=
  a.zipIdx.flatMap fun e => (a.take (e.2 + 1)).map fun ap => t * ap * e.1

/-- The index of a row within the rows of a square. -/
def localRow (rows : Array Nat) (row : Nat) : Nat := (Search.place rows row).position

/-- The place of entry `(p, q)` within a triangle. -/
def triangular (p q : Nat) : Nat := q * (q + 1) / 2 + p

/-- The vector `u = Σⱼ wⱼ aⱼ` on the rows of a square. -/
def weighted (A : Csc α) (rows : Array Nat) (cols : List (Nat × α)) : Array α :=
  cols.foldl (fun u c =>
    (A.column c.1).foldl (fun u e => u.modify (localRow rows e.1) (· + e.2 * c.2)) u)
    (Vec.zeros rows.size)

/-- Subtracts the triangle of `q * a * aᵀ` for a column `a`. -/
def subtractColumn (rows : Array Nat) (q : α) (a : List (Nat × α)) (triangle : Array α) : Array α :=
  a.zipIdx.foldl (fun t e =>
    (a.take (e.2 + 1)).foldl (fun t d =>
      t.modify (triangular (localRow rows d.1) (localRow rows e.1.1)) (· - q * d.2 * e.1.2)) t)
    triangle

/-- The upper triangle of the term of a second-order cone, without the factor
`η²`.  `refl` is the diagonal of the reflection on all columns. -/
def coneTriangle (A : Csc α) (refl : Array α) (rows : Array Nat) (start : Nat)
    (K : SecondOrder α) : Array α :=
  let cols := List.range' start K.numel
  let u := weighted A rows (cols.zip K.w)
  let square := ((outer 2.0 u.toList).map fun v => 0 + v).toArray
  cols.foldl (fun t j => subtractColumn rows (refl.getD j 0) (A.column j) t) square

/-- The upper triangle of a term. -/
def Term.triangle (A : Csc α) (refl : Array α) (rows : Array Nat) : Term α → List α
  | column j factor => outer factor ((A.column j).map (·.2))
  | cone start K =>
    let η2 := K.eta * K.eta
    (coneTriangle A refl rows start K).toList.map fun v => η2 * v

/-- Adds the triangle of a term to the values of the complement. -/
def addTerm (A : Csc α) (refl : Array α) (values : Array α) (t : Term α × Square) : Array α :=
  (t.2.places.zip (t.1.triangle A refl t.2.rows)).foldl
    (fun values e => values.modify e.1 (· + e.2)) values

end Schur

/-- The Schur complement on its pattern. -/
structure Schur (α : Type) where
  /-- The upper triangle of `M`. -/
  M : Csc α
  /-- The rows and places of each term. -/
  squares : List Schur.Square
  /-- The place of each diagonal entry. -/
  diag : List Nat

namespace Schur

variable {α : Type} [Scalar α]

/-- The complement of a matrix and a cone, with the values zero. -/
def new (A : Csc α) (K : Composite α) : Schur α :=
  let rows := (terms K).map fun t => touched A t.cols
  let M := ofPattern A.nrows (pattern A.nrows rows)
  { M := M
    squares := rows.map (square M)
    diag := (List.range A.nrows).map fun r => locate M r r }

/-- The complement with the values for the scaling of a cone.  `refl` is the
diagonal of the reflection. -/
def assemble (S : Schur α) (A : Csc α) (K : Composite α) (refl : Array α) : Schur α :=
  let values := ((terms K).zip S.squares).foldl (addTerm A refl) (Vec.fill S.M.values 0)
  { S with M := { S.M with values := values } }

end Schur

end Conic
