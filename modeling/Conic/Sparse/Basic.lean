import Conic.Fault
import Conic.Scalar
import Conic.Sparse.Search

/-!
# Sparse matrices by columns

A `Csc` matrix holds its entries column after column.  Column `j` is the part
of `rowIdx` and of `values` from `colPtr[j]` up to `colPtr[j + 1]`.  The matrix

```text
[1.  .  2.]
[.  3.  4.]
```

has the pointers `0, 1, 2, 4`, the rows `0, 1, 0, 1` and the values
`1, 3, 2, 4`.

The type holds any three arrays.  `Csc.checkFormat` in the next module says
whether they are a matrix.  Reading a column of arrays that are none can run
out of bounds, so the functions that read one return an `Option`.
-/

namespace Conic

/-- A matrix in compressed columns. -/
structure Csc (α : Type) where
  /-- The number of rows. -/
  nrows : Nat
  /-- The number of columns. -/
  ncols : Nat
  /-- Where each column starts, and where the last one ends. -/
  colPtr : Array Nat
  /-- The row of each entry. -/
  rowIdx : Array Nat
  /-- The value of each entry. -/
  values : Array α
  deriving BEq, Repr

namespace Csc

variable {α : Type}

/-- The number of stored entries. -/
def nnz (A : Csc α) : Nat := A.values.size

/-- The matrix without entries. -/
def zeros (m n : Nat) : Csc α := ⟨m, n, Array.replicate (n + 1) 0, #[], #[]⟩

/-- The identity matrix. -/
def identity [Scalar α] (n : Nat) : Csc α :=
  ⟨n, n, Array.range (n + 1), Array.range n, Array.replicate n 1⟩

/-- The matrix without entries, if its pointers can be held. -/
def zeros? (m n : Nat) : Option (Csc α) := if n < maxLength then some (zeros m n) else none

/-- The identity matrix, if its pointers can be held. -/
def identity? [Scalar α] (n : Nat) : Option (Csc α) :=
  if n < maxLength then some (identity n) else none

/-! ## Columns -/

/-- The rows of column `j`. -/
def rows? (A : Csc α) (j : Nat) : Option (Array Nat) := do
  slice? A.rowIdx (← A.colPtr[j]?) (← A.colPtr[j + 1]?)

/-- The values of column `j`. -/
def vals? (A : Csc α) (j : Nat) : Option (Array α) := do
  slice? A.values (← A.colPtr[j]?) (← A.colPtr[j + 1]?)

/-- The entries of column `j`, each a row and a value. -/
def column? (A : Csc α) (j : Nat) : Option (List (Nat × α)) := do
  pure ((← A.rows? j).zip (← A.vals? j)).toList

/-- The entries of column `j`, none for a column out of bounds. -/
def column (A : Csc α) (j : Nat) : List (Nat × α) := (A.column? j).getD []

/-- The value stored at a position.  It is `none` if the matrix has no entry
there. -/
def entry? (A : Csc α) (row col : Nat) : Option (Option α) := do
  let rows ← A.rows? col
  match Search.place rows row with
  | .found k => pure (some (← (← A.vals? col)[k]?))
  | .missing _ => pure none

/-! ## Shape -/

/-- Asks columns one after the other until one says no. -/
def allColumns? (p : Nat → Option Bool) : Nat → Nat → Option Bool
  | 0, _ => some true
  | count + 1, j =>
    match p j with
    | some true => allColumns? p count (j + 1)
    | answer => answer

/-- No entry is stored below the diagonal. -/
def isTriu? (A : Csc α) : Option Bool :=
  allColumns? (fun j => (A.rows? j).map fun rows => rows.all (· ≤ j)) A.ncols 0

/-! ## Columns in another order -/

/-- The matrix whose column `j` is column `perm[j]`. -/
def permuteColumns? (A : Csc α) (perm : List Nat) : Option (Csc α) := do
  let cols ← perm.mapM fun src => do pure (← A.rows? src, ← A.vals? src)
  let addEnd (ends : Array Nat) (col : Array Nat × Array α) : Array Nat :=
    ends.push (ends.back?.getD 0 + col.2.size)
  let ends := cols.foldl addEnd #[0]
  pure {
    nrows := A.nrows
    ncols := perm.length
    colPtr := ends
    rowIdx := cols.foldl (fun acc col => acc ++ col.1) #[]
    values := cols.foldl (fun acc col => acc ++ col.2) #[] }

end Csc

end Conic
