import Conic.Sparse.Basic

/-!
# The format of a sparse matrix

Three arrays are a matrix if the pointers start at zero, never decrease and end
at the number of entries, and if the rows of each column increase strictly and
stay below the number of rows.  `checkFormat` decides this and names the first
defect.  Its checks come in an order in which each one relies on those before
it, so it never reads out of bounds.
-/

namespace Conic

/-- Defects of the format. -/
inductive FormatError where
  /-- The lengths of the arrays do not agree with each other. -/
  | incompatibleDimension
  /-- The pointers decrease somewhere. -/
  | badColptr
  /-- A row is out of range, or the rows of a column do not increase. -/
  | badRowval
  deriving Repr, DecidableEq

/-- The text of a defect. -/
def FormatError.message : FormatError → String
  | incompatibleDimension => "colptr, rowval and nzval lengths do not agree with the matrix size"
  | badColptr => "column pointers are not non-decreasing"
  | badRowval => "row indices out of range or not strictly increasing within a column"

/-- Neighbours in a list are related. -/
def chained (r : Nat → Nat → Bool) : List Nat → Bool
  | a :: b :: rest => r a b && chained r (b :: rest)
  | _ => true

namespace Csc

variable {α : Type}

/-- The lengths agree, and the pointers start and end where they should. -/
def dimensionsAgree (A : Csc α) : Bool :=
  A.colPtr.size == A.ncols + 1 && A.rowIdx.size == A.nnz &&
    A.colPtr[0]? == some 0 && A.colPtr.back? == some A.nnz

/-- The rows of a column increase strictly and are rows of the matrix. -/
def rowsInOrder (A : Csc α) (rows : Array Nat) : Bool :=
  chained (fun a b => decide (a < b)) rows.toList && rows.back?.all (· < A.nrows)

/-- Decides whether the arrays are a matrix. -/
def checkFormat (A : Csc α) : Except (Fault FormatError) Unit := do
  if !A.dimensionsAgree then throw (.cause .incompatibleDimension)
  if !chained (fun a b => decide (a ≤ b)) A.colPtr.toList then throw (.cause .badColptr)
  for j in List.range A.ncols do
    let rows ← Fault.ofOption (A.rows? j)
    if !A.rowsInOrder rows then throw (.cause .badRowval)

end Csc

end Conic
