import Conic.Ldl.Symbolic
import Conic.Ordering.MinimumDegree
import Conic.Vec

/-!
# The factorisation `L D Lᵀ`

A symmetric positive definite matrix is the product `L D Lᵀ` of a unit lower
triangular `L` and a positive diagonal `D`.  The matrix is given by its upper
triangle and is brought into a fill-reducing order first.

The factor is computed row by row.  Row `k` of `L` is the solution of a
triangular system with the rows above it.  Its pattern is collected from the
elimination tree, in an order in which every column comes before those that
depend on it.  `L` is stored by columns without its diagonal, and each row adds
one entry to each column of its pattern.

Only positive and finite pivots are accepted.  With a regularization, a pivot
below its threshold is replaced before that test.

The pattern is fixed once.  New values can be loaded and factored again.  If a
pivot fails then, the rows before it are new and the others are what they
were.  The object stays usable.

Functions with a question mark are `none` if an index is out of bounds.
-/

namespace Conic

/-- Failures of a factorisation. -/
inductive LdlError where
  /-- The matrix has different numbers of rows and columns. -/
  | notSquare
  /-- An entry is stored below the diagonal. -/
  | notUpperTriangular
  /-- A pivot is not positive. -/
  | zeroPivot
  /-- A pivot is infinite or undefined. -/
  | nonFinitePivot
  /-- The pattern cannot be ordered. -/
  | orderingFailed
  deriving Repr, DecidableEq

/-- The text of a failure. -/
def LdlError.message : LdlError → String
  | notSquare => "matrix is not square"
  | notUpperTriangular => "matrix is not upper triangular"
  | zeroPivot => "non-positive pivot"
  | nonFinitePivot => "non-finite pivot"
  | orderingFailed => "fill-reducing ordering failed"

/-- Pivots below `eps` are replaced by `delta`. -/
structure Regularization (α : Type) where
  /-- The threshold. -/
  eps : α
  /-- What replaces a pivot below it. -/
  delta : α
  deriving Repr

/-- What a factorisation computes, and the scratch that it works on.  An object
keeps all of it from one use to the next. -/
structure Work (α : Type) where
  /-- The row that is computed, scattered over all positions, and the solution
  while it is computed. -/
  y : Array α
  /-- The last row whose paths went through each node. -/
  mark : Array Nat
  /-- The path that is followed stands at the bottom, the pattern of the row at
  the top. -/
  stack : Array Nat
  /-- The number of entries that each column of `L` has so far. -/
  filled : Array Nat
  /-- The rows of `L` below the diagonal. -/
  rowIdx : Array Nat
  /-- The values of `L` below the diagonal. -/
  values : Array α
  /-- The diagonal of `D`. -/
  diag : Array α
  /-- The number of pivots that have been replaced. -/
  regularized : Nat

/-- The factors of a matrix, with what is needed to factor other values on the
same pattern. -/
structure Ldl (α : Type) extends Work α where
  /-- Position `k` of the factored matrix is row `perm[k]` of the given one. -/
  perm : Array Nat
  /-- The upper triangle in its order. -/
  permuted : Csc α
  /-- Where each entry of the given matrix went. -/
  dest : Array Nat
  /-- The elimination tree. -/
  parent : Array (Option Nat)
  /-- Where each column of `L` starts, and where the last one ends. -/
  colPtr : Array Nat
  /-- How small pivots are replaced, if at all. -/
  regularization : Option (Regularization α)

namespace Ldl

variable {α : Type} [Scalar α]

/-- The dimension. -/
def dim (F : Ldl α) : Nat := F.diag.size

/-! ## Factoring -/

/-- Follows the path from `i` towards the root up to the first node marked for
row `k`.  The nodes before it are marked and put on the stack, the first one at
`len`.  The answer has the height of the stack after them. -/
def climb? (parent : Array (Option Nat)) (k : Nat) :
    Nat → Nat → Array Nat → Array Nat → Nat → Option (Array Nat × Array Nat × Nat)
  | fuel, i, mark, stack, len => do
    if (← mark[i]?) = k then pure (mark, stack, len)
    else
      match fuel with
      | 0 => none
      | fuel + 1 =>
        let stack ← update? stack len fun _ => i
        let mark ← update? mark i fun _ => k
        match ← parent[i]? with
        | none => pure (mark, stack, len + 1)
        | some p => climb? parent k fuel p mark stack (len + 1)

/-- Moves the nodes of a path from the bottom of the stack below `top`, the last
one first. -/
def lift? : Nat → Nat → Array Nat → Option (Array Nat × Nat)
  | 0, top, stack => some (stack, top)
  | _ + 1, 0, _ => none
  | len + 1, top + 1, stack => do lift? len top (← swap? stack top len)

/-- Scatters one entry of column `k` and puts the path of its row in front of
the pattern, which starts at `top` on the stack. -/
def scatter? (F : Ldl α) (k : Nat) (s : Work α × Nat) (idx : Nat) : Option (Work α × Nat) := do
  let (w, top) := s
  let i ← F.permuted.rowIdx[idx]?
  let v ← F.permuted.values[idx]?
  let y ← update? w.y i (· + v)
  let (mark, stack, len) ← climb? F.parent k F.dim i w.mark w.stack 0
  let (stack, top) ← lift? len top stack
  pure ({ w with y := y, mark := mark, stack := stack }, top)

/-- Scatters column `k`.  The pattern lists the columns that row `k` of `L`
depends on, each before those that depend on it. -/
def collect? (F : Ldl α) (k : Nat) (w : Work α) : Option (Work α × List Nat) := do
  let w := { w with mark := ← update? w.mark k fun _ => k }
  let (w, top) ← (← span? F.permuted k).foldlM (scatter? F k) (w, F.dim)
  pure (w, (← slice? w.stack top F.dim).toList)

/-- Subtracts a multiple of one stored entry of `L`. -/
def subtract? (rowIdx : Array Nat) (values : Array α) (t : α) (y : Array α) (p : Nat) :
    Option (Array α) := do
  let v ← values[p]?
  update? y (← rowIdx[p]?) fun yi => yi - v * t

/-- Computes the entry of row `k` in column `i` and appends it to the column.
The pivot loses the square of the entry, weighted by the pivot of the
column. -/
def eliminate? (F : Ldl α) (k : Nat) (s : Work α × α) (i : Nat) : Option (Work α × α) := do
  let (w, dk) := s
  let yi ← w.y[i]?
  let y ← update? w.y i fun _ => 0
  let start ← F.colPtr[i]?
  let count ← w.filled[i]?
  let y ← (List.range' start count).foldlM (subtract? w.rowIdx w.values yi) y
  let entry := yi / (← w.diag[i]?)
  pure ({ w with
    y := y
    rowIdx := ← update? w.rowIdx (start + count) fun _ => k
    values := ← update? w.values (start + count) fun _ => entry
    filled := ← update? w.filled i (· + 1) }, dk - entry * yi)

/-- A pivot after regularization, and whether it was replaced. -/
def repair (reg : Option (Regularization α)) (dk : α) : α × Bool :=
  match reg with
  | some r => if dk < r.eps then (r.delta, true) else (dk, false)
  | none => (dk, false)

/-- Why a pivot is refused, if it is. -/
def refusal? (dk : α) : Option LdlError :=
  if !Scalar.isFinite dk then some .nonFinitePivot
  else if dk ≤ 0 then some .zeroPivot
  else none

/-- Computes row `k` of `L` and its pivot.  A pivot that is refused is not
stored. -/
def row? (F : Ldl α) (k : Nat) (w : Work α) : Option (Work α × Option LdlError) := do
  let (w, pattern) ← collect? F k w
  let dk ← w.y[k]?
  let w := { w with y := ← update? w.y k fun _ => 0 }
  let (w, dk) ← pattern.foldlM (eliminate? F k) (w, dk)
  let (dk, replaced) := repair F.regularization dk
  let w := { w with regularized := if replaced then w.regularized + 1 else w.regularized }
  match refusal? dk with
  | some e => pure (w, some e)
  | none => pure ({ w with diag := ← update? w.diag k fun _ => dk }, none)

/-- Computes rows one after the other until a pivot is refused. -/
def rows? (F : Ldl α) : List Nat → Work α → Option (Work α × Option LdlError)
  | [], w => some (w, none)
  | k :: ks, w =>
    match row? F k w with
    | none => none
    | some (w, some e) => some (w, some e)
    | some (w, none) => rows? F ks w

/-- What a factorisation starts from: empty columns, a zero row and no marks.
The stack, the factor and the pivots are those that are there. -/
def work (F : Ldl α) : Work α :=
  { F.toWork with
    y := Vec.fill F.y 0
    mark := F.mark.map fun _ => F.dim
    filled := F.filled.map fun _ => 0
    regularized := 0 }

/-- Factors the loaded values.  The result holds the rows up to the first pivot
that was refused, and says which pivot failure that was, if there was one. -/
def refactor? (F : Ldl α) : Option (Ldl α × Option LdlError) := do
  let (w, e) ← F.rows? (List.range F.dim) F.work
  pure ({ F with toWork := w }, e)

/-- Loads values.  They are laid out as the values of the given matrix.  Fewer
or more of them than it has are loaded as far as they go. -/
def updateValues (F : Ldl α) (values : Array α) : Ldl α :=
  let loaded := (F.dest.zip values).foldl (fun vs p => vs.setIfInBounds p.1 p.2) F.permuted.values
  { F with permuted := { F.permuted with values := loaded } }

/-- The object of an upper triangle in a given order, before it is factored. -/
def start? (M : Csc α) (perm : Array Nat) (reg : Option (Regularization α)) : Option (Ldl α) := do
  let (permuted, dest) ← permuteTriu? M perm
  let (parent, colPtr) ← analyse? permuted
  let nnz ← colPtr[M.ncols]?
  pure {
    perm := perm
    permuted := permuted
    dest := dest
    parent := parent
    colPtr := colPtr
    rowIdx := Array.replicate nnz 0
    values := Vec.zeros nnz
    diag := Vec.zeros M.ncols
    regularization := reg
    regularized := 0
    y := Vec.zeros M.ncols
    mark := Array.replicate M.ncols M.ncols
    stack := Array.replicate M.ncols 0
    filled := Array.replicate M.ncols 0 }

/-- Factors an upper triangle in a given order. -/
def ofOrder (M : Csc α) (perm : Array Nat) (reg : Option (Regularization α)) :
    Except (Fault LdlError) (Ldl α) := do
  let F ← Fault.ofOption (start? M perm reg)
  match ← Fault.ofOption F.refactor? with
  | (F, none) => pure F
  | (_, some e) => throw (.cause e)

/-- The order in which a triangle is factored.  The columns must start at the
first entry. -/
def order (M : Csc α) : Except (Fault LdlError) (Array Nat) := do
  if M.ncols = 0 then pure #[]
  else if M.colPtr[0]? ≠ some 0 then throw (.cause .orderingFailed)
  else
    let columns ← Fault.ofOption ((List.range M.ncols).mapM M.rows?)
    pure (Ordering.minimumDegree (columns.map Array.toList)).toArray

/-- Orders, analyses and factors an upper triangle. -/
def factor (M : Csc α) (reg : Option (Regularization α)) : Except (Fault LdlError) (Ldl α) := do
  if M.nrows ≠ M.ncols then throw (.cause .notSquare)
  if !(← Fault.ofOption M.isTriu?) then throw (.cause .notUpperTriangular)
  ofOrder M (← order M) reg

/-! ## Solving -/

/-- The part of the solution that column `j` of `L` has a share in, on the way
down. -/
def forward? (F : Ldl α) (x : Array α) (j : Nat) : Option (Array α) := do
  let xj ← x[j]?
  let a ← F.colPtr[j]?
  let b ← F.colPtr[j + 1]?
  (List.range' a (b - a)).foldlM (subtract? F.rowIdx F.values xj) x

/-- The entry `j` of the solution, on the way up. -/
def backward? (F : Ldl α) (x : Array α) (j : Nat) : Option (Array α) := do
  let xj ← x[j]?
  let a ← F.colPtr[j]?
  let b ← F.colPtr[j + 1]?
  let s ← (List.range' a (b - a)).foldlM (fun s p => do
    let v ← F.values[p]?
    let xi ← x[← F.rowIdx[p]?]?
    pure (s - v * xi)) xj
  update? x j fun _ => s

/-- The solution of `M x = b`, and the object after it.  Entries of `b` beyond
the dimension stay.  The solution is computed in the scratch row, which is zero
afterwards. -/
def solve? (F : Ldl α) (b : Array α) : Option (Array α × Ldl α) := do
  let n := F.dim
  let x ← ((List.range F.y.size).zip F.perm.toList).foldlM
    (fun x e => do let v ← b[e.2]?; update? x e.1 fun _ => v) F.y
  let x ← (List.range n).foldlM (forward? F) x
  let x := Array.zipWith (fun x d => x / d) x F.diag
  let x ← (List.range n).reverse.foldlM (backward? F) x
  let b ← (F.perm.zip x).toList.foldlM (fun b p => update? b p.1 fun _ => p.2) b
  pure (b, { F with y := Vec.fill x 0 })

/-- The solution of `M x = b`, for a right-hand side that is long enough. -/
def solve (F : Ldl α) (b : Array α) : Array α := ((F.solve? b).map Prod.fst).getD b

end Ldl

end Conic
