import Conic.Sparse.Basic

/-!
# The symbolic part of a factorisation

A symmetric matrix `M` is given by its upper triangle.  With an order `perm` of
its rows, position `k` of `P M Pᵀ` holds row and column `perm[k]` of `M`.  This
module computes what depends on the pattern alone.

* `permuteTriu?` is the upper triangle of `P M Pᵀ`.  It also says where every
  entry of `M` went, so that new values can be loaded without permuting again.
* `analyse?` is the elimination tree of an upper triangle, and the column
  pointers of its factor.

The parent of column `i` is the first column behind `i` that depends on it.
The rows of the factor in which column `k` of the triangle has an entry are the
nodes on the paths from the rows of that column towards the root, up to `k`.
Each such path stops at a node that an earlier path has marked.
-/

namespace Conic.Ldl

variable {α : Type}

/-! ## The permuted triangle -/

/-- The position of every row in an order of `n` rows. -/
def inverse? (n : Nat) (perm : Array Nat) : Option (Array Nat) :=
  perm.toList.zipIdx.foldlM (fun inv p => update? inv p.1 fun _ => p.2) (Array.replicate n 0)

/-- Where the entry at a position goes: the row and the column of the upper
triangle. -/
def target? (inv : Array Nat) (row col : Nat) : Option (Nat × Nat) := do
  let r ← inv[row]?
  let c ← inv[col]?
  pure (min r c, max r c)

/-- Sums of the counts before each position, and of all of them. -/
def runningSums (counts : List Nat) : Array Nat :=
  counts.foldl (fun sums c => sums.push (sums.back?.getD 0 + c)) #[0]

/-- A permuted triangle while its entries are put in place. -/
structure Placement (α : Type) where
  /-- The next free position of each column. -/
  next : Array Nat
  /-- The rows put in place so far. -/
  rowIdx : Array Nat
  /-- The values put in place so far. -/
  values : Array α
  /-- Where each entry went. -/
  dest : Array Nat

/-- Puts the entry `idx` of column `j` in its place. -/
def place? (M : Csc α) (inv : Array Nat) (j : Nat) (s : Placement α) (idx : Nat) :
    Option (Placement α) := do
  let (r, c) ← target? inv (← M.rowIdx[idx]?) j
  let k ← s.next[c]?
  let v ← M.values[idx]?
  pure {
    next := ← update? s.next c (· + 1)
    rowIdx := ← update? s.rowIdx k fun _ => r
    values := ← update? s.values k fun _ => v
    dest := ← update? s.dest idx fun _ => k }

/-- The indices of the entries of column `j`. -/
def span? (M : Csc α) (j : Nat) : Option (List Nat) := do
  let a ← M.colPtr[j]?
  let b ← M.colPtr[j + 1]?
  pure (List.range' a (b - a))

/-- The upper triangle of `P M Pᵀ`, and the place in it of every entry of
`M`. -/
def permuteTriu? [Zero α] (M : Csc α) (perm : Array Nat) : Option (Csc α × Array Nat) := do
  let n := M.ncols
  let inv ← inverse? n perm
  let counts ← (List.range n).foldlM (fun counts j => do
    (← M.rows? j).toList.foldlM (fun counts i => do
      update? counts (← target? inv i j).2 (· + 1)) counts) (Array.replicate n 0)
  let colPtr := runningSums counts.toList
  let start : Placement α :=
    ⟨colPtr.pop, Array.replicate M.nnz 0, Array.replicate M.nnz 0, Array.replicate M.nnz 0⟩
  let s ← (List.range n).foldlM (fun s j => do
    (← span? M j).foldlM (place? M inv j) s) start
  pure (⟨n, n, colPtr, s.rowIdx, s.values⟩, s.dest)

/-! ## The elimination tree -/

/-- The elimination tree while it is built. -/
structure Tree where
  /-- The parent of each column, as far as it is known. -/
  parent : Array (Option Nat)
  /-- The last column whose paths went through each node. -/
  mark : Array Nat
  /-- The number of rows of each column of the factor. -/
  count : Array Nat

/-- Follows the path from `i` until it meets a node marked for column `k`.  A
node without a parent becomes a child of `k`. -/
def grow? (k : Nat) : Nat → Nat → Tree → Option Tree
  | 0, _, _ => none
  | fuel + 1, i, t => do
    if (← t.mark[i]?) = k then pure t
    else
      let p := (← t.parent[i]?).getD k
      grow? k fuel p {
        parent := ← update? t.parent i fun _ => some p
        mark := ← update? t.mark i fun _ => k
        count := ← update? t.count i (· + 1) }

/-- Follows the paths of column `k`. -/
def growColumn? (P : Csc α) (t : Tree) (k : Nat) : Option Tree := do
  let t := { t with mark := ← update? t.mark k fun _ => k }
  (← P.rows? k).toList.foldlM (fun t i => grow? k (P.ncols + 1) i t) t

/-- The elimination tree of an upper triangle and the column pointers of its
factor. -/
def analyse? (P : Csc α) : Option (Array (Option Nat) × Array Nat) := do
  let n := P.ncols
  let t ← (List.range n).foldlM (growColumn? P)
    ⟨Array.replicate n none, Array.replicate n n, Array.replicate n 0⟩
  pure (t.parent, runningSums t.count.toList)

end Conic.Ldl
