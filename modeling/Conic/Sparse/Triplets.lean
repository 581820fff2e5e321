import Conic.Sparse.Format

/-!
# Matrices from triplets

A matrix can be given as a list of triplets, each a row, a column and a value,
in any order.  The values of one position are added up in the order of the
list.

The triplets are sorted by column and row.  The sort is stable, so the values
of one position stay in their order.  Then `collapse` adds up neighbours of
one position.
-/

namespace Conic

/-- A row, a column and a value. -/
structure Triplet (α : Type) where
  /-- The row. -/
  row : Nat
  /-- The column. -/
  col : Nat
  /-- The value. -/
  value : α

namespace Triplet

variable {α : Type}

/-- The position of `s` does not come after that of `t`. -/
def precedes (s t : Triplet α) : Bool :=
  decide (s.col < t.col ∨ (s.col = t.col ∧ s.row ≤ t.row))

/-- The position lies outside the matrix of the given size. -/
def isOutside (m n : Nat) (t : Triplet α) : Bool := decide (m ≤ t.row ∨ n ≤ t.col)

/-- Two triplets have the same position. -/
def samePlace (s t : Triplet α) : Bool := s.row == t.row && s.col == t.col

/-- Neighbours of one position added up, from left to right. -/
def collapse [Add α] : List (Triplet α) → List (Triplet α)
  | [] => []
  | t :: rest => go t rest
where
  /-- Adds to `t` while the position stays the same. -/
  go (t : Triplet α) : List (Triplet α) → List (Triplet α)
    | [] => [t]
    | u :: rest =>
      if t.samePlace u then go { t with value := t.value + u.value } rest else t :: go u rest

end Triplet

namespace Csc

variable {α : Type}

/-- The matrix of triplets that are sorted by position, one for each
position. -/
def ofSorted (m n : Nat) (entries : List (Triplet α)) : Csc α where
  nrows := m
  ncols := n
  colPtr := ((List.range (n + 1)).map fun j => entries.countP (·.col < j)).toArray
  rowIdx := (entries.map (·.row)).toArray
  values := (entries.map (·.value)).toArray

/-- The matrix of a list of triplets.  It fails if one of them lies outside the
matrix. -/
def ofTriplets [Add α] (m n : Nat) (triplets : List (Triplet α)) : Except FormatError (Csc α) :=
  if triplets.any (Triplet.isOutside m n) then .error .badRowval
  else .ok (ofSorted m n (Triplet.collapse (triplets.mergeSort Triplet.precedes)))

/-- The matrix of a list of triplets, if its pointers can be held.  A triplet
outside the matrix is found first. -/
def ofTriplets? [Add α] (m n : Nat) (triplets : List (Triplet α)) :
    Except (Fault FormatError) (Csc α) :=
  if n < maxLength ∨ triplets.any (Triplet.isOutside m n) then Fault.lift (ofTriplets m n triplets)
  else .error .outOfBounds

end Csc

end Conic
