/-!
# Looking up a row

The rows of a column are looked up by halving.  In a strictly increasing array
the answer is the position of the row, or the position where it would stand.
In any other array the answer is still determined, by the entries that the
halving compares.
-/

namespace Conic.Search

/-- Halves the part of `rows` that starts at `base` and is `size` long.  A part
whose middle is not above `row` is left by its first half. -/
def narrow (rows : Array Nat) (row : Nat) : Nat → Nat → Nat → Nat
  | 0, base, _ => base
  | fuel + 1, base, size =>
    if size ≤ 1 then base
    else
      let half := size / 2
      let mid := base + half
      let base := if row < rows.getD mid 0 then base else mid
      narrow rows row fuel base (size - half)

/-- Where a row stands, or would stand. -/
inductive Place where
  /-- The row is at this position. -/
  | found (k : Nat)
  /-- The row is missing and would go to this position. -/
  | missing (k : Nat)
  deriving Repr, DecidableEq

/-- The position of a place. -/
def Place.position : Place → Nat
  | found k => k
  | missing k => k

/-- Looks up a row by halving. -/
def place (rows : Array Nat) (row : Nat) : Place :=
  let base := narrow rows row rows.size 0 rows.size
  match rows[base]? with
  | none => .missing 0
  | some r => if r = row then .found base else .missing (if r < row then base + 1 else base)

/-- A position that was found holds the row. -/
theorem getElem?_of_place_eq_found {rows : Array Nat} {row k : Nat}
    (h : place rows row = .found k) : rows[k]? = some row := by
  simp only [place] at h
  split at h
  · cases h
  · next r hr =>
    split at h
    · next he => cases h; rw [hr, he]
    · cases h

end Conic.Search
