/-!
# Faults

Some operations work on data that nobody has checked yet: a matrix given by
raw arrays, a vector of any length.  Such data can lead an operation to an
index that lies outside its vector.  An operation that can meet such an index
says so in its type.  It returns an `Option`, and `none` means that an index
was out of bounds.  If it can also fail for a cause of its own, it returns
`Except (Fault ε)`.

A size that nobody has checked yet can also ask for a vector that no memory
holds.  `maxLength` is the limit.  An operation that makes a vector of such a
size has a form with a question mark, which keeps the limit.

`get?`, `update?`, `swap?` and `slice?` are the accesses from which these operations are
built.  They are the only places where an index can be found out of bounds.
-/

namespace Conic

/-- Why an operation on unchecked data fails. -/
inductive Fault (ε : Type) where
  /-- An index lies outside its vector, or a vector would be too long to
  hold. -/
  | outOfBounds
  /-- The operation fails for a cause of its own. -/
  | cause (e : ε)
  deriving Repr, DecidableEq

namespace Fault

/-- A result that is missing because an index was out of bounds. -/
def ofOption {ε β : Type} : Option β → Except (Fault ε) β
  | some b => .ok b
  | none => .error .outOfBounds

/-- A result that can fail only for a cause. -/
def lift {ε β : Type} : Except ε β → Except (Fault ε) β
  | .ok b => .ok b
  | .error e => .error (.cause e)

/-- The cause of a failure under another name. -/
def mapCause {ε ε' β : Type} (f : ε → ε') : Except (Fault ε) β → Except (Fault ε') β
  | .ok b => .ok b
  | .error .outOfBounds => .error .outOfBounds
  | .error (.cause e) => .error (.cause (f e))

end Fault

/-- The largest number of entries that a vector can have. -/
def maxLength : Nat := Nat.pow 2 60 - 1

/-! ## Checked access -/

variable {β : Type}

/-- The entry at `i` replaced by its image under `f`. -/
def update? (xs : Array β) (i : Nat) (f : β → β) : Option (Array β) :=
  if h : i < xs.size then some (xs.set i (f xs[i])) else none

/-- The entries at `i` and `j` exchanged. -/
def swap? (xs : Array β) (i j : Nat) : Option (Array β) :=
  if h : i < xs.size ∧ j < xs.size then some (xs.swap i j) else none

/-- The entries from `a` up to, but not including, `b`. -/
def slice? (xs : Array β) (a b : Nat) : Option (Array β) :=
  if a ≤ b ∧ b ≤ xs.size then some (xs.extract a b) else none

theorem update?_eq_none_iff {xs : Array β} {i : Nat} {f : β → β} :
    update? xs i f = none ↔ xs.size ≤ i := by
  simp [update?]

theorem slice?_eq_some_iff {xs ys : Array β} {a b : Nat} :
    slice? xs a b = some ys ↔ (a ≤ b ∧ b ≤ xs.size) ∧ ys = xs.extract a b := by
  unfold slice?
  split
  · next h => simp [h, eq_comm]
  · next h => simp [h]

/-- An update keeps the length. -/
theorem size_of_update?_eq_some {xs ys : Array β} {i : Nat} {f : β → β}
    (h : update? xs i f = some ys) : ys.size = xs.size := by
  unfold update? at h
  split at h
  · cases h; simp
  · cases h

end Conic
