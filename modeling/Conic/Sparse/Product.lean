import Conic.Sparse.Basic
import Conic.Vec

/-!
# Products with a sparse matrix

Three products add to a vector `y`, which is scaled first.

* `mulAdd?` gives `a * A * x + b * y`.
* `mulAddT?` gives `a * Aᵀ * x + b * y`.
* `symMulAdd?` gives `a * S * x + b * y` for the symmetric `S` whose upper
  triangle is `A`.

If `b` is zero, `y` is cleared and not multiplied, so nothing that it held
reaches the result.

Each product has a checked form, which is `none` if an index is out of bounds,
and a form without the question mark.  The second form is for operands that
are known to fit together.  It returns `y` where the first one has no result.
-/

namespace Conic.Csc

variable {α : Type} [Scalar α]

/-- The vector `b * y`.  It is zero if `b` is zero. -/
def scaleOrClear (b : α) (y : Array α) : Array α :=
  if b == 0 then Vec.fill y 0 else if b == 1 then y else Vec.scale y b

/-- The multiple `t` of a column added to `y`, entry by entry. -/
def addColumn? (t : α) (y : Array α) (col : List (Nat × α)) : Option (Array α) :=
  col.foldlM (fun y e => update? y e.1 fun yi => yi + e.2 * t) y

/-- `a * A * x + b * y`. -/
def mulAdd? (A : Csc α) (a : α) (x : Array α) (b : α) (y : Array α) : Option (Array α) :=
  x.toList.zipIdx.foldlM (fun y p => do addColumn? (a * p.1) y (← A.column? p.2))
    (scaleOrClear b y)

/-- The inner product of a column and `x`. -/
def columnDot? (x : Array α) (col : List (Nat × α)) : Option α :=
  col.foldlM (fun acc e => do pure (acc + e.2 * (← x[e.1]?))) 0

/-- `a * Aᵀ * x + b * y`. -/
def mulAddT? (A : Csc α) (a : α) (x : Array α) (b : α) (y : Array α) : Option (Array α) := do
  let entries ← y.toList.zipIdx.mapM fun p => do
    let s ← columnDot? x (← A.column? p.2)
    pure (if b == 0 then a * s else a * s + b * p.1)
  pure entries.toArray

/-- One entry of the upper triangle of a symmetric matrix, added at its own
position and, off the diagonal, at the transposed one. -/
def addSymmetric? (a : α) (x : Array α) (j : Nat) (y : Array α) (e : Nat × α) :
    Option (Array α) := do
  let xj ← x[j]?
  let y ← update? y e.1 fun yi => yi + a * e.2 * xj
  if e.1 = j then pure y
  else
    let xi ← x[e.1]?
    update? y j fun yj => yj + a * e.2 * xi

/-- `a * S * x + b * y` for the symmetric `S` whose upper triangle is `A`. -/
def symMulAdd? (A : Csc α) (a : α) (x : Array α) (b : α) (y : Array α) : Option (Array α) :=
  if A.ncols ≠ 0 ∧ A.colPtr.size ≤ A.ncols then none
  else
    (List.range A.ncols).foldlM (fun y j => do (← A.column? j).foldlM (addSymmetric? a x j) y)
      (scaleOrClear b y)

/-- `a * A * x + b * y`, for operands that fit together. -/
def mulAdd (A : Csc α) (a : α) (x : Array α) (b : α) (y : Array α) : Array α :=
  (A.mulAdd? a x b y).getD y

/-- `a * Aᵀ * x + b * y`, for operands that fit together. -/
def mulAddT (A : Csc α) (a : α) (x : Array α) (b : α) (y : Array α) : Array α :=
  (A.mulAddT? a x b y).getD y

/-- `a * S * x + b * y`, for operands that fit together. -/
def symMulAdd (A : Csc α) (a : α) (x : Array α) (b : α) (y : Array α) : Array α :=
  (A.symMulAdd? a x b y).getD y

/-- With `b` zero, only the length of `y` matters. -/
theorem scaleOrClear_congr {b : α} (hb : (b == 0) = true) {y z : Array α} (h : y.size = z.size) :
    scaleOrClear b y = scaleOrClear b z := by
  simp only [scaleOrClear, hb, if_true, Vec.fill]
  apply Array.ext <;> simp [h]

end Conic.Csc
