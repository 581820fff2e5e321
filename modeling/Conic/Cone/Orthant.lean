import Conic.Fault
import Conic.Scalar

/-!
# The non-negative orthant

A block of coordinates that may not be negative.  Its scaling at a pair
`(x, s)` of interior points is the diagonal `Θ = diag(√(xᵢ / sᵢ))`, so that
`x = Θ²s` and `Θ⁻¹x = Θs`.  Its Jordan product is the product entry by entry,
and its identity is the vector of ones.

Operations stop at the end of the shortest list they are given.
-/

namespace Conic

/-- A block of the orthant with the diagonal of its scaling. -/
structure Orthant (α : Type) where
  /-- The diagonal of `Θ`. -/
  theta : List α
  deriving Repr

namespace Orthant

variable {α : Type} [Scalar α]

/-- The block of `n` coordinates, scaled by the identity. -/
def ofDim (n : Nat) : Orthant α := ⟨List.replicate n 1⟩

/-- The block of `n` coordinates, if their scaling can be held. -/
def ofDim? (n : Nat) : Option (Orthant α) := if n ≤ maxLength then some (ofDim n) else none

/-- The number of coordinates. -/
def numel (K : Orthant α) : Nat := K.theta.length

/-- Every coordinate is positive. -/
def isInterior (x : List α) : Bool := x.all fun xi => decide (0 < xi)

/-- The scaling at `(x, s)`.  It stays what it was, and the answer is no, if one
of the points is not interior. -/
def updateScaling (K : Orthant α) (x s : List α) : Bool × Orthant α :=
  if isInterior x && isInterior s then
    let new := List.zipWith (fun _ p => Scalar.sqrt (p.1 / p.2)) K.theta (x.zip s)
    (true, ⟨new ++ K.theta.drop new.length⟩)
  else (false, K)

/-- `Θv`. -/
def mulTheta (K : Orthant α) (v : List α) : List α := List.zipWith (fun θ v => θ * v) K.theta v

/-- `Θ⁻¹v`. -/
def mulThetaInv (K : Orthant α) (v : List α) : List α := List.zipWith (fun θ v => v / θ) K.theta v

/-- `Θ²v`. -/
def mulThetaSq (K : Orthant α) (v : List α) : List α :=
  List.zipWith (fun θ v => θ * θ * v) K.theta v

/-- The diagonal of `Θ²`. -/
def thetaSq (K : Orthant α) : List α := K.theta.map fun θ => θ * θ

/-- The Jordan product `x ∘ y`. -/
def circ (x y : List α) : List α := List.zipWith (fun x y => x * y) x y

/-- The solution `z` of `x ∘ z = y`. -/
def invCirc (x y : List α) : List α := List.zipWith (fun x y => y / x) x y

/-- `v + a * e`. -/
def addScaledE (a : α) (v : List α) : List α := v.map (· + a)

/-- The ratios at which the coordinates that decrease reach zero. -/
def ratios (v dv : List α) : List α :=
  (v.zip dv).filterMap fun p => if p.2 < 0 then some (-p.1 / p.2) else none

/-- The smaller of a value and the least one found so far.  A value that is not
a number is left out. -/
def lesser (m : Option α) (r : α) : Option α :=
  if Scalar.isNaN r then m
  else
    match m with
    | some m => some (Scalar.minNum m r)
    | none => some r

/-- The smallest of a list of scalars, those left out that are not numbers. -/
def least? (rs : List α) : Option α := rs.foldl lesser none

/-- The largest step that keeps `v + step * dv` non-negative.  It is one if no
coordinate decreases. -/
def maxStep (v dv : List α) : α :=
  match least? (ratios v dv) with
  | some r => if Scalar.isFinite r then r else 1
  | none => 1

@[simp] theorem numel_ofDim (n : Nat) : (ofDim n : Orthant α).numel = n := by
  simp [ofDim, numel]

/-- The scaling keeps the number of coordinates. -/
theorem numel_updateScaling (K : Orthant α) (x s : List α) :
    (K.updateScaling x s).2.numel = K.numel := by
  unfold updateScaling
  split
  · simp only [numel, List.length_append, List.length_drop, List.length_zipWith, List.length_zip]
    omega
  · rfl

end Orthant

end Conic
