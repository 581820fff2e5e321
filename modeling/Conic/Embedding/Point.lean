import Conic.Cone.Composite

/-!
# Points of the embedding

The method does not work on the program itself but on its homogeneous
self-dual embedding.  A point of the embedding has two more coordinates, `τ` and
`κ`, both positive.  A point with zero residuals gives a solution of the program
if `τ` stays away from zero, after division by `τ`.  It gives a certificate of
infeasibility if `τ` vanishes and `κ` does not.

All vectors are in working order.
-/

namespace Conic

/-- A point of the embedding. -/
structure Point (α : Type) where
  /-- The primal point. -/
  x : Array α
  /-- The dual point. -/
  w : Array α
  /-- The dual slack. -/
  s : Array α
  /-- The scale of the point. -/
  tau : α
  /-- The slack of the scale. -/
  kappa : α

/-- A direction in the embedding. -/
structure Direction (α : Type) where
  /-- The change of the primal point. -/
  dx : Array α
  /-- The change of the dual point. -/
  dw : Array α
  /-- The change of the dual slack. -/
  ds : Array α
  /-- The change of `τ`. -/
  dtau : α
  /-- The change of `κ`. -/
  dkappa : α

/-- Every entry of the direction is finite. -/
def Direction.isFinite {α : Type} [Scalar α] (d : Direction α) : Bool :=
  Vec.isFinite d.dx && Vec.isFinite d.dw && Vec.isFinite d.ds && Scalar.isFinite d.dtau &&
    Scalar.isFinite d.dkappa

namespace Point

variable {α : Type} [Scalar α]

/-- The starting point: `x = s = e`, `w = 0` and `τ = κ = 1`. -/
def unit (K : Composite α) (nrows : Nat) : Point α := ⟨K.unit, Vec.zeros nrows, K.unit, 1, 1⟩

/-- The complementarity `xᵀs + τκ`. -/
def complementarity (p : Point α) : α := Vec.dot p.x p.s + p.tau * p.kappa

/-- The point `p + step * d`. -/
def move (p : Point α) (d : Direction α) (step : α) : Point α where
  x := Vec.axpby step d.dx 1 p.x
  w := Vec.axpby step d.dw 1 p.w
  s := Vec.axpby step d.ds 1 p.s
  tau := p.tau + step * d.dtau
  kappa := p.kappa + step * d.dkappa

/-- The point of the program that a point of the embedding stands for.  Its `τ`
is one. -/
def normalized (p : Point α) : Point α :=
  let scale := Scalar.recip p.tau
  { x := Vec.scale p.x scale
    w := Vec.scale p.w scale
    s := Vec.scale p.s scale
    tau := 1
    kappa := p.kappa * scale }

/-! ## The step to the boundary -/

/-- A bound on the step, lowered so that a positive coordinate does not become
negative. -/
def boundStep (step v dv : α) : α := if dv < 0 then Scalar.minNum step (-v / dv) else step

/-- The largest step of at most one that keeps `x` and `s` in the cone and `τ`
and `κ` from becoming negative. -/
def maxStep (K : Composite α) (p : Point α) (d : Direction α) : α :=
  let step := Scalar.minNum (K.maxStep p.x d.dx) (K.maxStep p.s d.ds)
  let step := boundStep step p.tau d.dtau
  let step := boundStep step p.kappa d.dkappa
  Scalar.clip step 0 1

@[simp] theorem tau_normalized (p : Point α) : p.normalized.tau = 1 := rfl

@[simp] theorem tau_unit (K : Composite α) (nrows : Nat) : (unit K nrows).tau = 1 := rfl

@[simp] theorem kappa_unit (K : Composite α) (nrows : Nat) : (unit K nrows).kappa = 1 := rfl

end Point

end Conic
