import Conic.Embedding.Residuals
import Conic.Schur.Solve

/-!
# The Newton system

A direction solves the linear system

```text
 A dx - b dτ         = r₁
 Aᵀdw + ds - c dτ    = r₂
-cᵀdx + bᵀdw - dκ    = r₃
 λ ∘ (Θ⁻¹dx + Θds)   = r₄
 κ dτ + τ dκ         = r₅
```

at a point whose scaled form is `λ = Θ⁻¹x = Θs`.  The steps `ds` and `dx` are
eliminated, which leaves a system with the Schur complement `M = AΘ²Aᵀ` in
`dw`.  The column of `dτ` is eliminated with two vectors that belong to the point
alone and not to the right-hand side,

```text
M g₂ = b + AΘ²c,   g₁ = Θ²(Aᵀg₂ - c).
```

`ScaledPoint` holds what belongs to the point, and `NewtonRhs` is the right-hand
side.  `Direction.solve` puts them together.
-/

namespace Conic

/-! ## What belongs to the point -/

/-- The scaled form of a point, and the vectors that eliminate `dτ`. -/
structure ScaledPoint (α : Type) where
  /-- `Θ⁻¹x`. -/
  xbar : Array α
  /-- `Θs`. -/
  sbar : Array α
  /-- `Θ²(Aᵀg₂ - c)`. -/
  g1 : Array α
  /-- The solution of `M g₂ = b + AΘ²c`. -/
  g2 : Array α
  /-- The cone, scaled at the point. -/
  cones : Composite α
  /-- The factored Schur complement. -/
  schur : FactoredSchur α

/-- The diagonal of the reflection on all coordinates: ones on the orthant, and
`1, -1, …, -1` on each second-order cone. -/
def Composite.reflection {α : Type} [Scalar α] (K : Composite α) : Array α :=
  (K.blocks.flatMap fun b =>
    match b with
    | .orthant B => List.replicate B.numel 1
    | .secondOrder B => SecondOrder.reflection B.numel).toArray

section

variable {α : Type} [Scalar α]

/-- A vector multiplied by `AΘ²` and added to another one. -/
def addSchurColumn (W : WorkingCopy α) (K : Composite α) (v y : Array α) : Array α :=
  W.A.mulAdd 1 (K.mulThetaSq v) 1 y

/-- `Θ²(Aᵀy - v)`. -/
def pullBack (W : WorkingCopy α) (K : Composite α) (y v : Array α) : Array α :=
  K.mulThetaSq (W.A.mulAddT 1 y (-1) v)

/-- Scales the cone at a point, factors the Schur complement there and
eliminates `dτ`. -/
def ScaledPoint.compute (W : WorkingCopy α) (settings : Settings α) (K : Composite α)
    (S : FactoredSchur α) (p : Point α) : Except (Breakdown α) (ScaledPoint α) := do
  let refl := K.reflection
  let (interior, K) := K.updateScaling p.x p.s refl
  if !interior then throw .leftCone
  let xbar := K.mulThetaInv p.x
  let sbar := K.mulTheta p.s
  let S := { S with schur := S.schur.assemble W.A K refl }
  let S ← S.factor settings
  let g2 ← S.solve settings (addSchurColumn W K W.c W.b)
  let g1 := pullBack W K g2 W.c
  if !(Vec.isFinite xbar && Vec.isFinite sbar && Vec.isFinite g1) then throw .nonFinite
  pure ⟨xbar, sbar, g1, g2, K, S⟩

/-! ## The right-hand side -/

/-- The right-hand side of the Newton system. -/
structure NewtonRhs (α : Type) where
  /-- The primal equation. -/
  r1 : Array α
  /-- The dual equation. -/
  r2 : Array α
  /-- The equation of the gap. -/
  r3 : α
  /-- The complementarity of the cone. -/
  r4 : Array α
  /-- The complementarity of `τ` and `κ`. -/
  r5 : α

/-- The right-hand side of a step that reduces the residuals by the factor `σ`
and aims at the complementarity `σμ`:

```text
r₄ = σμe - λ∘λ,   r₅ = σμ - τκ.
``` -/
def NewtonRhs.centred (r : Residuals α) (p : Point α) (P : ScaledPoint α) (sigma mu : α) :
    NewtonRhs α :=
  let eta := 1 - sigma
  let target := sigma * mu
  { r1 := Vec.scale r.rp eta
    r2 := Vec.scale r.rd eta
    r3 := eta * r.rg
    r4 := P.cones.addScaledE target (Vec.negate (P.cones.circ P.xbar P.sbar))
    r5 := target - p.tau * p.kappa }

/-- The right-hand side with the second-order terms of a direction:
`(Θ⁻¹dx) ∘ (Θds)` is taken off `r₄`, and `dτ dκ` off `r₅`. -/
def NewtonRhs.correct (rhs : NewtonRhs α) (P : ScaledPoint α) (d : Direction α) : NewtonRhs α :=
  let product := P.cones.circ (P.cones.mulThetaInv d.dx) (P.cones.mulTheta d.ds)
  { rhs with
    r4 := Vec.axpby (-1) product 1 rhs.r4
    r5 := rhs.r5 - d.dtau * d.dkappa }

/-! ## The direction -/

/-- The solution of the Newton system.  The denominator of `dτ` is
`κ/τ + ‖Θ(Aᵀg₂ - c)‖²`, which is positive in exact arithmetic. -/
def Direction.solve (W : WorkingCopy α) (settings : Settings α) (p : Point α)
    (P : ScaledPoint α) (r : NewtonRhs α) : Except (Breakdown α) (Direction α) := do
  let K := P.cones
  let v := K.mulThetaInv (K.invCirc P.xbar r.r4)
  let q := Vec.axpby (-1) v 1 r.r2
  let h2 ← P.schur.solve settings (addSchurColumn W K q r.r1)
  let h1 := pullBack W K h2 q
  let den := p.kappa / p.tau - Vec.dot W.c P.g1 + Vec.dot W.b P.g2
  if !Scalar.isFinite den ∨ den ≤ Scalar.epsilon * Scalar.epsilon then
    throw (.singularDenominator den)
  let dtau := (r.r3 + r.r5 / p.tau + Vec.dot W.c h1 - Vec.dot W.b h2) / den
  let dx := Vec.axpby dtau P.g1 1 h1
  let d : Direction α := {
    dx := dx
    dw := Vec.axpby dtau P.g2 1 h2
    ds := Vec.axpby (-1) (K.mulThetaInv (K.mulThetaInv dx)) 1 v
    dtau := dtau
    dkappa := (r.r5 - p.kappa * dtau) / p.tau }
  if d.isFinite then pure d else throw .nonFinite

/-- The direction of a pass and its centring `σ`.

The predictor-corrector rule solves for the affine direction first, which aims
at complementarity zero.  The step `a` that the affine direction allows gives
`σ = (1 - a)³`, and the affine direction gives the second-order terms.  The
other rule takes `σ` from the settings. -/
def Direction.ofPass (W : WorkingCopy α) (settings : Settings α) (r : Residuals α) (p : Point α)
    (P : ScaledPoint α) (mu : α) : Except (Breakdown α) (Direction α × α) := do
  if settings.predictorCorrector then
    let affine ← Direction.solve W settings p P (.centred r p P 0 mu)
    let sigma := Scalar.cube (1 - p.maxStep P.cones affine)
    let rhs := (NewtonRhs.centred r p P sigma mu).correct P affine
    pure (← Direction.solve W settings p P rhs, sigma)
  else
    let rhs := NewtonRhs.centred r p P settings.sigmaFixed mu
    pure (← Direction.solve W settings p P rhs, settings.sigmaFixed)

end

end Conic
