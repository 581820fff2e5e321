import Conic.Embedding.Residuals
import Conic.Settings

/-!
# Progress and termination

Every pass of the method measures its point and keeps the measures in a
`Record`.  Residuals are measured relative to their size at the starting point.
`Baseline` holds these sizes, which are never below one.

Three predicates end a solve, and they are tried in this order.

* The point is a solution: after division by `τ` both residuals are small, and
  so is the relative gap of the objectives.
* The program is infeasible: both residuals and the gap are small, `τ` has
  vanished and `κ` has not.
* The program is ill-posed: `μ` and `τ` have vanished.
-/

namespace Conic

/-- The measures of one pass. -/
structure Record (α : Type) where
  /-- The number of passes before this one. -/
  iteration : Nat
  /-- The complementarity per variable, `(xᵀs + τκ) / n`. -/
  mu : α
  /-- The size of `bτ - Ax`, relative to the start. -/
  primalInfeasibility : α
  /-- The size of `cτ - Aᵀw - s`, relative to the start. -/
  dualInfeasibility : α
  /-- The size of `κ + cᵀx - bᵀw`, relative to the start. -/
  gap : α
  /-- The relative gap of the objectives. -/
  significance : α
  /-- The objective `cᵀx / τ`. -/
  objective : α
  /-- `τ`. -/
  tau : α
  /-- `κ`. -/
  kappa : α
  /-- The step of the pass before. -/
  stepLength : α
  /-- The centring of the pass before. -/
  sigma : α

/-- The sizes at the starting point. -/
structure Baseline (α : Type) where
  /-- The size of the primal residual. -/
  primal : α
  /-- The size of the dual residual. -/
  dual : α
  /-- The size of the residual of the gap. -/
  gap : α
  /-- The first `μ`. -/
  mu : α

/-- What a solve has come to. -/
inductive Status where
  /-- No predicate holds. -/
  | unsolved
  /-- The point is a solution. -/
  | solved
  /-- The program is primal or dual infeasible. -/
  | infeasible
  /-- The program is ill-posed. -/
  | illPosed
  deriving Repr, DecidableEq

/-- The name of a status. -/
def Status.name : Status → String
  | unsolved => "Unsolved"
  | solved => "Solved"
  | infeasible => "Infeasible"
  | illPosed => "IllPosed"

/-- The measures of a point, and those of the solution that it stands for. -/
structure Measures (α : Type) where
  /-- The measures of the pass. -/
  record : Record α
  /-- The size of `b - Ax/τ`, relative to the start. -/
  candidatePrimal : α
  /-- The size of `c - (Aᵀw + s)/τ`, relative to the start. -/
  candidateDual : α

section

variable {α : Type} [Scalar α]

/-- The sizes of residuals, and `μ`. -/
def Baseline.of (r : Residuals α) (mu : α) : Baseline α where
  primal := Scalar.maxNum 1 (Vec.norm r.rp)
  dual := Scalar.maxNum 1 (Vec.norm r.rd)
  gap := Scalar.maxNum 1 (Scalar.abs r.rg)
  mu := mu

/-- The measures of a point. -/
def Measures.of (B : Baseline α) (r : Residuals α) (p : Point α) (mu : α) (iteration : Nat)
    (stepLength sigma : α) : Measures α :=
  let normP := Vec.norm r.rp
  let normD := Vec.norm r.rd
  { record := {
      iteration := iteration
      mu := mu
      primalInfeasibility := normP / B.primal
      dualInfeasibility := normD / B.dual
      gap := Scalar.abs r.rg / B.gap
      significance :=
        Scalar.abs (r.dotCx - r.dotBw) / p.tau / (1 + Scalar.abs r.dotBw / p.tau)
      objective := r.dotCx / p.tau
      tau := p.tau
      kappa := p.kappa
      stepLength := stepLength
      sigma := sigma }
    candidatePrimal := normP / p.tau / B.primal
    candidateDual := normD / p.tau / B.dual }

/-! ## Termination -/

/-- `τ` has vanished. -/
def Record.tauVanished (s : Settings α) (r : Record α) : Bool :=
  decide (r.tau ≤ s.tauThreshold * Scalar.maxNum 1 r.kappa)

/-- The point is a solution. -/
def Measures.isSolved (s : Settings α) (m : Measures α) : Bool :=
  decide (m.candidatePrimal ≤ s.infeasibilityThreshold) &&
    decide (m.candidateDual ≤ s.infeasibilityThreshold) &&
    decide (m.record.significance ≤ s.significanceThreshold)

/-- The program is primal or dual infeasible. -/
def Record.isInfeasible (s : Settings α) (r : Record α) : Bool :=
  decide (r.primalInfeasibility ≤ s.infeasibilityThreshold) &&
    decide (r.dualInfeasibility ≤ s.infeasibilityThreshold) &&
    decide (r.gap ≤ s.dualityGapThreshold) && r.tauVanished s &&
    decide (s.kappaThreshold ≤ r.kappa)

/-- The program is ill-posed. -/
def Record.isIllPosed (s : Settings α) (B : Baseline α) (r : Record α) : Bool :=
  decide (r.mu ≤ s.muThreshold * B.mu) && r.tauVanished s

/-- The first predicate that holds. -/
def Measures.status (s : Settings α) (B : Baseline α) (m : Measures α) : Status :=
  if m.isSolved s then .solved
  else if m.record.isInfeasible s then .infeasible
  else if m.record.isIllPosed s B then .illPosed
  else .unsolved

/-- A solution is a solution, whatever else holds. -/
theorem Measures.status_eq_solved_iff (s : Settings α) (B : Baseline α) (m : Measures α) :
    m.status s B = .solved ↔ m.isSolved s = true := by
  unfold Measures.status
  split
  · next h => simp [h]
  · next h =>
    constructor
    · intro h'
      split at h'
      · cases h'
      · split at h' <;> cases h'
    · intro h'
      exact absurd h' h

end

end Conic
