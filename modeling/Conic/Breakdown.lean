import Conic.Decimal.Written
import Conic.Ldl.Numeric

/-!
# Numerical breakdown

The steps of the method divide by pivots, by a denominator and by the bounds of
cones.  Far from the exact values any of them can fail.  A failure is a result
of the step and not a crash, and it says which part broke down.
-/

namespace Conic

/-- Why a step could not be computed. -/
inductive Breakdown (α : Type) where
  /-- The Schur complement could not be factored. -/
  | factorisation (e : LdlError)
  /-- The denominator of the direction vanished. -/
  | singularDenominator (value : α)
  /-- Something was infinite or undefined. -/
  | nonFinite
  /-- The point is not in the interior of the cone. -/
  | leftCone
  deriving Repr, DecidableEq

/-- The text of a breakdown. -/
def Breakdown.message {α : Type} [Written α] : Breakdown α → String
  | factorisation e => "Schur complement factorisation failed (" ++ e.message ++ ")"
  | singularDenominator v =>
    "homogeneous direction denominator is singular (" ++ Written.shortest v ++ ")"
  | nonFinite => "search direction is not finite"
  | leftCone => "iterate is no longer interior to the cone"

end Conic
