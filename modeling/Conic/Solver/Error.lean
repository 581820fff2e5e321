import Conic.Breakdown
import Conic.Program.VariableMap
import Conic.Settings

/-!
# How a solve fails

A solve ends with a solution or with one of these errors.  Some of them are
statements about the program, some are limits that the caller has set, and some
say that the method could not go on.
-/

namespace Conic

/-- Why a solve ends without a solution. -/
inductive SolverError (α : Type) where
  /-- The program is primal or dual infeasible. -/
  | programInfeasible
  /-- The program is ill-posed. -/
  | illPosed
  /-- A pass could not be computed. -/
  | numericalBreakdown (cause : Breakdown α)
  /-- The largest number of iterations has been reached. -/
  | maxIterations (iterations : Nat)
  /-- The time is over. -/
  | maxTime
  /-- The step has become too short. -/
  | insufficientProgress (stepLength : α)
  /-- The caller has asked to stop. -/
  | callback
  /-- The program is not valid. -/
  | program (e : ProgramError)
  /-- The settings are not admissible. -/
  | settings (e : SettingsError)
  deriving Repr, DecidableEq

/-- The text of an error. -/
def SolverError.message {α : Type} [Written α] : SolverError α → String
  | programInfeasible => "Program is primal or dual infeasible"
  | illPosed => "Program is ill-posed"
  | numericalBreakdown cause => "Numerical breakdown: " ++ cause.message
  | maxIterations n => s!"Iteration limit ({n}) reached"
  | maxTime => "Time limit reached"
  | insufficientProgress a => "Insufficient progress: step length " ++ Written.shortest a
  | callback => "Solve cancelled by termination callback"
  | program e => e.message
  | settings e => e.message

end Conic
