import Conic.Scalar

/-!
# Settings of a solve

A solve is governed by 23 settings.  `Fields f α` is a record with one entry of
type `f β` for each setting of type `β`.  Two choices of `f` are used.

* `Settings α` holds a value for each setting.
* `Settings.Draft α` holds a value for some of them.  The others take their
  default when the draft is built.

Most settings have an admissible range.  `ranges` and `Draft.ranges` list them
with their names in the order in which they are checked.  A setting of a draft
that has no value is not checked, since the defaults lie in their ranges.
-/

namespace Conic

namespace Settings

/-- One entry for each setting. -/
structure Fields (f : Type → Type) (α : Type) where
  /-- The largest number of iterations. -/
  maxIter : f Nat
  /-- The longest run time in seconds. -/
  timeLimit : f Float
  /-- Print the progress. -/
  verbose : f Bool
  /-- The part of the largest possible step that is taken. -/
  maxStepFraction : f α
  /-- A shorter step ends the solve. -/
  minStepLength : f α
  /-- The gap that an infeasible program may have. -/
  dualityGapThreshold : f α
  /-- The tolerance for both residuals. -/
  infeasibilityThreshold : f α
  /-- The tolerance for the relative gap of the objectives. -/
  significanceThreshold : f α
  /-- `τ` has vanished at this multiple of `max 1 κ`. -/
  tauThreshold : f α
  /-- The least `κ` of an infeasible program. -/
  kappaThreshold : f α
  /-- `μ` has vanished at this multiple of its first value. -/
  muThreshold : f α
  /-- What is added to the diagonal of the Schur complement. -/
  staticConstant : f α
  /-- The multiple of the largest diagonal entry that is added too. -/
  staticProportional : f α
  /-- Small pivots are replaced. -/
  dynamicEnable : f Bool
  /-- A pivot below this is small. -/
  dynamicEps : f α
  /-- What replaces a small pivot. -/
  dynamicDelta : f α
  /-- Solutions are refined. -/
  refineEnable : f Bool
  /-- The relative tolerance of the refinement. -/
  refineReltol : f α
  /-- The absolute tolerance of the refinement. -/
  refineAbstol : f α
  /-- The largest number of refinements. -/
  refineMaxIter : f Nat
  /-- The factor by which a refinement has to reduce the residual. -/
  refineStopRatio : f α
  /-- Take predictor-corrector steps. -/
  predictorCorrector : f Bool
  /-- The centring of the steps otherwise. -/
  sigmaFixed : f α

/-! ## Settings by name -/

/-- How a setting is read and stored, by the type of its value. -/
inductive Slot (f : Type → Type) (α : Type) where
  /-- A count. -/
  | count (get : Fields f α → f Nat) (set : f Nat → Fields f α → Fields f α)
  /-- A time in seconds. -/
  | seconds (get : Fields f α → f Float) (set : f Float → Fields f α → Fields f α)
  /-- A switch. -/
  | flag (get : Fields f α → f Bool) (set : f Bool → Fields f α → Fields f α)
  /-- A scalar. -/
  | scalar (get : Fields f α → f α) (set : f α → Fields f α → Fields f α)

/-- The settings with their names, in the order of the record. -/
def slots (f : Type → Type) (α : Type) : List (String × Slot f α) := [
  ("max_iter", .count (·.maxIter) fun v s => { s with maxIter := v }),
  ("time_limit", .seconds (·.timeLimit) fun v s => { s with timeLimit := v }),
  ("verbose", .flag (·.verbose) fun v s => { s with verbose := v }),
  ("max_step_fraction", .scalar (·.maxStepFraction) fun v s => { s with maxStepFraction := v }),
  ("min_step_length", .scalar (·.minStepLength) fun v s => { s with minStepLength := v }),
  ("duality_gap_threshold",
    .scalar (·.dualityGapThreshold) fun v s => { s with dualityGapThreshold := v }),
  ("infeasibility_threshold",
    .scalar (·.infeasibilityThreshold) fun v s => { s with infeasibilityThreshold := v }),
  ("significance_threshold",
    .scalar (·.significanceThreshold) fun v s => { s with significanceThreshold := v }),
  ("tau_threshold", .scalar (·.tauThreshold) fun v s => { s with tauThreshold := v }),
  ("kappa_threshold", .scalar (·.kappaThreshold) fun v s => { s with kappaThreshold := v }),
  ("mu_threshold", .scalar (·.muThreshold) fun v s => { s with muThreshold := v }),
  ("static_regularization_constant",
    .scalar (·.staticConstant) fun v s => { s with staticConstant := v }),
  ("static_regularization_proportional",
    .scalar (·.staticProportional) fun v s => { s with staticProportional := v }),
  ("dynamic_regularization_enable",
    .flag (·.dynamicEnable) fun v s => { s with dynamicEnable := v }),
  ("dynamic_regularization_eps", .scalar (·.dynamicEps) fun v s => { s with dynamicEps := v }),
  ("dynamic_regularization_delta",
    .scalar (·.dynamicDelta) fun v s => { s with dynamicDelta := v }),
  ("iterative_refinement_enable", .flag (·.refineEnable) fun v s => { s with refineEnable := v }),
  ("iterative_refinement_reltol", .scalar (·.refineReltol) fun v s => { s with refineReltol := v }),
  ("iterative_refinement_abstol", .scalar (·.refineAbstol) fun v s => { s with refineAbstol := v }),
  ("iterative_refinement_max_iter",
    .count (·.refineMaxIter) fun v s => { s with refineMaxIter := v }),
  ("iterative_refinement_stop_ratio",
    .scalar (·.refineStopRatio) fun v s => { s with refineStopRatio := v }),
  ("predictor_corrector",
    .flag (·.predictorCorrector) fun v s => { s with predictorCorrector := v }),
  ("sigma_fixed", .scalar (·.sigmaFixed) fun v s => { s with sigmaFixed := v })]

/-- Settings of which some have a value. -/
abbrev Draft (α : Type) := Fields Option α

end Settings

/-- A value for each setting. -/
abbrev Settings (α : Type) := Settings.Fields (fun β => β) α

/-- A setting has a value that it must not have. -/
inductive SettingsError where
  /-- The value of the named setting lies outside its range. -/
  | badFieldValue (name : String)
  deriving Repr, DecidableEq

/-- The text of an error. -/
def SettingsError.message : SettingsError → String
  | badFieldValue name => s!"Bad value for field {name}"

namespace Settings

/-- Why settings cannot be built. -/
inductive BuildError where
  /-- A setting has a value that it must not have.  The text is that of the
  error. -/
  | validation (text : String)
  deriving Repr, DecidableEq

/-- The text of a failure. -/
def BuildError.message : BuildError → String
  | validation text => text

variable {α : Type} [Scalar α]

/-- The default settings. -/
def default : Settings α where
  maxIter := 200
  timeLimit := 1.0 / 0.0
  verbose := false
  maxStepFraction := 0.99
  minStepLength := 1e-8
  dualityGapThreshold := 0.01
  infeasibilityThreshold := 1e-7
  significanceThreshold := 1e-7
  tauThreshold := 1e-7
  kappaThreshold := 1e-4
  muThreshold := 1e-7
  staticConstant := 1e-12
  staticProportional := Scalar.epsilon * Scalar.epsilon
  dynamicEnable := true
  dynamicEps := 1e-13
  dynamicDelta := 2e-7
  refineEnable := true
  refineReltol := 1e-13
  refineAbstol := 1e-12
  refineMaxIter := 10
  refineStopRatio := 5.0
  predictorCorrector := true
  sigmaFixed := 0.1

/-! ## Admissible values -/

/-- The range of a setting. -/
inductive Range where
  /-- Above zero and at most one. -/
  | fraction
  /-- Strictly between zero and one. -/
  | openFraction
  /-- Finite and above zero. -/
  | positive
  /-- Finite and not below zero. -/
  | nonnegative
  deriving Repr, DecidableEq

/-- The value lies in the range. -/
def Range.admits : Range → α → Bool
  | fraction, v => decide (0 < v) && (decide (v < 1) || v == 1)
  | openFraction, v => decide (0 < v) && decide (v < 1)
  | positive, v => Scalar.isFinite v && decide (0 < v)
  | nonnegative, v => Scalar.isFinite v && decide (0 ≤ v)

/-- The settings with a range, in the order in which they are checked. -/
def ranges {α : Type} (s : Settings α) : List (String × Range × α) := [
  ("max_step_fraction", .fraction, s.maxStepFraction),
  ("sigma_fixed", .openFraction, s.sigmaFixed),
  ("min_step_length", .positive, s.minStepLength),
  ("duality_gap_threshold", .positive, s.dualityGapThreshold),
  ("infeasibility_threshold", .positive, s.infeasibilityThreshold),
  ("significance_threshold", .positive, s.significanceThreshold),
  ("tau_threshold", .positive, s.tauThreshold),
  ("kappa_threshold", .positive, s.kappaThreshold),
  ("mu_threshold", .positive, s.muThreshold),
  ("dynamic_regularization_eps", .positive, s.dynamicEps),
  ("dynamic_regularization_delta", .positive, s.dynamicDelta),
  ("iterative_refinement_stop_ratio", .positive, s.refineStopRatio),
  ("static_regularization_constant", .nonnegative, s.staticConstant),
  ("static_regularization_proportional", .nonnegative, s.staticProportional),
  ("iterative_refinement_reltol", .nonnegative, s.refineReltol),
  ("iterative_refinement_abstol", .nonnegative, s.refineAbstol)]

/-- A time limit is not negative, and may be infinite. -/
def admitsTimeLimit (t : Float) : Bool := decide (0 ≤ t)

/-- Refuses the first setting whose value lies outside its range. -/
def validate (s : Settings α) : Except SettingsError Unit :=
  if !admitsTimeLimit s.timeLimit then .error (.badFieldValue "time_limit")
  else
    match (ranges s).find? fun r => !r.2.1.admits r.2.2 with
    | some r => .error (.badFieldValue r.1)
    | none => .ok ()

namespace Draft

/-- The draft without values. -/
def empty {α : Type} : Draft α :=
  ⟨none, none, none, none, none, none, none, none, none, none, none, none, none, none, none, none,
    none, none, none, none, none, none, none⟩

/-- The settings of a draft with a range, in the order in which they are checked. -/
def ranges {α : Type} (d : Draft α) : List (String × Range × Option α) := [
  ("max_step_fraction", .fraction, d.maxStepFraction),
  ("sigma_fixed", .openFraction, d.sigmaFixed),
  ("min_step_length", .positive, d.minStepLength),
  ("duality_gap_threshold", .positive, d.dualityGapThreshold),
  ("infeasibility_threshold", .positive, d.infeasibilityThreshold),
  ("significance_threshold", .positive, d.significanceThreshold),
  ("tau_threshold", .positive, d.tauThreshold),
  ("kappa_threshold", .positive, d.kappaThreshold),
  ("mu_threshold", .positive, d.muThreshold),
  ("dynamic_regularization_eps", .positive, d.dynamicEps),
  ("dynamic_regularization_delta", .positive, d.dynamicDelta),
  ("iterative_refinement_stop_ratio", .positive, d.refineStopRatio),
  ("static_regularization_constant", .nonnegative, d.staticConstant),
  ("static_regularization_proportional", .nonnegative, d.staticProportional),
  ("iterative_refinement_reltol", .nonnegative, d.refineReltol),
  ("iterative_refinement_abstol", .nonnegative, d.refineAbstol)]

/-- Refuses the first setting that has a value outside its range. -/
def validate (d : Draft α) : Except SettingsError Unit :=
  if !d.timeLimit.all admitsTimeLimit then .error (.badFieldValue "time_limit")
  else
    match (ranges d).find? fun r => !r.2.2.all r.2.1.admits with
    | some r => .error (.badFieldValue r.1)
    | none => .ok ()

/-- The values of the draft, and the defaults elsewhere. -/
def complete (d : Draft α) : Settings α :=
  let standard : Settings α := default
  {
    maxIter := d.maxIter.getD standard.maxIter
    timeLimit := d.timeLimit.getD standard.timeLimit
    verbose := d.verbose.getD standard.verbose
    maxStepFraction := d.maxStepFraction.getD standard.maxStepFraction
    minStepLength := d.minStepLength.getD standard.minStepLength
    dualityGapThreshold := d.dualityGapThreshold.getD standard.dualityGapThreshold
    infeasibilityThreshold := d.infeasibilityThreshold.getD standard.infeasibilityThreshold
    significanceThreshold := d.significanceThreshold.getD standard.significanceThreshold
    tauThreshold := d.tauThreshold.getD standard.tauThreshold
    kappaThreshold := d.kappaThreshold.getD standard.kappaThreshold
    muThreshold := d.muThreshold.getD standard.muThreshold
    staticConstant := d.staticConstant.getD standard.staticConstant
    staticProportional := d.staticProportional.getD standard.staticProportional
    dynamicEnable := d.dynamicEnable.getD standard.dynamicEnable
    dynamicEps := d.dynamicEps.getD standard.dynamicEps
    dynamicDelta := d.dynamicDelta.getD standard.dynamicDelta
    refineEnable := d.refineEnable.getD standard.refineEnable
    refineReltol := d.refineReltol.getD standard.refineReltol
    refineAbstol := d.refineAbstol.getD standard.refineAbstol
    refineMaxIter := d.refineMaxIter.getD standard.refineMaxIter
    refineStopRatio := d.refineStopRatio.getD standard.refineStopRatio
    predictorCorrector := d.predictorCorrector.getD standard.predictorCorrector
    sigmaFixed := d.sigmaFixed.getD standard.sigmaFixed }

/-- The settings of a draft, if they are admissible. -/
def build (d : Draft α) : Except BuildError (Settings α) :=
  match d.validate with
  | .ok _ => .ok d.complete
  | .error e => .error (.validation e.message)

end Draft

end Settings

end Conic
