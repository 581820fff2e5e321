import Conic.Output.Sink
import Conic.Solver.Error
import Conic.Solver.Progress

/-!
# The report of a solve

With the verbose setting a solve prints a report.  It has four parts.

* The configuration: the size of the program, its cones and the settings.
* The head of the table.
* One row of the table for each pass.
* The footer: how the solve ended, and how long it took.

This module has the texts.  They are printed part by part, and a part ends at
the first byte that the sink does not take.  The next part is tried anyway, and
nothing of this has an effect on the solve.
-/

namespace Conic

namespace Report

/-! ## Pieces -/

/-- Lines, each with its end. -/
def lines (ls : List String) : String := String.join (ls.map (· ++ "\n"))

/-- A rule across the page. -/
def rule : String := String.ofList (List.replicate 98 '-')

/-- Whether something is in use. -/
def onOff (b : Bool) : String := if b then "on" else "off"

/-- A count that fills a width from the right. -/
def countRight (width n : Nat) : String := Decimal.padLeft width (toString n)

/-! ## The time -/

/-- A fraction of a unit that has `width` decimal digits, without trailing
zeros. -/
def fractionDigits (width n : Nat) : String :=
  let ds := Decimal.digitChars n
  let ds := Decimal.zeros (width - ds.length) ++ ds
  let ds := (ds.reverse.dropWhile (· == '0')).reverse
  if ds.isEmpty then "" else String.ofList ('.' :: ds)

/-- A time in nanoseconds, in the largest unit that it fills. -/
def duration (ns : Nat) : String :=
  let inUnit (width : Nat) (unit : String) : String :=
    let one := Nat.pow 10 width
    toString (ns / one) ++ fractionDigits width (ns % one) ++ unit
  if Nat.pow 10 9 ≤ ns then inUnit 9 "s"
  else if Nat.pow 10 6 ≤ ns then inUnit 6 "ms"
  else if Nat.pow 10 3 ≤ ns then inUnit 3 "µs"
  else inUnit 0 "ns"

/-- A time limit in seconds. -/
def timeLimit (t : Float) : String := if t.isInf then "Inf" else Decimal.Layout.plain.text t

/-! ## The configuration -/

/-- A list of dimensions.  Of a long list only the beginning and the end are
shown. -/
def dimensions : List Nat → String
  | [d] => toString d
  | ds =>
    let shown (xs : List Nat) : String := String.intercalate "," (xs.map toString)
    if ds.length ≤ 5 then "(" ++ shown ds ++ ")"
    else "(" ++ shown (ds.take 4) ++ ",...," ++ shown (ds.drop (ds.length - 1)) ++ ")"

section

variable {α : Type} [Scalar α]

/-- The number of coordinates in blocks of the orthant. -/
def orthantSize (K : Composite α) : Nat :=
  K.blocks.foldr (fun b n =>
    match b with
    | .orthant B => B.numel + n
    | .secondOrder _ => n) 0

/-- The dimensions of the second-order cones. -/
def secondOrderSizes (K : Composite α) : List Nat :=
  K.blocks.filterMap fun b =>
    match b with
    | .orthant _ => none
    | .secondOrder B => some B.numel

/-- The lines about the cones. -/
def coneLines (K : Composite α) : List String :=
  let n := orthantSize K
  let ds := secondOrderSizes K
  (if 0 < n then [s!"    : Nonnegative = 1,  numel = {n}"] else []) ++
    (if ds.isEmpty then [] else [s!"    : SecondOrder = {ds.length},  numel = {dimensions ds}"])

/-- The lines about the program. -/
def programLines (W : WorkingCopy α) : List String := [
  "hipm v0.3.0  -  homogeneous interior point solver",
  "",
  "problem:",
  s!"  variables     = {W.A.ncols}",
  s!"  constraints   = {W.A.nrows}",
  s!"  nnz(A)        = {W.A.nnz}",
  s!"  cones (total) = {W.cones.blocks.length}"] ++ coneLines W.cones ++ [""]

variable [Written α]

/-- A scalar with one digit after the point, and an exponent. -/
def scalar (x : α) : String := Written.exponential 1 x

/-- The lines about the settings. -/
def settingsLines (s : Settings α) : List String := [
  "settings:",
  s!"  linear algebra: Schur complement / sparse LDLᵀ, precision: {Written.bits α} bit",
  s!"  max iter = {s.maxIter}, time limit = {timeLimit s.timeLimit},  max step = " ++
    Written.positional 3 s.maxStepFraction,
  s!"  infeas = {scalar s.infeasibilityThreshold}, sig = {scalar s.significanceThreshold}, " ++
    s!"gap = {scalar s.dualityGapThreshold},",
  s!"  τ = {scalar s.tauThreshold}, κ = {scalar s.kappaThreshold}, μ = {scalar s.muThreshold}",
  s!"  static reg : ϵ1 = {scalar s.staticConstant}, ϵ2 = {scalar s.staticProportional}",
  s!"  dynamic reg: {onOff s.dynamicEnable}, ϵ = {scalar s.dynamicEps}, " ++
    s!"δ = {scalar s.dynamicDelta}",
  s!"  iter refine: {onOff s.refineEnable}, reltol = {scalar s.refineReltol}, " ++
    s!"abstol = {scalar s.refineAbstol},",
  s!"               max iter = {s.refineMaxIter}, stop ratio = " ++
    Written.positional 1 s.refineStopRatio,
  if s.predictorCorrector then "  step rule  : predictor-corrector"
  else "  step rule  : fixed σ = " ++ Written.positional 2 s.sigmaFixed,
  ""]

/-- The text of the configuration. -/
def configuration (s : Settings α) (W : WorkingCopy α) : String :=
  lines (programLines W ++ settingsLines s)

/-! ## The table -/

/-- The text of the head of the table. -/
def tableHead : String :=
  lines ["iter    pcost        sig       pres      dres      gap        τ         κ         μ" ++
    "        step      ", rule]

/-- A measure in a row of the table. -/
def measure (x : α) : String := Written.tabular false 6 2 x

/-- The step in a row of the table.  The first pass has none. -/
def stepCell (r : Record α) : String :=
  if 0 < r.iteration then Written.tabular false 0 2 r.stepLength ++ "  " else " ------   "

/-- The text of a row of the table. -/
def row (r : Record α) : String :=
  let cells := [countRight 3 r.iteration, Written.tabular true 8 4 r.objective,
    measure r.significance, measure r.primalInfeasibility, measure r.dualInfeasibility,
    measure r.gap, measure r.tau, measure r.kappa, measure r.mu]
  String.join (cells.map (· ++ "  ")) ++ stepCell r ++ "\n"

/-! ## The footer -/

/-- The text of the footer.  A solve without an error has found a solution. -/
def footer (e : Option (SolverError α)) (ns : Nat) : String :=
  let ending :=
    match e with
    | some e => "Terminated with error: " ++ e.message
    | none => "Terminated with status = " ++ Status.solved.name
  lines [rule, ending, "solve time = " ++ duration ns]

/-! ## Printing -/

variable {σ : Type} [Sink σ]

/-- Prints the configuration and the head of the table. -/
def printOpening (s : Settings α) (W : WorkingCopy α) (out : σ) : σ :=
  if s.verbose then
    (Sink.printFlush tableHead (Sink.print (configuration s W) out).2).2
  else out

/-- Prints a row of the table. -/
def printRow (s : Settings α) (r : Record α) (out : σ) : σ :=
  if s.verbose then (Sink.print (row r) out).2 else out

/-- Prints the footer. -/
def printFooter (s : Settings α) (e : Option (SolverError α)) (ns : Nat) (out : σ) : σ :=
  if s.verbose then (Sink.printFlush (footer e ns) out).2 else out

end

end Report

end Conic
