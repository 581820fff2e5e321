import Conic.Embedding.Newton
import Conic.Solver.Report
import Conic.Timers

/-!
# The solver

A solve starts from the unit point of the embedding and moves it pass by pass.
Each pass measures the point and shows the measures to the table and to the
observer.  Then it decides, in this order.

* One of the predicates on the measures ends the solve.
* The stop test of the caller ends the solve.
* The largest number of iterations has been reached.
* The time is over.
* Otherwise the point moves along a Newton direction.  The solve ends if the
  direction cannot be computed, or if the step along it is too short.

A pass takes the number of passes that may still follow, so the loop ends.

`Solver.solve` runs the passes on a working copy.  A solution is brought back
into the program.  Without a solution the program stays what it was.
-/

namespace Conic

/-! ## What surrounds a solve -/

/-- What a solve has effects on: the clock and the timers, the sink of the
report and what the observer has seen. -/
structure Surroundings (σ ω : Type) where
  /-- The clock and the timers. -/
  timing : Clock × Timers
  /-- The sink of the report. -/
  output : σ
  /-- What the observer has seen. -/
  seen : ω

namespace Surroundings

variable {σ ω : Type}

/-- Starts a timer. -/
def start (key : String) (h : Surroundings σ ω) : Surroundings σ ω :=
  { h with timing := Timers.start key h.timing }

/-- Stops the innermost timer. -/
def stop (h : Surroundings σ ω) : Surroundings σ ω := { h with timing := Timers.stop h.timing }

/-- Does something that the timers do not count. -/
def untimed (f : Surroundings σ ω → Surroundings σ ω) (h : Surroundings σ ω) :
    Surroundings σ ω :=
  let h := f { h with timing := Timers.suspend h.timing }
  { h with timing := Timers.resume h.timing }

/-- Asks the clock. -/
def now (h : Surroundings σ ω) : Nat × Surroundings σ ω :=
  let (t, clock) := h.timing.1.now
  (t, { h with timing := (clock, h.timing.2) })

end Surroundings

/-- A time in seconds. -/
def seconds (ns : Nat) : Float :=
  Float.ofNat (ns / 1000000000) + Float.ofNat (ns % 1000000000) / 1e9

/-- A time is beyond a limit in seconds.  No time is beyond a limit that is not
finite. -/
def exceeds (limit : Float) (ns : Nat) : Bool := limit.isFinite && decide (limit < seconds ns)

/-- What a caller may ask of a solve besides its settings. -/
structure Callbacks (α ω : Type) where
  /-- Sees the measures of every pass. -/
  observer : Option (Record α → ω → ω)
  /-- The solve stops at measures that pass this test. -/
  stop : Option (Record α → Bool)

namespace Callbacks

variable {α ω : Type}

/-- Nobody observes, and nothing stops. -/
def none : Callbacks α ω := ⟨.none, .none⟩

/-- Shows measures to the observer. -/
def observe (c : Callbacks α ω) (r : Record α) (seen : ω) : ω :=
  match c.observer with
  | some f => f r seen
  | .none => seen

/-- The measures pass the stop test. -/
def stops (c : Callbacks α ω) (r : Record α) : Bool :=
  match c.stop with
  | some f => f r
  | .none => false

end Callbacks

/-! ## Passes -/

/-- What a pass starts from. -/
structure Iterate (α : Type) where
  /-- The point. -/
  point : Point α
  /-- The cone, scaled at the point before. -/
  cones : Composite α
  /-- The Schur complement, factored at the point before. -/
  schur : FactoredSchur α
  /-- The number of passes before this one. -/
  iteration : Nat
  /-- The step of the pass before. -/
  stepLength : α
  /-- The centring of the pass before. -/
  sigma : α

/-- What a solve does not change. -/
structure Task (α ω : Type) where
  /-- The program in working order. -/
  program : WorkingCopy α
  /-- The settings. -/
  settings : Settings α
  /-- The callbacks. -/
  callbacks : Callbacks α ω
  /-- When the solve started. -/
  started : Nat

section

variable {α σ ω : Type} [Scalar α]

namespace Iterate

/-- What the first pass starts from. -/
def first (W : WorkingCopy α) : Iterate α where
  point := .unit W.cones W.A.nrows
  cones := W.cones
  schur := .new W.A W.cones
  iteration := 0
  stepLength := 0
  sigma := 0

/-- The complementarity per variable. -/
def mu (W : WorkingCopy α) (p : Point α) : α :=
  p.complementarity / Scalar.ofCount (max W.A.ncols 1)

/-- The complementarity per degree of the barrier, `τ` and `κ` counting as one
more. -/
def centre (W : WorkingCopy α) (p : Point α) : α :=
  p.complementarity / Scalar.ofCount (W.cones.degree + 1)

/-- The sizes at the starting point. -/
def baseline (W : WorkingCopy α) : Baseline α :=
  let p := Point.unit W.cones W.A.nrows
  .of (.of W p) (mu W p)

/-- The measures of a point. -/
def measures (W : WorkingCopy α) (it : Iterate α) : Measures α :=
  .of (baseline W) (.of W it.point) it.point (mu W it.point) it.iteration it.stepLength it.sigma

/-- Moves along a direction, unless the step is too short. -/
def move (settings : Settings α) (it : Iterate α) (P : ScaledPoint α) (d : Direction α)
    (sigma : α) : Except (SolverError α) (Iterate α) :=
  let step := it.point.maxStep P.cones d * settings.maxStepFraction
  if step < settings.minStepLength then .error (.insufficientProgress step)
  else
    .ok {
      point := it.point.move d step
      cones := P.cones
      schur := P.schur
      iteration := it.iteration + 1
      stepLength := step
      sigma := sigma }

end Iterate

/-- Computes a direction and moves along it.  A part that fails leaves its timer
running. -/
def Task.advance (t : Task α ω) (it : Iterate α) (h : Surroundings σ ω) :
    Except (SolverError α) (Iterate α) × Surroundings σ ω :=
  let h := (h.start "scaling").stop.start "factorisation"
  match ScaledPoint.compute t.program t.settings it.cones it.schur it.point with
  | .error e => (.error (.numericalBreakdown e), h)
  | .ok P =>
    let h := h.stop.start "direction"
    let r := Residuals.of t.program it.point
    let centre := Iterate.centre t.program it.point
    match Direction.ofPass t.program t.settings r it.point P centre with
    | .error e => (.error (.numericalBreakdown e), h)
    | .ok (d, sigma) => (it.move t.settings P d sigma, h.stop)

variable [Written α] [Sink σ]

/-- Shows the measures of a pass. -/
def Task.show (t : Task α ω) (r : Record α) (h : Surroundings σ ω) : Surroundings σ ω :=
  h.untimed fun h => { h with
    output := Report.printRow t.settings r h.output
    seen := t.callbacks.observe r h.seen }

/-- Makes a pass, and at most `remaining` passes after it.  The result is the
solution and its measures. -/
def Task.run (t : Task α ω) : Nat → Iterate α → Surroundings σ ω →
    Except (SolverError α) (Point α × Record α) × Surroundings σ ω
  | remaining, it, h =>
    let m := it.measures t.program
    let h := t.show m.record h
    match m.status t.settings (Iterate.baseline t.program) with
    | .solved => (.ok (it.point, m.record), h)
    | .infeasible => (.error .programInfeasible, h)
    | .illPosed => (.error .illPosed, h)
    | .unsolved =>
      if t.callbacks.stops m.record then (.error .callback, h)
      else
        match remaining with
        | 0 => (.error (.maxIterations it.iteration), h)
        | remaining + 1 =>
          let (time, h) := h.now
          if exceeds t.settings.timeLimit (time - t.started) then (.error .maxTime, h)
          else
            match t.advance it h with
            | (.error e, h) => (.error e, h)
            | (.ok it, h) => t.run remaining it h

end

/-! ## Solving -/

/-- What is known about a solution beside the point. -/
structure Solution (α : Type) where
  /-- The last complementarity per variable. -/
  mu : α
  /-- The objective. -/
  objective : α
  /-- The number of passes before the last one. -/
  iterations : Nat
  /-- The time of the solve in seconds. -/
  solveTime : Float
  /-- `τ` before the point was divided by it. -/
  tau : α
  /-- `κ` at that time. -/
  kappa : α

/-- A solver: its settings, its callbacks, the sink of its reports, what its
observer has seen, and the timers of the last solve. -/
structure Solver (α σ ω : Type) where
  /-- The settings. -/
  settings : Settings α
  /-- The callbacks. -/
  callbacks : Callbacks α ω
  /-- The sink of the reports. -/
  output : σ
  /-- What the observer has seen. -/
  seen : ω
  /-- The timers of the last solve. -/
  timers : Option Timers

/-- The outcome of a solve. -/
structure Outcome (α σ ω : Type) where
  /-- The solution or the error. -/
  result : Except (SolverError α) (Solution α)
  /-- The program, with the solution as its point if there is one. -/
  program : Program α
  /-- The solver for the next solve. -/
  solver : Solver α σ ω
  /-- The clock. -/
  clock : Clock

namespace Solver

variable {α σ ω : Type} [Scalar α]

/-- The working copy of a program.  An index out of bounds cannot occur, since
the program is validated first.  It would count as a bad matrix. -/
def workingCopy (p : Program α) : Except ProgramError (WorkingCopy α) :=
  match WorkingCopy.checkOut p with
  | .ok W => .ok W
  | .error (.cause e) => .error e
  | .error .outOfBounds => .error (.badMatrix .incompatibleDimension)

/-- Brings a point of a working copy into the program.  An index out of bounds
cannot occur here either.  What has been changed before a failure stays
changed. -/
def writeBack (W : WorkingCopy α) (p : Program α) (q : Point α) :
    Except ProgramError Unit × Program α :=
  match (W.checkIn q.x q.w q.s).run p with
  | (.ok u, p) => (.ok u, p)
  | (.error (.cause e), p) => (.error e, p)
  | (.error .outOfBounds, p) => (.error .inconsistentVariableMap, p)

/-- The solution of measures. -/
def solution (r : Record α) (ns : Nat) : Solution α where
  mu := r.mu
  objective := r.objective
  iterations := r.iteration
  solveTime := seconds ns
  tau := r.tau
  kappa := r.kappa

/-- The result of the passes, brought back into the program. -/
def conclude (W : WorkingCopy α) (p : Program α) (ns : Nat) :
    Except (SolverError α) (Point α × Record α) →
      Except (SolverError α) (Solution α) × Program α
  | .error e => (.error e, p)
  | .ok (q, r) =>
    match writeBack W p q.normalized with
    | (.ok _, p) => (.ok (solution r ns), p)
    | (.error e, p) => (.error (.program e), p)

/-- The error of a result. -/
def error? {β : Type} : Except (SolverError α) β → Option (SolverError α)
  | .ok _ => none
  | .error e => some e

variable [Written α] [Sink σ]

/-- Solves a program. -/
def solve (S : Solver α σ ω) (clock : Clock) (p : Program α) : Outcome α σ ω :=
  match S.settings.validate with
  | .error e => ⟨.error (.settings e), p, S, clock⟩
  | .ok _ =>
    let (started, clock) := clock.now
    let h : Surroundings σ ω := ⟨(clock, .initial), S.output, S.seen⟩
    let h := h.start "setup"
    match workingCopy p with
    | .error e => ⟨.error (.program e), p, S, h.timing.1⟩
    | .ok W =>
      let h := h.stop.untimed fun h =>
        { h with output := Report.printOpening S.settings W h.output }
      let t : Task α ω := ⟨W, S.settings, S.callbacks, started⟩
      let (result, h) := t.run S.settings.maxIter (.first W) (h.start "solve")
      let (ended, h) := h.stop.now
      let ns := ended - started
      let output := Report.printFooter S.settings (error? result) ns h.output
      let (result, p) := conclude W p ns result
      ⟨result, p, { S with output := output, seen := h.seen, timers := some h.timing.2 },
        h.timing.1⟩

end Solver

end Conic
