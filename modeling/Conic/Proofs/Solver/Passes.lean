import Conic.Proofs.Embedding.Descent
import Conic.Proofs.Settings
import Conic.Proofs.Solver.Trace

/-!
# The passes of a run

`Task.Reaches` says which iterates a run can reach: the first one, and whatever
a pass that takes a step makes of an iterate that is not decided yet.  What
holds of the first iterate and is kept by every such pass therefore holds of
all iterates of all runs, whatever the clock, the observer and the limits are.
In particular it holds of the iterate that a run returns
(`Task.exists_reaches_of_run`).

Without regularization a pass multiplies all residuals and the complementarity
by one factor, so along a run they all stay the same multiple of what they were
at the start (`Task.shrinks_of_advance`).
-/

namespace Conic

open Vec

variable [Machine]

/-! ## Admissible settings -/

namespace Settings

variable {settings : Settings ℝ}

theorem admits_of_validate (h : settings.validate = .ok ()) :
    ∀ r ∈ ranges settings, r.2.1.admits r.2.2 = true :=
  (validate_eq_ok_iff.mp h).2

theorem admits_fraction_iff {v : ℝ} : Range.fraction.admits v = true ↔ 0 < v ∧ v ≤ 1 := by
  simp [Range.admits, le_iff_lt_or_eq]

theorem admits_positive_iff {v : ℝ} : Range.positive.admits v = true ↔ 0 < v := by
  simp [Range.admits]

theorem admits_nonnegative_iff {v : ℝ} : Range.nonnegative.admits v = true ↔ 0 ≤ v := by
  simp [Range.admits]

/-- The bounds on settings that the passes rely on. -/
structure Admissible (settings : Settings ℝ) : Prop where
  /-- Part of the largest step is taken. -/
  maxStepFraction : 0 < settings.maxStepFraction ∧ settings.maxStepFraction ≤ 1
  /-- Steps are not arbitrarily short. -/
  minStepLength : 0 < settings.minStepLength
  /-- The tolerance for the residuals is positive. -/
  infeasibilityThreshold : 0 < settings.infeasibilityThreshold
  /-- The tolerance for the relative gap is positive. -/
  significanceThreshold : 0 < settings.significanceThreshold

theorem admissible_of_validate (h : settings.validate = .ok ()) : settings.Admissible where
  maxStepFraction := admits_fraction_iff.mp
    (admits_of_validate h ("max_step_fraction", .fraction, _) (by simp [ranges]))
  minStepLength := admits_positive_iff.mp
    (admits_of_validate h ("min_step_length", .positive, _) (by simp [ranges]))
  infeasibilityThreshold := admits_positive_iff.mp
    (admits_of_validate h ("infeasibility_threshold", .positive, _) (by simp [ranges]))
  significanceThreshold := admits_positive_iff.mp
    (admits_of_validate h ("significance_threshold", .positive, _) (by simp [ranges]))

end Settings

/-! ## One pass -/

section

variable {σ ω : Type} {t : Task ℝ ω} {it it' : Iterate ℝ} {h : Surroundings σ ω}

/-- What an iterate has come to. -/
noncomputable def Task.statusAt (t : Task ℝ ω) (it : Iterate ℝ) : Status :=
  (it.measures t.program).status t.settings (Iterate.baseline t.program)

/-- A pass takes a step if the point can be scaled, a direction can be computed
and the step along it is long enough. -/
theorem Task.advance_eq_ok_iff : (t.advance it h).1 = .ok it' ↔ ∃ P d sigma,
    ScaledPoint.compute t.program t.settings it.cones it.schur it.point = .ok P ∧
    Direction.ofPass t.program t.settings (.of t.program it.point) it.point P
      (Iterate.centre t.program it.point) = .ok (d, sigma) ∧
    it.move t.settings P d sigma = .ok it' := by
  obtain ⟨_, hadvance⟩ := t.advance_eq it h
  rw [hadvance]
  exact next_eq_ok_iff

theorem Iterate.move_eq_ok_iff {settings : Settings ℝ} {P : ScaledPoint ℝ} {d : Direction ℝ}
    {sigma : ℝ} : it.move settings P d sigma = .ok it' ↔
      settings.minStepLength ≤ it.point.maxStep P.cones d * settings.maxStepFraction ∧
      it' = {
        point := it.point.move d (it.point.maxStep P.cones d * settings.maxStepFraction)
        cones := P.cones
        schur := P.schur
        iteration := it.iteration + 1
        stepLength := it.point.maxStep P.cones d * settings.maxStepFraction
        sigma := sigma } := by
  rw [move]
  split
  next hlt => simpa using fun hle => absurd hlt (not_lt.mpr hle)
  next hlt => simp [not_lt.mp hlt, eq_comm]

/-- An iterate is undecided if it is unsolved and the caller does not ask to stop. -/
theorem Task.undecided_iff_statusAt : t.Undecided it ↔
    t.statusAt it = .unsolved ∧ t.callbacks.stops (t.record it) = false := by
  rw [undecided_iff, statusAt, Measures.status, record]
  cases (it.measures t.program).isSolved t.settings <;>
    cases (it.measures t.program).record.isInfeasible t.settings <;>
    cases (it.measures t.program).record.isIllPosed t.settings (Iterate.baseline t.program) <;>
    simp

/-- An iterate without a scale would count as a solution. -/
theorem Task.tau_ne_zero_of_unsolved (hsettings : t.settings.Admissible)
    (h : t.statusAt it = .unsolved) : it.point.tau ≠ 0 := by
  intro hτ
  have hsolved : (it.measures t.program).isSolved t.settings = true := by
    simp [Measures.isSolved, Iterate.measures, Measures.of, hτ, hsettings.infeasibilityThreshold.le,
      hsettings.significanceThreshold.le]
  rw [statusAt, (Measures.status_eq_solved_iff _ _ _).mpr hsolved] at h
  cases h

end

/-! ## Runs -/

/-- The iterates that a run can reach. -/
inductive Task.Reaches {ω : Type} (t : Task ℝ ω) : Iterate ℝ → Prop
  /-- The first iterate. -/
  | first : Reaches t (.first t.program)
  /-- What a pass makes of an iterate that is not decided. -/
  | next {σ : Type} {it it' : Iterate ℝ} {h : Surroundings σ ω} : Reaches t it →
      t.statusAt it = .unsolved → (t.advance it h).1 = .ok it' → Reaches t it'

section

variable {σ ω : Type} [Written ℝ] [Sink σ] {t : Task ℝ ω}

/-- A run ends at an iterate that is solved. -/
theorem Task.run_of_solved (t : Task ℝ ω) {n : ℕ} {it : Iterate ℝ}
    (hstatus : t.statusAt it = .solved) (h : Surroundings σ ω) :
    (t.run n it h).1 = .ok (it.point, (it.measures t.program).record) := by
  have hsolved : (it.measures t.program).status t.settings (Iterate.baseline t.program) =
    .solved := hstatus
  rw [run.eq_def]
  simp only [hsolved]

/-- A run goes on from an iterate that is not decided if nothing else ends it. -/
theorem Task.run_of_advance (t : Task ℝ ω) {n : ℕ} {it it' : Iterate ℝ}
    (hstatus : t.statusAt it = .unsolved) (hstops : ∀ r, t.callbacks.stops r = false)
    (htime : t.settings.timeLimit.isFinite = false)
    (hadvance : ∀ h : Surroundings σ ω, (t.advance it h).1 = .ok it') (h : Surroundings σ ω) :
    ∃ h' : Surroundings σ ω, (t.run (n + 1) it h).1 = (t.run n it' h').1 := by
  obtain ⟨_, heq⟩ := t.advance_eq it h
  have hnext : t.next it = .ok it' := (congrArg Prod.fst heq).symm.trans (hadvance h)
  have hundecided := undecided_iff_statusAt.mpr ⟨hstatus, hstops _⟩
  obtain ⟨h', -, ⟨hfinite, -⟩ | ⟨e, herror, -⟩ | ⟨it'', hok, hrun⟩⟩ :=
    t.run_succ_of_undecided (n := n) h hundecided
  · cases htime.symm.trans hfinite
  · cases hnext.symm.trans herror
  · cases hnext.symm.trans hok
    exact ⟨h', congrArg Prod.fst hrun⟩

/-- A run that succeeds returns the point of an iterate that it has reached and
found solved, with the measures of that iterate. -/
theorem Task.exists_reaches_of_run {h : Surroundings σ ω} {q : Point ℝ} {r : Record ℝ}
    (hrun : (t.run t.settings.maxIter (.first t.program) h).1 = .ok (q, r)) :
    ∃ it, t.Reaches it ∧ t.statusAt it = .solved ∧ q = it.point ∧
      r = (it.measures t.program).record := by
  obtain ⟨its, last, hpasses, -, -, hends⟩ :=
    t.exists_passes (.first t.program) (Nat.zero_add _) h
  have hlast : t.Reaches last := hpasses.invariant .first fun it it' hit hundecided hnext => by
    obtain ⟨_, hadvance⟩ := t.advance_eq it h
    exact .next hit (undecided_iff_statusAt.mp hundecided).1
      ((congrArg Prod.fst hadvance).trans hnext)
  rw [hrun] at hends
  obtain ⟨hsolved, heq⟩ := hends.of_ok
  cases heq
  exact ⟨last, hlast, (Measures.status_eq_solved_iff _ _ _).mpr hsolved, rfl, rfl⟩

end

/-! ## Exact passes -/

theorem Iterate.centre_mul (W : WorkingCopy ℝ) (p : Point ℝ) :
    centre W p * (W.cones.degree + 1) = p.complementarity := by
  have hne : (W.cones.degree : ℝ) + 1 ≠ 0 := Nat.cast_add_one_ne_zero _
  rw [centre, Scalar.ofCount_real, Nat.cast_add_one, div_mul_cancel₀ _ hne]

/-- What an iterate brings along belongs to the program. -/
structure Iterate.Ready (W : WorkingCopy ℝ) (settings : Settings ℝ) (it : Iterate ℝ) : Prop where
  /-- The point has the lengths of the program. -/
  fits : it.point.Fits W
  /-- The cone and the complement are in use. -/
  inUse : InUse W settings it.cones it.schur

theorem Iterate.ready_first {W : WorkingCopy ℝ} (hW : W.WellFormed) (settings : Settings ℝ) :
    (first W).Ready W settings where
  fits := {
    size_x := W.cones.size_unit.trans hW.numel
    size_w := size_zeros _
    size_s := W.cones.size_unit.trans hW.numel }
  inUse := .first

section

variable {ω : Type} {t : Task ℝ ω} (hW : t.program.WellFormed)
  (hsettings : t.settings.Admissible) (hexact : t.settings.Unregularized)

include hW hsettings hexact

/-- A pass that takes a step multiplies all residuals and the complementarity by
one factor, and leaves what belongs to the program. -/
theorem Iterate.Ready.advance {σ : Type} {h : Surroundings σ ω} {it it' : Iterate ℝ}
    (hit : it.Ready t.program t.settings) (hstatus : t.statusAt it = .unsolved)
    (hstep : (t.advance it h).1 = .ok it') : it'.Ready t.program t.settings ∧
      it.point.Shrinks t.program it'.point (1 - it'.stepLength * (1 - it'.sigma)) := by
  obtain ⟨P, d, sigma, hcompute, hdirection, hmove⟩ := Task.advance_eq_ok_iff.mp hstep
  obtain ⟨-, rfl⟩ := Iterate.move_eq_ok_iff.mp hmove
  obtain ⟨hshape, hready⟩ := hit.inUse.ready hW hexact
  have hP := (ScaledPoint.computed_of_compute hcompute).exact hW hexact hit.fits hshape hready
  obtain ⟨hd, hshrinks⟩ := Direction.shrinks_of_ofPass hW hit.fits hP
    (Task.tau_ne_zero_of_unsolved hsettings hstatus) (Iterate.centre_mul _ _) hdirection
    (it.point.maxStep P.cones d * t.settings.maxStepFraction)
  exact ⟨⟨hit.fits.move hd _, hit.inUse.next hit.fits hcompute⟩, hshrinks⟩

theorem Task.Reaches.ready {it : Iterate ℝ} (h : t.Reaches it) :
    it.Ready t.program t.settings := by
  induction h with
  | first => exact Iterate.ready_first hW t.settings
  | next _ hstatus hstep ih => exact (ih.advance hW hsettings hexact hstatus hstep).1

/-- All that a run has done so far is a multiplication by one factor. -/
theorem Task.Reaches.exists_shrinks {it : Iterate ℝ} (h : t.Reaches it) :
    ∃ f, (Iterate.first t.program).point.Shrinks t.program it.point f := by
  induction h with
  | first => exact ⟨1, Point.shrinks_refl _ _⟩
  | next hreaches hstatus hstep ih =>
    obtain ⟨f, hf⟩ := ih
    have hready := hreaches.ready hW hsettings hexact
    exact ⟨_, hf.trans (hready.advance hW hsettings hexact hstatus hstep).2⟩

end

theorem Point.Shrinks.mu {W : WorkingCopy ℝ} {p p' : Point ℝ} {f : ℝ} (h : p.Shrinks W p' f) :
    Iterate.mu W p' = f * Iterate.mu W p := by
  rw [Iterate.mu, Iterate.mu, h.complementarity, mul_div_assoc]

/-! ## A pass on the half line -/

/-- The first iterate of the half line is in the middle of the cone. -/
theorem Iterate.first_halfLine : first .halfLine =
    ⟨⟨#[1], #[0], #[1], 1, 1⟩, WorkingCopy.halfLine.cones,
      .new (.single 1) WorkingCopy.halfLine.cones, 0, 0, 0⟩ := by
  simp [first, Point.unit, WorkingCopy.halfLine, Composite.unit, Block.unit, Orthant.numel,
    Vec.zeros, Csc.single]

/-- The second iterate of the half line. -/
noncomputable def Iterate.second : Iterate ℝ :=
  ⟨⟨#[1], #[0.99], #[0.01], 1, 0.01⟩, WorkingCopy.halfLine.cones, .halfLine, 1, 0.99, 0⟩

theorem residuals_halfLine (w s κ : ℝ) : Residuals.of .halfLine ⟨#[1], #[w], #[s], 1, κ⟩ =
    ⟨#[0], #[1 - w - s], κ + 1 - w, 1, w⟩ := by
  simp [Residuals.of, WorkingCopy.halfLine, Csc.mulAdd, Csc.mulAdd?, Csc.mulAddT, Csc.mulAddT?,
    Csc.addColumn?, Csc.columnDot?, Csc.scaleOrClear, Csc.column?, Csc.rows?, Csc.vals?,
    Csc.single, slice?, update?, scale, axpby, dot, Vec.inner]
  ring

theorem centred_halfLine (σ mu : ℝ) :
    NewtonRhs.centred (.of .halfLine ⟨#[1], #[0], #[1], 1, 1⟩) ⟨#[1], #[0], #[1], 1, 1⟩
        ⟨#[1], #[1], #[1], #[2], WorkingCopy.halfLine.cones, .halfLine⟩ σ mu =
      ⟨#[0], #[0], (1 - σ) * 2, #[σ * mu - 1], σ * mu - 1⟩ := by
  rw [residuals_halfLine]
  simp [NewtonRhs.centred, WorkingCopy.halfLine, Composite.addScaledE, Composite.circ,
    Composite.eachBlock, Composite.eachBlock₂, Composite.pieces, Block.circ, Block.addScaledE,
    Orthant.circ, Orthant.addScaledE, Block.numel, Orthant.numel, Composite.numel, scale, negate]
  exact ⟨by norm_num, by ring⟩

theorem centre_halfLine : Iterate.centre .halfLine ⟨#[1], #[0], #[1], 1, 1⟩ = 1 := by
  simp [Iterate.centre, Point.complementarity, WorkingCopy.halfLine, Composite.degree,
    Block.degree, Orthant.numel, dot, Vec.inner]

theorem maxStep_halfLine : Point.maxStep WorkingCopy.halfLine.cones ⟨#[1], #[0], #[1], 1, 1⟩
    ⟨#[0], #[1], #[-1], 0, -1⟩ = 1 := by
  simp [Point.maxStep, WorkingCopy.halfLine, Composite.maxStep, Composite.eachBlock₂,
    Composite.pieces, Block.maxStep, Orthant.maxStep, Orthant.least?, Orthant.ratios,
    Orthant.lesser, Block.numel, Orthant.numel, Point.boundStep, Scalar.clip]

/-- The affine direction allows the whole step, so it is not corrected. -/
theorem ofPass_halfLine (hε : Machine.epsilon * Machine.epsilon < 2) :
    Direction.ofPass .halfLine Settings.exact (.of .halfLine ⟨#[1], #[0], #[1], 1, 1⟩)
        ⟨#[1], #[0], #[1], 1, 1⟩ ⟨#[1], #[1], #[1], #[2], WorkingCopy.halfLine.cones, .halfLine⟩ 1 =
      .ok (⟨#[0], #[1], #[-1], 0, -1⟩, 0) := by
  have hcorrect : NewtonRhs.correct ⟨#[0], #[0], 2, #[-1], -1⟩
      ⟨#[1], #[1], #[1], #[2], WorkingCopy.halfLine.cones, .halfLine⟩
      ⟨#[0], #[1], #[-1], 0, -1⟩ = ⟨#[0], #[0], 2, #[-1], -1⟩ := by
    simp only [NewtonRhs.correct, mulTheta_halfLine, mulThetaInv_halfLine]
    simp [WorkingCopy.halfLine, Composite.circ, Composite.eachBlock₂, Composite.pieces,
      Block.circ, Orthant.circ, Block.numel, Orthant.numel, axpby]
  have hcentred := centred_halfLine 0 1
  norm_num at hcentred
  have hsolve := solve_halfLine hε 0 0 2 (-1) (-1)
  norm_num at hsolve
  have hrule : Settings.exact.predictorCorrector = true := rfl
  have hcube : Scalar.cube (1 - 1 : ℝ) = 0 := by simp [Scalar.cube_real]
  simp only [Direction.ofPass, hrule, if_true, hcentred, hsolve, bind, Except.bind,
    maxStep_halfLine, hcube,
    hcorrect]
  rfl

theorem Task.advance_halfLine (hε : Machine.epsilon * Machine.epsilon < 2) {σ ω : Type}
    (callbacks : Callbacks ℝ ω) (started : ℕ) (h : Surroundings σ ω) :
    (Task.advance ⟨.halfLine, .exact, callbacks, started⟩ (.first .halfLine) h).1 =
      .ok .second := by
  rw [Task.advance_eq_ok_iff, Iterate.first_halfLine]
  refine ⟨_, _, _, compute_halfLine, (congrArg _ centre_halfLine).trans (ofPass_halfLine hε), ?_⟩
  have hfraction : Settings.exact.maxStepFraction = 99 / 100 := by
    show (0.99 : ℝ) = 99 / 100
    norm_num
  have hshortest : Settings.exact.minStepLength ≤ 99 / 100 := by
    show (1e-8 : ℝ) ≤ 99 / 100
    norm_num
  rw [Iterate.move_eq_ok_iff]
  simp only [maxStep_halfLine, hfraction, one_mul]
  refine ⟨hshortest, ?_⟩
  simp [Iterate.second, Point.move, axpby]
  norm_num

theorem baseline_halfLine : Iterate.baseline .halfLine = ⟨1, 1, 2, 2⟩ := by
  have hunit : Point.unit WorkingCopy.halfLine.cones WorkingCopy.halfLine.A.nrows =
      ⟨#[1], #[0], #[1], 1, 1⟩ := congrArg Iterate.point Iterate.first_halfLine
  simp only [Iterate.baseline, hunit, residuals_halfLine]
  simp [Baseline.of, Iterate.mu, Point.complementarity, WorkingCopy.halfLine, Csc.single,
    Vec.norm, Vec.sumsq, dot, Vec.inner]
  norm_num

/-- On the half line the gap decides, as long as the scale has not vanished. -/
theorem statusAt_halfLine {ω : Type} (callbacks : Callbacks ℝ ω) (started : ℕ) {w s κ : ℝ}
    (hdual : 1 - w - s = 0) (hκ : κ ≤ 1) (K : Composite ℝ) (S : FactoredSchur ℝ) (n : ℕ) (α σ : ℝ) :
    Task.statusAt ⟨.halfLine, .exact, callbacks, started⟩
        ⟨⟨#[1], #[w], #[s], 1, κ⟩, K, S, n, α, σ⟩ =
      if |1 - w| / (1 + |w|) ≤ 1 / 100 then .solved else .unsolved := by
  have hgap : Settings.exact.significanceThreshold = 1 / 100 := rfl
  have hresidual : 0 ≤ Settings.exact.infeasibilityThreshold := by
    show (0 : ℝ) ≤ 1e-7
    norm_num
  have hscale : ¬ (1 ≤ Settings.exact.tauThreshold) := by
    show ¬ ((1 : ℝ) ≤ 1e-7)
    norm_num
  simp only [Task.statusAt, Iterate.measures, baseline_halfLine, residuals_halfLine, hdual]
  simp [Measures.status, Measures.isSolved, Measures.of, Record.isInfeasible, Record.isIllPosed,
    Record.tauVanished, Vec.norm, Vec.sumsq, dot, Vec.inner, hgap, hresidual, hscale, hκ]

theorem Settings.validate_exact : Settings.exact.validate = .ok () := by
  have htime : admitsTimeLimit exact.timeLimit = true := by
    show decide ((0 : Float) ≤ 1.0 / 0.0) = true
    decide
  have hranges : (ranges exact).find? (fun r => !r.2.1.admits r.2.2) = none := by
    rw [List.find?_eq_none]
    intro r hr
    simp only [ranges, List.mem_cons, List.not_mem_nil, or_false] at hr
    rcases hr with rfl | rfl | rfl | rfl | rfl | rfl | rfl | rfl | rfl | rfl | rfl | rfl | rfl |
      rfl | rfl | rfl
    all_goals simp [exact, default, Range.admits]
    all_goals
      simp only [Scalar.ofScientific_real]
      norm_num
  rw [validate, htime, hranges]
  rfl

/-- The exact solve of the half line. -/
noncomputable def Task.halfLine : Task ℝ Unit := ⟨.halfLine, .exact, .none, 0⟩

theorem Task.statusAt_first_halfLine : Task.halfLine.statusAt (.first .halfLine) = .unsolved := by
  show Task.statusAt ⟨.halfLine, .exact, .none, 0⟩ (.first .halfLine) = .unsolved
  rw [Iterate.first_halfLine, statusAt_halfLine _ _ (by norm_num) le_rfl]
  norm_num

theorem Task.statusAt_second_halfLine : Task.halfLine.statusAt .second = .solved := by
  show Task.statusAt ⟨.halfLine, .exact, .none, 0⟩ .second = .solved
  rw [Iterate.second, statusAt_halfLine _ _ (by norm_num) (by norm_num)]
  norm_num [abs_of_pos]

/-- Without regularization every pass that takes a step of length `α` with the
centring `σ` multiplies all residuals and the complementarity by `1 - α(1 - σ)`.
So along a run the residuals and `μ` are the same multiple of what they were at
the start. -/
theorem Task.shrinks_of_advance {ω : Type} {t : Task ℝ ω} (hW : t.program.WellFormed)
    (hvalid : t.settings.validate = .ok ()) (hexact : t.settings.Unregularized) :
    (∀ (σ : Type) (h : Surroundings σ ω) (it it' : Iterate ℝ), t.Reaches it →
      t.statusAt it = .unsolved → (t.advance it h).1 = .ok it' →
        it.point.Shrinks t.program it'.point (1 - it'.stepLength * (1 - it'.sigma))) ∧
    ∀ it, t.Reaches it → ∃ f,
      (Iterate.first t.program).point.Shrinks t.program it.point f ∧
      Iterate.mu t.program it.point =
        f * Iterate.mu t.program (Iterate.first t.program).point := by
  have hsettings := Settings.admissible_of_validate hvalid
  refine ⟨fun σ h it it' hit hstatus hstep => ?_, fun it hit => ?_⟩
  · exact ((hit.ready hW hsettings hexact).advance hW hsettings hexact hstatus hstep).2
  · obtain ⟨f, hf⟩ := hit.exists_shrinks hW hsettings hexact
    exact ⟨f, hf, hf.mu⟩

omit [Machine] in
/-- The first pass on the half line, in the predictor-corrector rule. -/
theorem Task.shrinks_halfLine : letI := Machine.double
    Task.halfLine.program.WellFormed ∧ Task.halfLine.settings.validate = .ok () ∧
      Task.halfLine.settings.Unregularized ∧
      Task.halfLine.Reaches (.first Task.halfLine.program) ∧
      Task.halfLine.statusAt (.first Task.halfLine.program) = .unsolved ∧
      (Task.halfLine.advance (.first Task.halfLine.program)
        (⟨(⟨fun _ => 0, 0⟩, .initial), (), ()⟩ : Surroundings Unit Unit)).1 = .ok .second ∧
      Point.Shrinks Task.halfLine.program (Iterate.first Task.halfLine.program).point
        Iterate.second.point (1 - Iterate.second.stepLength * (1 - Iterate.second.sigma)) := by
  let _ := Machine.double
  have hadvance : (Task.halfLine.advance (.first Task.halfLine.program)
      (⟨(⟨fun _ => 0, 0⟩, .initial), (), ()⟩ : Surroundings Unit Unit)).1 = .ok .second :=
    Task.advance_halfLine Machine.epsilon_double _ _ _
  have hshrinks := (Task.shrinks_of_advance (t := Task.halfLine) WorkingCopy.wellFormed_halfLine
    Settings.validate_exact Settings.unregularized_exact).1
  exact ⟨WorkingCopy.wellFormed_halfLine, Settings.validate_exact, Settings.unregularized_exact,
    .first, Task.statusAt_first_halfLine, hadvance,
    hshrinks Unit _ _ _ .first Task.statusAt_first_halfLine hadvance⟩

end Conic
