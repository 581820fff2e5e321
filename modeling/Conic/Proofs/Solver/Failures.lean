import Conic.Proofs.Schur.Definite
import Conic.Proofs.Solver.Protocol

/-!
# The errors that remain

In exact arithmetic a solve of a valid program with regularization can only fail
in ways that say something about the program, about a limit or about the caller,
or with a direction whose denominator or step is too small
(`SolverError.Remains`, `Solver.remains_of_solve`).

A run keeps its iterates in the interior, and its factors belong to the
complement of the program (`Iterate.Sound`).  At such an iterate the point can be
scaled and the shifted complement can be factored, and no divisor of the pass
vanishes (`Iterate.Sound.exists_compute`).  The last point has the lengths of the
program, so a solution can always be brought back.
-/

namespace Conic

variable [Machine]

/-! ## A regularized pass -/

theorem Settings.regularized_of_validate {settings : Settings ℝ}
    (h : settings.validate = .ok ())
    (henabled : 0 < settings.staticConstant ∨ settings.dynamicEnable = true) :
    settings.Regularized where
  constant := admits_nonnegative_iff.mp
    (admits_of_validate h ("static_regularization_constant", .nonnegative, _) (by simp [ranges]))
  proportional := admits_nonnegative_iff.mp
    (admits_of_validate h ("static_regularization_proportional", .nonnegative, _)
      (by simp [ranges]))
  eps := admits_positive_iff.mp
    (admits_of_validate h ("dynamic_regularization_eps", .positive, _) (by simp [ranges]))
  delta := admits_positive_iff.mp
    (admits_of_validate h ("dynamic_regularization_delta", .positive, _) (by simp [ranges]))
  enabled := henabled

/-- A pass at a scaled point never divides by zero and never takes the square root of
a negative number. -/
structure ScaledPoint.Divides (p : Point ℝ) (P : ScaledPoint ℝ) : Prop where
  /-- `τ` is positive, and so are the residuals of `x` and `s`. -/
  interior : p.Interior P.cones
  /-- The scaling has positive factors. -/
  scaling : Composite.ScaledAt P.cones.blocks p.x.toList p.s.toList
  /-- The scaled form of the point, by which the Jordan product is undone, is
  interior. -/
  xbar : P.cones.isInterior P.xbar = true
  /-- The pivots are positive. -/
  pivots : P.schur.Invertible

/-- What a regularized run keeps. -/
structure Iterate.Sound (W : WorkingCopy ℝ) (settings : Settings ℝ) (it : Iterate ℝ) : Prop
    extends it.Inside W where
  /-- The complement and its factors belong to the program. -/
  carried : it.schur.Carried W.A W.cones (FactoredSchur.regularization settings)

namespace Iterate

theorem sound_first {W : WorkingCopy ℝ} (hW : W.WellFormed)
    (hunit : W.cones.isInterior W.cones.unit = true) (settings : Settings ℝ) :
    (first W).Sound W settings :=
  ⟨inside_first hW hunit, FactoredSchur.carried_new _ _ _⟩

section

variable {W : WorkingCopy ℝ} (hW : W.WellFormed) {settings : Settings ℝ}
  (hsettings : settings.Regularized) {it : Iterate ℝ} (hit : it.Sound W settings)

include hW hsettings hit

/-- The point can be scaled, and the complement can be factored. -/
theorem Sound.exists_compute : ∃ P,
    ScaledPoint.compute W settings it.cones it.schur it.point = .ok P ∧ P.Divides it.point ∧
      P.schur.Carried W.A W.cones (FactoredSchur.regularization settings) := by
  have hinterior := hit.interior.of_shape hit.shape
  obtain ⟨hshape, hscaledAt, hscaled⟩ := Composite.scaled_updateScaling
    ((Composite.numel_eq_of_shape hit.shape).trans hW.numel) hit.fits.size_x hit.fits.size_s
    (Composite.updateScaling_fst hinterior.x hinterior.s it.cones.reflection)
  set K := (it.cones.updateScaling it.point.x it.point.s it.cones.reflection).2 with hK
  have hcols := Schur.map_cols_eq_of_shape (hshape.trans hit.shape)
  obtain ⟨S, hfactor, hcarried, hpivots⟩ :=
    (hit.carried.of_cols_eq hcols).exists_factor hW.matrix hscaledAt hscaled hsettings rfl
  rw [Composite.reflection_eq_of_shape hshape] at hfactor
  cases hcompute : ScaledPoint.compute W settings it.cones it.schur it.point with
  | error e =>
    have herror := ScaledPoint.factor_eq_error_of_compute hinterior hcompute
    rw [← hK, hfactor] at herror
    cases herror
  | ok P =>
    have hcomputed := ScaledPoint.computed_of_compute hcompute
    have hcones : P.cones = K := hcomputed.cones
    have hschur : P.schur = S := by
      have hfactor' := hcomputed.factor
      rw [hcones, hfactor] at hfactor'
      exact (Except.ok.inj hfactor').symm
    refine ⟨P, rfl, ?_, hschur ▸ hcarried.of_cols_eq hcols.symm⟩
    exact {
      interior := hcones ▸ hinterior.of_shape hshape
      scaling := hcones ▸ hscaledAt
      xbar := by
        rw [hcomputed.xbar, hcones]
        exact Composite.isInterior_mulThetaInv hscaledAt
      pivots := hschur ▸ hpivots }

end

end Iterate

/-! ## A regularized run -/

namespace Task

section

variable {ω : Type} {t : Task ℝ ω} (hW : t.program.WellFormed)
  (hsettings : t.settings.Admissible) (hfraction : t.settings.maxStepFraction < 1)
  (hregularized : t.settings.Regularized)

include hW hregularized

/-- A pass that takes no step has found a denominator or a step that is too small. -/
theorem exists_of_sound {it : Iterate ℝ} (hit : it.Sound t.program t.settings)
    {e : SolverError ℝ} (h : t.next it = .error e) :
    (∃ v, e = .numericalBreakdown (.singularDenominator v)) ∨
      ∃ step, e = .insufficientProgress step := by
  rcases exists_of_next_eq_error h with ⟨cause, -, hcompute⟩ | ⟨cause, P, he, hdirection⟩ | hstep
  · obtain ⟨P, hP, -⟩ := hit.exists_compute hW hregularized
    cases hP.symm.trans hcompute
  · obtain ⟨v, rfl⟩ := Direction.exists_denominator_of_ofPass hdirection
    exact .inl ⟨v, he⟩
  · exact .inr hstep

include hsettings hfraction

/-- A pass that takes a step stays sound. -/
theorem sound_of_next {it it' : Iterate ℝ} (hit : it.Sound t.program t.settings)
    (hnext : t.next it = .ok it') : it'.Sound t.program t.settings := by
  refine ⟨hit.toInside.next hW hsettings hfraction hnext, ?_⟩
  obtain ⟨P, d, sigma, hcompute, -, hmove⟩ := next_eq_ok_iff.mp hnext
  obtain ⟨P', hP', -, hcarried⟩ := hit.exists_compute hW hregularized
  obtain rfl := Except.ok.inj (hcompute.symm.trans hP')
  obtain ⟨-, rfl⟩ := Iterate.move_eq_ok_iff.mp hmove
  exact hcarried

/-- All iterates of a run are sound. -/
theorem Passes.sound (hunit : t.program.cones.isInterior t.program.cones.unit = true)
    {its : List (Iterate ℝ)} {last : Iterate ℝ} (h : t.Passes (.first t.program) its last) :
    ∀ it ∈ its ++ [last], it.Sound t.program t.settings :=
  h.forall_mem (Iterate.sound_first hW hunit t.settings) fun _ _ hit _ hnext =>
    sound_of_next hW hsettings hfraction hregularized hit hnext

end

end Task

/-! ## Solving -/

/-- The errors that a regularized solve of a valid program can still end with. -/
inductive SolverError.Remains : SolverError ℝ → Prop
  | programInfeasible : Remains .programInfeasible
  | illPosed : Remains .illPosed
  | singularDenominator (v : ℝ) : Remains (.numericalBreakdown (.singularDenominator v))
  | maxIterations (iterations : ℕ) : Remains (.maxIterations iterations)
  | maxTime : Remains .maxTime
  | insufficientProgress (step : ℝ) : Remains (.insufficientProgress step)
  | callback : Remains .callback

namespace Solver

variable {σ ω : Type}

/-- The passes over the working copy of a program are sound. -/
theorem sound_of_passes {t : Task ℝ ω} (hvalid : t.settings.validate = .ok ())
    (hfraction : t.settings.maxStepFraction < 1)
    (henabled : 0 < t.settings.staticConstant ∨ t.settings.dynamicEnable = true) {p : Program ℝ}
    (hW : workingCopy p = .ok t.program) {its : List (Iterate ℝ)} {last : Iterate ℝ}
    (h : t.Passes (.first t.program) its last) :
    t.program.WellFormed ∧ t.settings.Regularized ∧
      ∀ it ∈ its ++ [last], it.Sound t.program t.settings := by
  have hcopies := copies_of_workingCopy hW
  have hregularized := Settings.regularized_of_validate hvalid henabled
  exact ⟨hcopies.wellFormed, hregularized, h.sound hcopies.wellFormed
    (Settings.admissible_of_validate hvalid) hfraction hregularized hcopies.isInterior_unit⟩

variable [Written ℝ] [Sink σ]

/-- With regularization, and if no pass goes all the way to the boundary, no other
errors than those that remain end the solve of a valid program.  Every pass over it
can scale its point, and divides by no zero there. -/
theorem remains_of_solve (S : Solver ℝ σ ω) (hvalid : S.settings.validate = .ok ())
    (hfraction : S.settings.maxStepFraction < 1)
    (henabled : 0 < S.settings.staticConstant ∨ S.settings.dynamicEnable = true)
    {p : Program ℝ} (hp : p.validate = .ok ()) :
    (∀ clock e, (S.solve clock p).result = .error e → e.Remains) ∧
    ∀ (W : WorkingCopy ℝ) (started : ℕ) (its : List (Iterate ℝ)) (last : Iterate ℝ),
      workingCopy p = .ok W →
      Task.Passes ⟨W, S.settings, S.callbacks, started⟩ (.first W) its last →
      ∀ it ∈ its ++ [last], ∃ P,
        ScaledPoint.compute W S.settings it.cones it.schur it.point = .ok P ∧
          P.Divides it.point := by
  refine ⟨fun clock e herror => ?_, fun W started its last hW hpasses it hit => ?_⟩
  · obtain ⟨t, its, last, ⟨hW, hsettings, -⟩, hpasses, -, -, ns, hends⟩ :=
      S.exists_passes hvalid hp clock
    rw [← hsettings] at hvalid hfraction henabled
    obtain ⟨hwf, hregularized, hsound⟩ :=
      sound_of_passes hvalid hfraction henabled hW hpasses
    rw [herror] at hends
    rcases hends.of_error with rfl | rfl | rfl | rfl | rfl | hnext
    · exact .programInfeasible
    · exact .illPosed
    · exact .callback
    · exact .maxIterations _
    · exact .maxTime
    · rcases Task.exists_of_sound hwf hregularized (hsound last (by simp)) hnext with
        ⟨v, rfl⟩ | ⟨step, rfl⟩
      · exact .singularDenominator v
      · exact .insufficientProgress step
  · obtain ⟨hwf, hregularized, hsound⟩ :=
      sound_of_passes (t := ⟨W, S.settings, S.callbacks, started⟩) hvalid hfraction henabled hW
        hpasses
    obtain ⟨P, hP, hdivides, -⟩ := (hsound it hit).exists_compute hwf hregularized
    exact ⟨P, hP, hdivides⟩

/-- A solver that replaces small pivots and makes no pass. -/
noncomputable def halted : Solver ℝ PrintTarget Unit :=
  ⟨{ Settings.exact with maxIter := 0, dynamicEnable := true }, .none, .initial, (), none⟩

omit [Machine] [Written ℝ] [Sink σ] in
/-- On the half line this solver reaches its limit, after it could have made its first
pass. -/
theorem remains_halfLine : letI := Machine.double
    letI := Written.silent
    halted.settings.validate = .ok () ∧ halted.settings.maxStepFraction < 1 ∧
      (0 < halted.settings.staticConstant ∨ halted.settings.dynamicEnable = true) ∧
      Program.halfLine.validate = .ok () ∧
      (halted.solve ⟨fun _ => 0, 0⟩ .halfLine).result = .error (.maxIterations 0) ∧
      SolverError.Remains (.maxIterations 0) ∧
      ∃ P, ScaledPoint.compute .halfLine halted.settings (Iterate.first .halfLine).cones
          (Iterate.first .halfLine).schur (Iterate.first .halfLine).point = .ok P ∧
        P.Divides (Iterate.first .halfLine).point := by
  let _ := Machine.double
  let _ := Written.silent
  have hvalid : halted.settings.validate = .ok () := Settings.validate_exact
  have hfraction : halted.settings.maxStepFraction < 1 := by
    show (0.99 : ℝ) < 1
    norm_num
  have hp : Program.halfLine.validate = .ok () := (workingCopy_eq_ok_iff.mp workingCopy_halfLine).1
  have hresult : (halted.solve ⟨fun _ => 0, 0⟩ .halfLine).result = .error (.maxIterations 0) := by
    obtain ⟨ns, h, -, hresult, -⟩ := exists_run hvalid workingCopy_halfLine ⟨fun _ => 0, 0⟩
    have hundecided : Task.Undecided ⟨.halfLine, halted.settings, halted.callbacks, 0⟩
        (.first .halfLine) := Task.undecided_iff_statusAt.mpr ⟨Task.statusAt_first_halfLine, rfl⟩
    have hrun := Task.run_zero_of_undecided h hundecided
    rw [hresult]
    exact congrArg (fun r => (conclude .halfLine .halfLine ns r).1) (congrArg Prod.fst hrun)
  obtain ⟨herrors, hpasses⟩ := remains_of_solve halted hvalid hfraction (.inr rfl) hp
  exact ⟨hvalid, hfraction, .inr rfl, hp, hresult, herrors _ _ hresult,
    hpasses .halfLine 0 [] (.first .halfLine) workingCopy_halfLine (.last _) _ (by simp)⟩

end Solver

end Conic
