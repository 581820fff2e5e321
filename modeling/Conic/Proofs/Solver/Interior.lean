import Conic.Output.Target
import Conic.Proofs.Embedding.Interior
import Conic.Proofs.Program.WorkingCopy
import Conic.Proofs.Solver.Passes

/-!
# Iterates stay in the interior

If a pass never goes all the way to the boundary, all iterates of a run are
interior, whatever the regularization, the refinement and the step rule make of
the directions.  So a pass never finds that its point has left the cone, and
never divides by a scale that is zero (`Solver.interior_of_reaches`).

The invariant of a run is `Iterate.Inside`.  A pass that takes a step keeps it
(`Iterate.Inside.next`): the step is positive, since it is not too short, and
it is shorter than the step to the boundary.
-/

namespace Conic

variable [Machine]

/-! ## The invariant -/

/-- The point is interior, and the cone and the complement have the sizes of
the program. -/
structure Iterate.Inside (W : WorkingCopy ℝ) (it : Iterate ℝ) : Prop where
  /-- The point has the lengths of the program. -/
  fits : it.point.Fits W
  /-- The blocks are those of the program. -/
  shape : it.cones.shape = W.cones.shape
  /-- The complement has the rows of the program. -/
  nrows : it.schur.schur.M.nrows = W.A.nrows
  /-- The point is interior. -/
  interior : it.point.Interior W.cones

theorem Iterate.inside_first {W : WorkingCopy ℝ} (hW : W.WellFormed)
    (hunit : W.cones.isInterior W.cones.unit = true) : (first W).Inside W where
  fits := (ready_first hW Settings.default).fits
  shape := rfl
  nrows := (Schur.fits_new W.A W.cones).nrows_eq
  interior := {
    x := hunit
    s := hunit
    tau := one_pos
    kappa := one_pos }

section

variable {ω : Type} {t : Task ℝ ω} (hW : t.program.WellFormed)
  (hunit : t.program.cones.isInterior t.program.cones.unit = true)
  (hsettings : t.settings.Admissible) (hfraction : t.settings.maxStepFraction < 1)

include hW hsettings hfraction

/-- A pass that takes a step stays inside. -/
theorem Iterate.Inside.next {it it' : Iterate ℝ} (hit : it.Inside t.program)
    (hnext : t.next it = .ok it') : it'.Inside t.program := by
  obtain ⟨P, d, sigma, hcompute, hdirection, hmove⟩ := Task.next_eq_ok_iff.mp hnext
  obtain ⟨hlong, rfl⟩ := Iterate.move_eq_ok_iff.mp hmove
  have hP := (ScaledPoint.computed_of_compute hcompute).sized hW hit.fits hit.shape hit.nrows
  have hd := Direction.fits_of_ofPass hW hit.fits hP hdirection
  -- the step is positive, and shorter than the step to the boundary
  have hpos := hsettings.minStepLength.trans_le hlong
  have hboundary : 0 < it.point.maxStep P.cones d :=
    pos_of_mul_pos_left hpos hsettings.maxStepFraction.1.le
  have hlt := mul_lt_of_lt_one_right hboundary hfraction
  have hinterior := (hit.interior.of_shape hP.shape).move hit.fits hd hpos hlt
  exact {
    fits := hit.fits.move hd _
    shape := hP.shape
    nrows := hP.nrows
    interior := hinterior.of_shape hP.shape.symm }

include hunit

theorem Task.Reaches.inside {it : Iterate ℝ} (h : t.Reaches it) : it.Inside t.program := by
  induction h with
  | first => exact Iterate.inside_first hW hunit
  | @next σ it it' h _ _ hstep ih =>
    obtain ⟨_, hadvance⟩ := t.advance_eq it h
    rw [hadvance] at hstep
    exact ih.next hW hsettings hfraction hstep

omit hW hunit hsettings hfraction in
/-- A pass at an interior point does not find it outside. -/
theorem Iterate.Inside.next_ne_leftCone {it : Iterate ℝ} (hit : it.Inside t.program) :
    t.next it ≠ .error (.numericalBreakdown .leftCone) := by
  intro herror
  rcases Task.exists_of_next_eq_error herror with ⟨_, heq, hcompute⟩ | ⟨_, _, heq, hdirection⟩ |
    ⟨_, heq⟩
  · cases heq
    exact ScaledPoint.compute_ne_leftCone _ _ _ (hit.interior.of_shape hit.shape) hcompute
  · cases heq
    obtain ⟨v, hv⟩ := Direction.exists_denominator_of_ofPass hdirection
    cases hv
  · cases heq

/-- No run ends because a point has left the cone. -/
theorem Task.run_ne_leftCone {σ : Type} [Written ℝ] [Sink σ] (h : Surroundings σ ω) :
    (t.run t.settings.maxIter (.first t.program) h).1 ≠
      .error (.numericalBreakdown .leftCone) := by
  intro herror
  obtain ⟨its, last, hpasses, -, -, hends⟩ :=
    t.exists_passes (.first t.program) (Nat.zero_add _) h
  have hlast := hpasses.invariant (Iterate.inside_first hW hunit) fun _ _ hit _ hnext =>
    hit.next hW hsettings hfraction hnext
  rw [herror] at hends
  rcases hends.of_error with he | he | he | he | he | hnext
  iterate 5 cases he
  exact hlast.next_ne_leftCone hnext

end

/-! ## Solving -/

/-- Reals that leave no trace in a report. -/
abbrev Written.silent : Written ℝ where
  bits := 64
  shortest _ := ""
  exponential _ _ := ""
  positional _ _ := ""
  tabular _ _ _ _ := ""

/-- The program that minimizes `x` subject to `x = 1` on the half line. -/
noncomputable def Program.halfLine : Program ℝ where
  A := .single 1
  b := #[1]
  c := #[1]
  x := #[0]
  w := #[0]
  s := #[0]
  cones := [.nonnegative 0]
  map := .identity 1

namespace Solver

/-- A solver with the exact settings and without callbacks. -/
noncomputable def exact : Solver ℝ PrintTarget Unit := ⟨.exact, .none, .initial, (), none⟩

theorem timeLimit_exact : exact.settings.timeLimit.isFinite = false := by
  show (1.0 / 0.0 : Float).isFinite = false
  decide

theorem workingCopy_halfLine : workingCopy .halfLine = .ok .halfLine := by
  have hcheckOut : WorkingCopy.checkOut Program.halfLine = .ok .halfLine := by cbv
  rw [workingCopy, hcheckOut]

theorem conclude_ne_leftCone (W : WorkingCopy ℝ) (p : Program ℝ) (ns : ℕ)
    {r : Except (SolverError ℝ) (Point ℝ × Record ℝ)}
    (h : r ≠ .error (.numericalBreakdown .leftCone)) :
    (conclude W p ns r).1 ≠ .error (.numericalBreakdown .leftCone) := by
  rw [conclude.eq_def]
  split
  next => exact fun heq => h (Except.error.inj heq ▸ rfl)
  next => split <;> nofun

/-- If no pass goes all the way to the boundary, every iterate that a solve can
reach is interior, and no solve ends because a point has left the cone. -/
theorem interior_of_reaches {σ ω : Type} [Written ℝ] [Sink σ] (S : Solver ℝ σ ω)
    (hvalid : S.settings.validate = .ok ()) (hfraction : S.settings.maxStepFraction < 1)
    (p : Program ℝ) :
    (∀ (W : WorkingCopy ℝ) (started : ℕ) (it : Iterate ℝ), workingCopy p = .ok W →
      Task.Reaches ⟨W, S.settings, S.callbacks, started⟩ it → it.point.Interior W.cones) ∧
    ∀ clock, (S.solve clock p).result ≠ .error (.numericalBreakdown .leftCone) := by
  have hsettings := Settings.admissible_of_validate hvalid
  refine ⟨fun W started it hW hit => ?_, fun clock => ?_⟩
  · have hcopies := copies_of_workingCopy hW
    exact (hit.inside hcopies.wellFormed hcopies.isInterior_unit hsettings hfraction).interior
  · rcases S.solve_cases clock p with ⟨e, herror, -, he⟩ |
      ⟨W, started, ns, h, r, -, hW, rfl, hresult, -⟩
    · rw [herror]
      exact fun heq => he _ (Except.error.inj heq)
    · have hcopies := copies_of_workingCopy hW
      rw [hresult]
      exact conclude_ne_leftCone W p ns (Task.run_ne_leftCone hcopies.wellFormed
        hcopies.isInterior_unit hsettings hfraction h)

omit [Machine] in
/-- The second iterate of the half line is interior. -/
theorem interior_halfLine : letI := Machine.double
    letI := Written.silent
    exact.settings.validate = .ok () ∧ exact.settings.maxStepFraction < 1 ∧
      workingCopy .halfLine = .ok .halfLine ∧
      Task.Reaches ⟨.halfLine, exact.settings, exact.callbacks, 0⟩ .second ∧
      Iterate.second.point.Interior WorkingCopy.halfLine.cones ∧
      (exact.solve ⟨fun _ => 0, 0⟩ .halfLine).result ≠ .error (.numericalBreakdown .leftCone) := by
  let _ := Machine.double
  let _ := Written.silent
  have hfraction : exact.settings.maxStepFraction < 1 := by
    show (0.99 : ℝ) < 1
    norm_num
  have hreaches : Task.Reaches ⟨.halfLine, exact.settings, exact.callbacks, 0⟩ .second :=
    .next (σ := Unit) (h := ⟨(⟨fun _ => 0, 0⟩, .initial), (), ()⟩) .first
      Task.statusAt_first_halfLine (Task.advance_halfLine Machine.epsilon_double _ _ _)
  obtain ⟨hinterior, hsolve⟩ :=
    interior_of_reaches exact Settings.validate_exact hfraction .halfLine
  exact ⟨Settings.validate_exact, hfraction, workingCopy_halfLine, hreaches,
    hinterior _ 0 _ workingCopy_halfLine hreaches, hsolve _⟩

end Solver

end Conic
