import Conic.Proofs.Program.Order
import Conic.Proofs.Solver.Interior

/-!
# What a solve returns

A solve that fails, for whatever reason, leaves the program as it was, and a
solve that succeeds replaces every entry of the point and nothing else
(`Solver.atomic`).  This needs no law of arithmetic.

If a solve succeeds, the point that it leaves in the program is a solution up to
the tolerances of the settings (`Solver.isSolution_of_solve`).  The statement is
about the program itself, in the order of its columns.

The passes measure another point: that of the embedding, in working order and
before the division by `τ`.  The residuals are homogeneous, so dividing the point
by `τ` divides them by `τ` (`Point.norm_rp_normalized`), and the sizes that the
measures refer to are those at the identity of the cones
(`WorkingCopy.Copies.baseline_eq`).
-/

namespace Conic

open Vec Matrix

namespace Solver

/-! ## The program after a solve -/

/-- The half line is solved in two passes. -/
theorem solve_halfLine [Machine] [Written ℝ] (hε : Machine.epsilon * Machine.epsilon < 2)
    (clock : Clock) : ∃ sol, (exact.solve clock .halfLine).result = .ok sol ∧
      (exact.solve clock .halfLine).program =
        { Program.halfLine with x := #[1], w := #[0.99], s := #[0.01] } := by
  have hvalid : exact.settings.validate = .ok () := Settings.validate_exact
  have hrun (started : ℕ) (h : Surroundings PrintTarget Unit) :
      (Task.run ⟨.halfLine, exact.settings, exact.callbacks, started⟩ exact.settings.maxIter
        (.first .halfLine) h).1 =
          .ok (Iterate.second.point, (Iterate.second.measures .halfLine).record) := by
    let t : Task ℝ Unit := ⟨.halfLine, exact.settings, exact.callbacks, started⟩
    obtain ⟨h', hfirst⟩ := t.run_of_advance (n := 199) Task.statusAt_first_halfLine
      (fun _ => rfl) timeLimit_exact (Task.advance_halfLine hε _ started) h
    have hsecond : t.statusAt .second = .solved := Task.statusAt_second_halfLine
    exact hfirst.trans (t.run_of_solved hsecond h')
  have hnormalized : Iterate.second.point.normalized = ⟨#[1], #[0.99], #[0.01], 1, 0.01⟩ := by
    simp [Iterate.second, Point.normalized, scale]
  have hwrite : writeBack .halfLine Program.halfLine ⟨#[1], #[0.99], #[0.01], 1, 0.01⟩ =
      (.ok (), { Program.halfLine with x := #[1], w := #[0.99], s := #[0.01] }) := by
    cbv
  rw [solve]
  simp only [hvalid, workingCopy_halfLine, hrun, conclude, hnormalized, hwrite]
  exact ⟨_, rfl, trivial⟩

/-- A solve that fails leaves the program as it was.  A solve that succeeds
replaces the point of the program by the last point of a run on the working copy,
divided by its scale, and changes nothing else. -/
theorem atomic {α σ ω : Type} [Scalar α] [Written α] [Sink σ] (S : Solver α σ ω) (clock : Clock)
    (p : Program α) :
    match (S.solve clock p).result with
    | .error _ => (S.solve clock p).program = p
    | .ok _ => ∃ (W : WorkingCopy α) (started : ℕ) (h : Surroundings σ ω) (q : Point α)
        (r : Record α), workingCopy p = .ok W ∧
        (Task.run ⟨W, S.settings, S.callbacks, started⟩ S.settings.maxIter (.first W) h).1 =
          .ok (q, r) ∧
        W.Receives p (q.x.map (· * Scalar.recip q.tau)) (q.w.map (· * Scalar.recip q.tau))
          (q.s.map (· * Scalar.recip q.tau)) (S.solve clock p).program := by
  rcases S.solve_cases clock p with ⟨e, herror, hprogram, -⟩ |
    ⟨W, started, ns, h, r, -, hW, hrun, hresult, hprogram⟩
  · rw [herror]
    exact hprogram
  · rw [hresult, hprogram]
    rcases conclude_cases (copies_of_workingCopy hW) ns r with ⟨e, he⟩ |
      ⟨q, record, p', rfl, hp', hreceives⟩
    · rw [he]
    · rw [hp']
      exact ⟨W, started, h, q, record, hW, hrun, hreceives⟩

/-- The solve of the half line succeeds and replaces its point. -/
theorem atomic_halfLine : letI := Machine.double
    letI := Written.silent
    ∃ sol, (exact.solve ⟨fun _ => 0, 0⟩ .halfLine).result = .ok sol ∧
      (exact.solve ⟨fun _ => 0, 0⟩ .halfLine).program =
        { Program.halfLine with x := #[1], w := #[0.99], s := #[0.01] } ∧
      ∃ (W : WorkingCopy ℝ) (started : ℕ) (h : Surroundings PrintTarget Unit) (q : Point ℝ)
        (r : Record ℝ), workingCopy .halfLine = .ok W ∧
        (Task.run ⟨W, exact.settings, exact.callbacks, started⟩ exact.settings.maxIter
          (.first W) h).1 = .ok (q, r) ∧
        W.Receives .halfLine (q.x.map (· * Scalar.recip q.tau)) (q.w.map (· * Scalar.recip q.tau))
          (q.s.map (· * Scalar.recip q.tau)) (exact.solve ⟨fun _ => 0, 0⟩ .halfLine).program := by
  let _ := Machine.double
  let _ := Written.silent
  obtain ⟨sol, hsol, hprogram⟩ := solve_halfLine Machine.epsilon_double ⟨fun _ => 0, 0⟩
  have hatomic := atomic exact ⟨fun _ => 0, 0⟩ .halfLine
  rw [hsol] at hatomic
  exact ⟨sol, hsol, hprogram, hatomic⟩

end Solver

variable [Machine]

/-! ## Solutions -/

/-- The point of a program is a solution, up to a tolerance for the residuals and
one for the relative gap of the objectives.  Residuals are compared with those at
the identity `e` of the cones. -/
structure Program.IsSolution (p : Program ℝ) (residual gap : ℝ) : Prop where
  /-- The point has the lengths of the matrix. -/
  sizes : p.x.size = p.A.ncols ∧ p.w.size = p.A.nrows ∧ p.s.size = p.A.ncols
  /-- The primal point is interior to all cones. -/
  interior_x : ∀ K ∈ p.cones, K.Interior fun j => p.x.getD j 0
  /-- The dual slack is interior to all cones. -/
  interior_s : ∀ K ∈ p.cones, K.Interior fun j => p.s.getD j 0
  /-- `‖Ax - b‖` is small compared with `‖b - Ae‖`. -/
  primal : euclidean (p.A.toMatrix *ᵥ coords p.A.ncols p.x - coords p.A.nrows p.b) ≤
    residual * max 1 (euclidean (coords p.A.nrows p.b -
      p.A.toMatrix *ᵥ fun j => ConeSpec.identity p.cones j))
  /-- `‖Aᵀw + s - c‖` is small compared with `‖c - e‖`. -/
  dual : euclidean (p.A.toMatrixᵀ *ᵥ coords p.A.nrows p.w + coords p.A.ncols p.s -
      coords p.A.ncols p.c) ≤
    residual * max 1 (euclidean (coords p.A.ncols p.c -
      fun j : Fin p.A.ncols => ConeSpec.identity p.cones j))
  /-- `cᵀx` and `bᵀw` are close. -/
  gap : |coords p.A.ncols p.c ⬝ᵥ coords p.A.ncols p.x -
      coords p.A.nrows p.b ⬝ᵥ coords p.A.nrows p.w| ≤
    gap * (1 + |coords p.A.nrows p.b ⬝ᵥ coords p.A.nrows p.w|)

/-! ## Division by the scale -/

namespace Point

variable {W : WorkingCopy ℝ} (hW : W.WellFormed) {q : Point ℝ} (hq : q.Fits W)
  (hτ : 0 < q.tau)

include hq

theorem fits_normalized : q.normalized.Fits W where
  size_x := (size_scale _ _).trans hq.size_x
  size_w := (size_scale _ _).trans hq.size_w
  size_s := (size_scale _ _).trans hq.size_s

include hW hτ

theorem norm_rp_normalized :
    Vec.norm (Residuals.of W q.normalized).rp = Vec.norm (Residuals.of W q).rp / q.tau := by
  obtain ⟨hsize, hcoords⟩ := coords_rp hW hq
  obtain ⟨hsize', hcoords'⟩ := coords_rp hW (fits_normalized hq)
  have hdiv : coords W.A.nrows (Residuals.of W q.normalized).rp =
      q.tau⁻¹ • coords W.A.nrows (Residuals.of W q).rp := by
    rw [hcoords', hcoords, normalized, coords_scale, mulVec_smul, Scalar.recip_real, smul_sub,
      smul_smul, inv_mul_cancel₀ hτ.ne']
  rw [Vec.norm_eq hsize', hdiv, euclidean_smul, abs_of_pos (inv_pos.mpr hτ), ← Vec.norm_eq hsize,
    inv_mul_eq_div]

theorem norm_rd_normalized :
    Vec.norm (Residuals.of W q.normalized).rd = Vec.norm (Residuals.of W q).rd / q.tau := by
  obtain ⟨hsize, hcoords⟩ := coords_rd hW hq
  obtain ⟨hsize', hcoords'⟩ := coords_rd hW (fits_normalized hq)
  have hdiv : coords W.A.ncols (Residuals.of W q.normalized).rd =
      q.tau⁻¹ • coords W.A.ncols (Residuals.of W q).rd := by
    rw [hcoords', hcoords, normalized, coords_scale, coords_scale, mulVec_smul, Scalar.recip_real,
      smul_sub, smul_sub, smul_smul, inv_mul_cancel₀ hτ.ne']
  rw [Vec.norm_eq hsize', hdiv, euclidean_smul, abs_of_pos (inv_pos.mpr hτ), ← Vec.norm_eq hsize,
    inv_mul_eq_div]

omit hq hτ in
theorem dotCx_normalized :
    (Residuals.of W q.normalized).dotCx = (Residuals.of W q).dotCx / q.tau := by
  rw [Residuals.of, Residuals.of, dot_eq hW.size_c, dot_eq hW.size_c, normalized, coords_scale,
    dotProduct_smul, Scalar.recip_real, smul_eq_mul, inv_mul_eq_div]

omit hq hτ in
theorem dotBw_normalized :
    (Residuals.of W q.normalized).dotBw = (Residuals.of W q).dotBw / q.tau := by
  rw [Residuals.of, Residuals.of, dot_eq hW.size_b, dot_eq hW.size_b, normalized, coords_scale,
    dotProduct_smul, Scalar.recip_real, smul_eq_mul, inv_mul_eq_div]

end Point

/-! ## The measures -/

/-- The sizes that the measures refer to are those at the identity of the cones. -/
theorem WorkingCopy.Copies.baseline_eq {W : WorkingCopy ℝ} {p : Program ℝ} (h : W.Copies p) :
    (Iterate.baseline W).primal = max 1 (euclidean (coords p.A.nrows p.b -
        p.A.toMatrix *ᵥ fun j => ConeSpec.identity p.cones j)) ∧
      (Iterate.baseline W).dual = max 1 (euclidean (coords p.A.ncols p.c -
        fun j : Fin p.A.ncols => ConeSpec.identity p.cones j)) := by
  have hfits := (Iterate.ready_first h.wellFormed Settings.default).fits
  have hrp := h.norm_rp hfits h.inOrder_unit
  have hrd := h.norm_rd hfits h.inOrder_unit
  simp only [Iterate.first, Point.unit, one_smul, coords_zeros, mulVec_zero, sub_zero] at hrp hrd
  exact ⟨congrArg (max 1) hrp, congrArg (max 1) hrd⟩

/-- A solved iterate, after division by its scale. -/
theorem Iterate.bounds_of_solved {W : WorkingCopy ℝ} (hW : W.WellFormed) {settings : Settings ℝ}
    {it : Iterate ℝ} (hit : it.Inside W) (h : (it.measures W).isSolved settings = true) :
    Vec.norm (Residuals.of W it.point.normalized).rp ≤
        settings.infeasibilityThreshold * (baseline W).primal ∧
      Vec.norm (Residuals.of W it.point.normalized).rd ≤
        settings.infeasibilityThreshold * (baseline W).dual ∧
      |(Residuals.of W it.point.normalized).dotCx - (Residuals.of W it.point.normalized).dotBw| ≤
        settings.significanceThreshold * (1 + |(Residuals.of W it.point.normalized).dotBw|) := by
  have hτ := hit.interior.tau
  have hprimal : 0 < (baseline W).primal := one_pos.trans_le (le_max_left _ _)
  have hdual : 0 < (baseline W).dual := one_pos.trans_le (le_max_left _ _)
  simp only [measures, Measures.isSolved, Measures.of, Bool.and_eq_true, Scalar.abs_real] at h
  obtain ⟨⟨hp, hd⟩, hs⟩ := h
  rw [Point.norm_rp_normalized hW hit.fits hτ, Point.norm_rd_normalized hW hit.fits hτ,
    Point.dotCx_normalized hW, Point.dotBw_normalized hW, ← sub_div, abs_div, abs_div,
    abs_of_pos hτ]
  exact ⟨(div_le_iff₀ hprimal).mp (of_decide_eq_true hp),
    (div_le_iff₀ hdual).mp (of_decide_eq_true hd),
    (div_le_iff₀ (by positivity)).mp (of_decide_eq_true hs)⟩

/-! ## The point of the program -/

/-- The point of the program is interior if its multiple in working order is. -/
theorem WorkingCopy.Copies.interior_of_scale {W : WorkingCopy ℝ} {p : Program ℝ}
    (h : W.Copies p) {v : Array ℝ} (hv : W.cones.isInterior v = true) {a : ℝ} (ha : 0 < a)
    {f : ℕ → ℝ} (hf : W.InOrder (scale v a⁻¹) f) : ∀ K ∈ p.cones, K.Interior f := by
  have hback : scale (scale v a⁻¹) a = v := by simp [scale, inv_mul_cancel₀ ha.ne']
  have hmul := hf.scale a
  rw [hback] at hmul
  exact fun K hK => ((h.isInterior_iff hmul).mp hv K hK).of_mul ha

namespace Solver

/-- If no pass goes all the way to the boundary and a solve succeeds, the point
that it leaves in the program is a solution up to the tolerances of the
settings, and the objective that it reports is that of the point. -/
theorem isSolution_of_solve {σ ω : Type} [Written ℝ] [Sink σ] (S : Solver ℝ σ ω)
    (hfraction : S.settings.maxStepFraction < 1) (clock : Clock) (p : Program ℝ)
    {sol : Solution ℝ} (hsol : (S.solve clock p).result = .ok sol) :
    ∃ x w s, (S.solve clock p).program = { p with x := x, w := w, s := s } ∧
      Program.IsSolution { p with x := x, w := w, s := s } S.settings.infeasibilityThreshold
        S.settings.significanceThreshold ∧
      sol.objective = coords p.A.ncols p.c ⬝ᵥ coords p.A.ncols x := by
  rcases S.solve_cases clock p with ⟨e, herror, -, -⟩ |
    ⟨W, started, ns, h, r, hvalid, hW, hrun, hresult, hprogram⟩
  · cases herror.symm.trans hsol
  have hcopies := copies_of_workingCopy hW
  have hwf := hcopies.wellFormed
  rcases conclude_cases hcopies ns r with ⟨e, he⟩ | ⟨q, record, p', rfl, hp', hreceives⟩
  · rw [he] at hresult
    cases hresult.symm.trans hsol
  rw [hp'] at hresult hprogram
  cases hresult.symm.trans hsol
  -- the run returns an iterate that it has reached and found solved
  obtain ⟨it, hit, hsolved, rfl, rfl⟩ := Task.exists_reaches_of_run hrun
  have hsettings := Settings.admissible_of_validate hvalid
  have hinside := hit.inside hwf hcopies.isInterior_unit hsettings hfraction
  have hτ := hinside.interior.tau
  obtain ⟨hprimal, hdual, hgap⟩ := Iterate.bounds_of_solved hwf hinside
    ((Measures.status_eq_solved_iff _ _ _).mp hsolved)
  have hfits := Point.fits_normalized hinside.fits
  have hx := hcopies.inOrder_of_entries hreceives.given.1 hreceives.sizes.1
    fun _ _ hj => (hreceives.entries _ _ hj).1
  have hs := hcopies.inOrder_of_entries hreceives.given.2.2 hreceives.sizes.2.2
    fun _ _ hj => (hreceives.entries _ _ hj).2
  obtain ⟨hbaseline_p, hbaseline_d⟩ := hcopies.baseline_eq
  refine ⟨p'.x, it.point.normalized.w, p'.s, hprogram.trans hreceives.data, ?_, ?_⟩
  · refine {
      sizes := ⟨hreceives.sizes.1, hreceives.given.2.1, hreceives.sizes.2.2⟩
      interior_x := hcopies.interior_of_scale hinside.interior.x hτ
        (by simpa only [Point.normalized, Scalar.recip_real] using hx)
      interior_s := hcopies.interior_of_scale hinside.interior.s hτ
        (by simpa only [Point.normalized, Scalar.recip_real] using hs)
      primal := ?_
      dual := ?_
      gap := ?_ }
    · rw [hcopies.norm_rp hfits hx, hbaseline_p, Point.tau_normalized, one_smul] at hprimal
      rw [euclidean_sub_comm]
      exact hprimal
    · rw [hcopies.norm_rd hfits hs, hbaseline_d, Point.tau_normalized, one_smul, sub_sub] at hdual
      rw [euclidean_sub_comm]
      exact hdual
    · rw [hcopies.objective_eq hx, hcopies.dotBw_eq] at hgap
      exact hgap
  · have hobjective := hcopies.objective_eq hx
    rw [Point.dotCx_normalized hwf] at hobjective
    exact hobjective

omit [Machine] in
/-- What the solve of the half line returns. -/
theorem isSolution_halfLine : letI := Machine.double
    letI := Written.silent
    exact.settings.maxStepFraction < 1 ∧ ∃ sol,
      (exact.solve ⟨fun _ => 0, 0⟩ .halfLine).result = .ok sol ∧
      ∃ x w s, (exact.solve ⟨fun _ => 0, 0⟩ .halfLine).program =
          { Program.halfLine with x := x, w := w, s := s } ∧
        Program.IsSolution { Program.halfLine with x := x, w := w, s := s }
          exact.settings.infeasibilityThreshold exact.settings.significanceThreshold ∧
        sol.objective = coords 1 Program.halfLine.c ⬝ᵥ coords 1 x := by
  let _ := Machine.double
  let _ := Written.silent
  have hfraction : exact.settings.maxStepFraction < 1 := by
    show (0.99 : ℝ) < 1
    norm_num
  obtain ⟨sol, hsol, -⟩ := solve_halfLine Machine.epsilon_double ⟨fun _ => 0, 0⟩
  exact ⟨hfraction, sol, hsol, isSolution_of_solve exact hfraction _ _ hsol⟩

end Solver

end Conic
