import Conic.Proofs.Embedding.Newton

/-!
# Residuals and complementarity shrink together

A step of length `α` along a direction for the centring `σ` multiplies all
residuals and the complementarity by `1 - α(1 - σ)`
(`Point.Shrinks`, `Direction.shrinks_of_ofPass`).

For the residuals this is the linearity of the three equations.  The
complementarity is quadratic.  Its linear term is known from the last two
equations of the system (`NewtonSystem.slope_eq`), with the inner product seen
as the product against the identity.  Its quadratic term vanishes, since the
embedding is skew-symmetric (`NewtonSystem.curvature_eq`).
-/

namespace Conic

open Vec Matrix

variable [Machine]

/-! ## The complementarity along a direction -/

/-- The linear term of the complementarity along a direction. -/
noncomputable def Direction.slope (p : Point ℝ) (d : Direction ℝ) : ℝ :=
  dot p.x d.ds + dot p.s d.dx + (p.tau * d.dkappa + p.kappa * d.dtau)

/-- The quadratic term of the complementarity along a direction. -/
noncomputable def Direction.curvature (d : Direction ℝ) : ℝ :=
  dot d.dx d.ds + d.dtau * d.dkappa

section

variable {W : WorkingCopy ℝ} {p : Point ℝ} (hp : p.Fits W) {d : Direction ℝ}

include hp

/-- The complementarity after a step. -/
theorem complementarity_move (hd : d.Fits W) (α : ℝ) : (p.move d α).complementarity =
    p.complementarity + α * d.slope p + α ^ 2 * d.curvature := by
  have hmove := hp.move hd α
  rw [Point.complementarity, Point.complementarity, Direction.slope, Direction.curvature,
    dot_eq hmove.size_x, dot_eq hp.size_x, dot_eq hp.size_x, dot_eq hp.size_s, dot_eq hd.size_dx,
    coords_move_x hp hd, coords_move_s hp hd]
  simp only [Point.move, add_dotProduct, dotProduct_add, smul_dotProduct, dotProduct_smul,
    smul_eq_mul]
  rw [dotProduct_comm (coords W.A.ncols p.s)]
  ring

end

/-- All residuals and the complementarity are those at another point, multiplied
by one factor. -/
structure Point.Shrinks (W : WorkingCopy ℝ) (p p' : Point ℝ) (f : ℝ) : Prop where
  rp : (Residuals.of W p').rp = scale (Residuals.of W p).rp f
  rd : (Residuals.of W p').rd = scale (Residuals.of W p).rd f
  rg : (Residuals.of W p').rg = f * (Residuals.of W p).rg
  complementarity : p'.complementarity = f * p.complementarity

theorem Point.shrinks_refl (W : WorkingCopy ℝ) (p : Point ℝ) : p.Shrinks W p 1 where
  rp := by simp [scale]
  rd := by simp [scale]
  rg := (one_mul _).symm
  complementarity := (one_mul _).symm

theorem Point.Shrinks.trans {W : WorkingCopy ℝ} {p p' p'' : Point ℝ} {f g : ℝ}
    (h : p.Shrinks W p' f) (h' : p'.Shrinks W p'' g) : p.Shrinks W p'' (f * g) where
  rp := by
    rw [h'.rp, h.rp]
    simp [scale]
  rd := by
    rw [h'.rd, h.rd]
    simp [scale]
  rg := by
    rw [h'.rg, h.rg]
    ring
  complementarity := by
    rw [h'.complementarity, h.complementarity]
    ring

/-! ## The system of a pass -/

/-- The linear part of a right-hand side asks for a share of the residuals. -/
structure NewtonRhs.Reduces (W : WorkingCopy ℝ) (p : Point ℝ) (r : NewtonRhs ℝ) (η : ℝ) :
    Prop where
  /-- The primal equation. -/
  r1 : coords W.A.nrows r.r1 = η • coords W.A.nrows (Residuals.of W p).rp
  /-- The dual equation. -/
  r2 : coords W.A.ncols r.r2 = η • coords W.A.ncols (Residuals.of W p).rd
  /-- The equation of the gap. -/
  r3 : r.r3 = η * (Residuals.of W p).rg

section

variable {W : WorkingCopy ℝ} (hW : W.WellFormed) {p : Point ℝ} (hp : p.Fits W) {K : Composite ℝ}
  {r : NewtonRhs ℝ} {d : Direction ℝ} (h : NewtonSystem W p K r d)

include hW hp h

/-- The embedding is skew-symmetric: the direction and a share of the point
together have no complementarity. -/
theorem NewtonSystem.curvature_eq {η : ℝ} (hr : r.Reduces W p η) :
    d.curvature + η * d.slope p + η ^ 2 * p.complementarity = 0 := by
  have hd := h.fits
  have hprimal := h.primal
  have hdual := h.dual
  have hgap := h.gap
  rw [hr.r1, (coords_rp hW hp).2] at hprimal
  rw [hr.r2, (coords_rd hW hp).2] at hdual
  rw [hr.r3, rg_eq hW] at hgap
  set x := coords W.A.ncols p.x
  set dx := coords W.A.ncols d.dx
  set w := coords W.A.nrows p.w
  set dw := coords W.A.nrows d.dw
  set s := coords W.A.ncols p.s
  set ds := coords W.A.ncols d.ds
  set b := coords W.A.nrows W.b
  set c := coords W.A.ncols W.c
  -- the sum `d + ηp` solves the equations without a right-hand side
  have hA : W.A.toMatrix *ᵥ (dx + η • x) = (d.dtau + η * p.tau) • b := by
    rw [mulVec_add, mulVec_smul, sub_eq_iff_eq_add.mp hprimal]
    module
  have hAT : ds + η • s = (d.dtau + η * p.tau) • c - W.A.toMatrixᵀ *ᵥ (dw + η • w) := by
    have hds := eq_sub_of_add_eq' (sub_eq_iff_eq_add.mp hdual)
    rw [mulVec_add, mulVec_smul, hds]
    module
  have hκ : d.dkappa + η * p.kappa = -(c ⬝ᵥ (dx + η • x)) + b ⬝ᵥ (dw + η • w) := by
    rw [dotProduct_add, dotProduct_add, dotProduct_smul, dotProduct_smul, smul_eq_mul, smul_eq_mul]
    linear_combination -hgap
  have hzero : (dx + η • x) ⬝ᵥ (ds + η • s) + (d.dtau + η * p.tau) * (d.dkappa + η * p.kappa) =
      0 := by
    have hadjoint : (dx + η • x) ⬝ᵥ (W.A.toMatrixᵀ *ᵥ (dw + η • w)) =
        (d.dtau + η * p.tau) * (b ⬝ᵥ (dw + η • w)) := by
      rw [mulVec_transpose, dotProduct_comm, ← dotProduct_mulVec, hA, dotProduct_smul, smul_eq_mul,
        dotProduct_comm]
    rw [hAT, hκ, dotProduct_sub, hadjoint, dotProduct_smul, smul_eq_mul, dotProduct_comm _ c]
    ring
  rw [Direction.curvature, Direction.slope, Point.complementarity, dot_eq hd.size_dx,
    dot_eq hp.size_x, dot_eq hp.size_s, dot_eq hp.size_x]
  simp only [add_dotProduct, dotProduct_add, smul_dotProduct, dotProduct_smul, smul_eq_mul]
    at hzero
  rw [dotProduct_comm dx s] at hzero
  linear_combination hzero

omit hW in
/-- The linear term of the complementarity is the trace of the last two
equations. -/
theorem NewtonSystem.slope_eq (hK : K.Scaled W.A.ncols p.x p.s) :
    d.slope p = dot K.unit r.r4 + r.r5 := by
  obtain ⟨hdx, -, hds⟩ := h.fits
  obtain ⟨hxbar, -⟩ := hK.coords_mulThetaInv hp.size_x
  obtain ⟨hΘdx, -⟩ := hK.coords_mulThetaInv hdx
  obtain ⟨hΘds, -⟩ := hK.coords_mulTheta hds
  have hsum : (axpby 1 (K.mulThetaInv d.dx) 1 (K.mulTheta d.ds)).size = W.A.ncols := by
    rw [size_axpby, hΘdx, hΘds, min_self]
  have htrace : dot K.unit r.r4 =
      dot (K.mulThetaInv p.x) (axpby 1 (K.mulThetaInv d.dx) 1 (K.mulTheta d.ds)) := by
    rw [← h.complementarity, (hK.dot_unit_circ hxbar hsum).2]
  have hsplit : dot (K.mulThetaInv p.x) (axpby 1 (K.mulThetaInv d.dx) 1 (K.mulTheta d.ds)) =
      dot (K.mulThetaInv p.x) (K.mulThetaInv d.dx) +
        dot (K.mulThetaInv p.x) (K.mulTheta d.ds) := by
    rw [dot_axpby _ _ _ (hΘdx.trans hΘds.symm), one_mul, one_mul]
  -- `λ` is `Θs` against `Θ⁻¹dx` and `Θ⁻¹x` against `Θds`
  have hfirst : dot (K.mulThetaInv p.x) (K.mulThetaInv d.dx) = dot p.s d.dx := by
    rw [hK.mulThetaInv_point, dot_comm, hK.dot_mulThetaInv_mulTheta hdx hp.size_s, dot_comm]
  have hsecond : dot (K.mulThetaInv p.x) (K.mulTheta d.ds) = dot p.x d.ds :=
    hK.dot_mulThetaInv_mulTheta hp.size_x hds
  rw [htrace, hsplit, hfirst, hsecond, ← h.scale, Direction.slope]
  ring

end

/-! ## The right-hand sides of a pass -/

/-- A right-hand side asks for a share of the residuals, and its trace for the
same share of the complementarity. -/
structure NewtonRhs.Aims (W : WorkingCopy ℝ) (p : Point ℝ) (K : Composite ℝ) (r : NewtonRhs ℝ)
    (η : ℝ) : Prop extends r.Fits W, r.Reduces W p η where
  /-- The trace of the last two equations. -/
  trace : dot K.unit r.r4 + r.r5 = -(η * p.complementarity)

section

variable {W : WorkingCopy ℝ} {p : Point ℝ} {K : Composite ℝ} (hW : W.WellFormed) (hp : p.Fits W)
  (hK : K.Scaled W.A.ncols p.x p.s) {r : NewtonRhs ℝ} {η : ℝ} (hr : r.Aims W p K η)
  {d : Direction ℝ} (h : NewtonSystem W p K r d)

include hW hp hK hr h

/-- A direction that aims at a share of everything has no quadratic term. -/
theorem NewtonSystem.curvature_eq_zero : d.curvature = 0 := by
  have hcurvature := h.curvature_eq hW hp hr.toReduces
  have hslope := h.slope_eq hp hK
  rw [hslope, hr.trace] at hcurvature
  linear_combination hcurvature

/-- A step along such a direction. -/
theorem NewtonSystem.shrinks (α : ℝ) : p.Shrinks W (p.move d α) (1 - α * η) := by
  have hd := h.fits
  have hp' := hp.move hd α
  have hprimal := h.primal
  have hdual := h.dual
  have hgap := h.gap
  rw [hr.r1, (coords_rp hW hp).2] at hprimal
  rw [hr.r2, (coords_rd hW hp).2] at hdual
  rw [hr.r3, rg_eq hW] at hgap
  have hslope := h.slope_eq hp hK
  refine {
    rp := ?_
    rd := ?_
    rg := ?_
    complementarity := ?_ }
  · refine ext_coords (coords_rp hW hp').1 ((size_scale _ _).trans (coords_rp hW hp).1) ?_
    rw [coords_scale, (coords_rp hW hp').2, (coords_rp hW hp).2, coords_move_x hp hd, mulVec_add,
      mulVec_smul, sub_eq_iff_eq_add.mp hprimal, Point.move]
    module
  · refine ext_coords (coords_rd hW hp').1 ((size_scale _ _).trans (coords_rd hW hp).1) ?_
    rw [coords_scale, (coords_rd hW hp').2, (coords_rd hW hp).2, coords_move_w hp hd,
      coords_move_s hp hd, mulVec_add, mulVec_smul,
      eq_sub_of_add_eq' (sub_eq_iff_eq_add.mp hdual), Point.move]
    module
  · rw [rg_eq hW, rg_eq hW, coords_move_x hp hd, coords_move_w hp hd, dotProduct_add,
      dotProduct_add, dotProduct_smul, dotProduct_smul, smul_eq_mul, smul_eq_mul, Point.move]
    linear_combination -α * hgap
  · rw [complementarity_move hp hd, hslope, hr.trace, h.curvature_eq_zero hW hp hK hr]
    ring

end

section

variable {W : WorkingCopy ℝ} (hW : W.WellFormed) {p : Point ℝ} (hp : p.Fits W) {P : ScaledPoint ℝ}
  (hP : P.Exact W p)

include hP

/-- Taking the second-order terms of a direction off does not change the aim if
they have no trace. -/
theorem NewtonRhs.Aims.corrected {r : NewtonRhs ℝ} {η : ℝ} (hr : r.Aims W p P.cones η)
    {d : Direction ℝ} (hd : d.Fits W) (hcurvature : d.curvature = 0) :
    (r.correct P d).Aims W p P.cones η := by
  obtain ⟨hΘdx, -⟩ := hP.scaled.coords_mulThetaInv hd.size_dx
  obtain ⟨hΘds, -⟩ := hP.scaled.coords_mulTheta hd.size_ds
  obtain ⟨hsize, hproduct⟩ := hP.scaled.dot_unit_circ hΘdx hΘds
  rw [hP.scaled.dot_mulThetaInv_mulTheta hd.size_dx hd.size_ds] at hproduct
  refine {
    toFits := hr.toFits.correct hP.toSized hd
    r1 := hr.r1
    r2 := hr.r2
    r3 := hr.r3
    trace := ?_ }
  have htrace := hr.trace
  rw [Direction.curvature] at hcurvature
  rw [NewtonRhs.correct, dot_axpby _ _ _ (hsize.trans hr.size_r4.symm), hproduct]
  linear_combination htrace - hcurvature

include hW hp

/-- The right-hand side for the centring `σ` aims at the share `1 - σ`. -/
theorem NewtonRhs.aims_centred {mu : ℝ} (hmu : mu * (W.cones.degree + 1) = p.complementarity)
    (σ : ℝ) : (centred (.of W p) p P σ mu).Aims W p P.cones (1 - σ) := by
  obtain ⟨hxbar, -⟩ := hP.scaled.coords_mulThetaInv hp.size_x
  obtain ⟨hsbar, -⟩ := hP.scaled.coords_mulTheta hp.size_s
  rw [← hP.xbar] at hxbar
  rw [← hP.sbar] at hsbar
  obtain ⟨hcirc, htrace⟩ := hP.scaled.dot_unit_circ hxbar hsbar
  rw [hP.xbar, hP.sbar, hP.scaled.dot_mulThetaInv_mulTheta hp.size_x hp.size_s, ← hP.xbar,
    ← hP.sbar] at htrace
  obtain ⟨-, hunit⟩ := hP.scaled.dot_unit_addScaledE (σ * mu)
    ((size_negate (P.cones.circ P.xbar P.sbar)).trans hcirc)
  rw [dot_negate, htrace, Composite.degree_eq_of_shape hP.shape] at hunit
  refine {
    toFits := NewtonRhs.fits_centred hW hp hP.toSized σ mu
    r1 := coords_scale _ _ _
    r2 := coords_scale _ _ _
    r3 := rfl
    trace := ?_ }
  rw [Point.complementarity] at hmu ⊢
  simp only [centred]
  rw [hunit]
  linear_combination σ * hmu

/-- A step along the direction of a pass multiplies all residuals and the
complementarity by one factor. -/
theorem Direction.shrinks_of_ofPass {settings : Settings ℝ} (hτ : p.tau ≠ 0) {mu : ℝ}
    (hmu : mu * (W.cones.degree + 1) = p.complementarity) {d : Direction ℝ} {σ : ℝ}
    (h : ofPass W settings (.of W p) p P mu = .ok (d, σ)) (α : ℝ) :
    d.Fits W ∧ p.Shrinks W (p.move d α) (1 - α * (1 - σ)) := by
  have hsystem {r : NewtonRhs ℝ} {d : Direction ℝ} (hr : r.Fits W)
      (hsolve : solve W settings p P r = .ok d) : NewtonSystem W p P.cones r d := by
    obtain ⟨h2, hcomputed⟩ := computed_of_solve hsolve
    exact hcomputed.newtonSystem hW hr hP hτ
  rw [ofPass] at h
  split at h
  next =>
    obtain ⟨affine, haffine, h⟩ := bind_eq_ok_iff.mp h
    obtain ⟨d', hd', h⟩ := bind_eq_ok_iff.mp h
    cases h
    -- the affine direction aims at the share one
    have haims := NewtonRhs.aims_centred hW hp hP hmu 0
    have hsystem₀ := hsystem haims.toFits haffine
    have hcurvature := hsystem₀.curvature_eq_zero hW hp hP.scaled haims
    have hcorrected := (NewtonRhs.aims_centred hW hp hP hmu
      (Scalar.cube (1 - p.maxStep P.cones affine))).corrected hP hsystem₀.fits hcurvature
    have hsystem₁ := hsystem hcorrected.toFits hd'
    exact ⟨hsystem₁.fits, hsystem₁.shrinks hW hp hP.scaled hcorrected α⟩
  next =>
    obtain ⟨d', hd', h⟩ := bind_eq_ok_iff.mp h
    cases h
    have haims := NewtonRhs.aims_centred hW hp hP hmu settings.sigmaFixed
    have hsystem₁ := hsystem haims.toFits hd'
    exact ⟨hsystem₁.fits, hsystem₁.shrinks hW hp hP.scaled haims α⟩

end

end Conic
