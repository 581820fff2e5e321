import Conic.Embedding.Newton
import Conic.Proofs.Cone.Points
import Conic.Proofs.Cone.Reflected
import Conic.Proofs.Embedding.Lengths
import Conic.Proofs.Embedding.Residuals
import Conic.Proofs.Schur.Solve

/-!
# Scaled points and directions

`ScaledPoint.Computed` and `Direction.Computed` say what a computation that
succeeds has computed.  They hold for all settings, and so does what follows
from them about lengths: whatever the factors of the complement are worth, the
vectors of a pass have the lengths of the program
(`ScaledPoint.Computed.sized`, `Direction.fits_of_ofPass`).
-/

namespace Conic

open Vec Matrix

variable [Machine]

/-! ## Scaling a point -/

namespace ScaledPoint

/-- What a computation that succeeds has computed. -/
structure Computed (W : WorkingCopy ℝ) (settings : Settings ℝ) (K : Composite ℝ)
    (S : FactoredSchur ℝ) (p : Point ℝ) (P : ScaledPoint ℝ) : Prop where
  /-- The point is interior. -/
  interior : (K.updateScaling p.x p.s K.reflection).1 = true
  /-- The cone is scaled at the point. -/
  cones : P.cones = (K.updateScaling p.x p.s K.reflection).2
  xbar : P.xbar = P.cones.mulThetaInv p.x
  sbar : P.sbar = P.cones.mulTheta p.s
  /-- The complement at the point is factored. -/
  factor : FactoredSchur.factor { S with schur := S.schur.assemble W.A P.cones K.reflection }
    settings = .ok P.schur
  /-- The first vector that eliminates `dτ`. -/
  g2 : P.schur.solve settings (addSchurColumn W P.cones W.c W.b) = .ok P.g2
  /-- The second vector. -/
  g1 : P.g1 = pullBack W P.cones P.g2 W.c

theorem computed_of_compute {W : WorkingCopy ℝ} {settings : Settings ℝ} {K : Composite ℝ}
    {S : FactoredSchur ℝ} {p : Point ℝ} {P : ScaledPoint ℝ}
    (h : compute W settings K S p = .ok P) : Computed W settings K S p P := by
  simp only [compute, guard_eq_ok_iff, bind_eq_ok_iff] at h
  obtain ⟨hinterior, S', hfactor, g2, hg2, -, hP⟩ := h
  cases hP
  exact ⟨by simpa using hinterior, rfl, rfl, rfl, hfactor, hg2, rfl⟩

end ScaledPoint

/-- What scaling a point brings along, however the complement is solved. -/
structure ScaledPoint.Sized (W : WorkingCopy ℝ) (p : Point ℝ) (P : ScaledPoint ℝ) : Prop where
  /-- The blocks are those of the program. -/
  shape : P.cones.shape = W.cones.shape
  /-- The cone is scaled at the point. -/
  scaledAt : Composite.ScaledAt P.cones.blocks p.x.toList p.s.toList
  /-- The number of coordinates. -/
  scaled : P.cones.Scaled W.A.ncols p.x p.s
  xbar : P.xbar = P.cones.mulThetaInv p.x
  sbar : P.sbar = P.cones.mulTheta p.s
  /-- The complement has the rows of the program. -/
  nrows : P.schur.schur.M.nrows = W.A.nrows
  size_g2 : P.g2.size = W.A.nrows
  size_g1 : P.g1.size = W.A.ncols

section

variable {W : WorkingCopy ℝ} (hW : W.WellFormed) {settings : Settings ℝ} {p : Point ℝ}
  {P : ScaledPoint ℝ}

include hW

theorem addSchurColumn_spec {K : Composite ℝ} {x s : Array ℝ} (h : K.Scaled W.A.ncols x s)
    {v y : Array ℝ} (hv : v.size = W.A.ncols) (hy : y.size = W.A.nrows) :
    (addSchurColumn W K v y).size = W.A.nrows ∧ coords W.A.nrows (addSchurColumn W K v y) =
      W.A.toMatrix *ᵥ h.thetaSq (coords W.A.ncols v) + coords W.A.nrows y := by
  obtain ⟨hsize, hcoords⟩ := h.coords_mulThetaSq hv
  have := Csc.mulAdd_eq hW.matrix.toValid 1 hsize 1 hy
  rwa [one_smul, one_smul, hcoords] at this

theorem pullBack_spec {K : Composite ℝ} {x s : Array ℝ} (h : K.Scaled W.A.ncols x s)
    {y v : Array ℝ} (hy : y.size = W.A.nrows) (hv : v.size = W.A.ncols) :
    (pullBack W K y v).size = W.A.ncols ∧ coords W.A.ncols (pullBack W K y v) =
      h.thetaSq (W.A.toMatrixᵀ *ᵥ coords W.A.nrows y - coords W.A.ncols v) := by
  obtain ⟨hsize, hcoords⟩ := Csc.mulAddT_eq hW.matrix.toValid 1 hy (-1) hv
  obtain ⟨hsize', hcoords'⟩ := h.coords_mulThetaSq hsize
  refine ⟨hsize', hcoords'.trans ?_⟩
  rw [hcoords, one_smul, neg_one_smul, sub_eq_add_neg]

/-- A computation that succeeds gives vectors of the lengths of the program. -/
theorem ScaledPoint.Computed.sized (hp : p.Fits W) {K : Composite ℝ} {S : FactoredSchur ℝ}
    (hshape : K.shape = W.cones.shape) (hrows : S.schur.M.nrows = W.A.nrows)
    (h : Computed W settings K S p P) : P.Sized W p := by
  have hnumel : K.numel = W.A.ncols := (Composite.numel_eq_of_shape hshape).trans hW.numel
  obtain ⟨hshape', hscaledAt, hscaled⟩ :=
    Composite.scaled_updateScaling hnumel hp.size_x hp.size_s h.interior
  rw [← h.cones] at hshape' hscaledAt hscaled
  have hnrows : P.schur.schur.M.nrows = W.A.nrows :=
    (FactoredSchur.nrows_of_factor h.factor).trans hrows
  obtain ⟨hbsize, -⟩ := addSchurColumn_spec hW hscaled hW.size_c hW.size_b
  have hg2 : P.g2.size = W.A.nrows :=
    (FactoredSchur.size_of_solve (hbsize.trans hnrows.symm) h.g2).trans hbsize
  exact {
    shape := hshape'.trans hshape
    scaledAt := hscaledAt
    scaled := hscaled
    xbar := h.xbar
    sbar := h.sbar
    nrows := hnrows
    size_g2 := hg2
    size_g1 := h.g1 ▸ (pullBack_spec hW hscaled hg2 hW.size_c).1 }

end

/-! ## The direction -/

/-- A right-hand side has the lengths of the program. -/
structure NewtonRhs.Fits (r : NewtonRhs ℝ) (W : WorkingCopy ℝ) : Prop where
  size_r1 : r.r1.size = W.A.nrows
  size_r2 : r.r2.size = W.A.ncols
  size_r4 : r.r4.size = W.A.ncols

/-- The denominator of `dτ`. -/
noncomputable def ScaledPoint.denominator (W : WorkingCopy ℝ) (p : Point ℝ) (P : ScaledPoint ℝ) :
    ℝ := p.kappa / p.tau - dot W.c P.g1 + dot W.b P.g2

/-- The vector `Θ⁻¹(λ \ r₄)`. -/
noncomputable def ScaledPoint.divided (P : ScaledPoint ℝ) (r : NewtonRhs ℝ) : Array ℝ :=
  P.cones.mulThetaInv (P.cones.invCirc P.xbar r.r4)

/-- What a direction that could be computed consists of. -/
structure Direction.Computed (W : WorkingCopy ℝ) (settings : Settings ℝ) (p : Point ℝ)
    (P : ScaledPoint ℝ) (r : NewtonRhs ℝ) (d : Direction ℝ) (h2 : Array ℝ) : Prop where
  /-- The part of `dw` that does not depend on `dτ`. -/
  solve : P.schur.solve settings
    (addSchurColumn W P.cones (axpby (-1) (P.divided r) 1 r.r2) r.r1) = .ok h2
  denominator : P.denominator W p ≠ 0
  dtau : d.dtau * P.denominator W p = r.r3 + r.r5 / p.tau +
    dot W.c (pullBack W P.cones h2 (axpby (-1) (P.divided r) 1 r.r2)) - dot W.b h2
  dx : d.dx = axpby d.dtau P.g1 1 (pullBack W P.cones h2 (axpby (-1) (P.divided r) 1 r.r2))
  dw : d.dw = axpby d.dtau P.g2 1 h2
  ds : d.ds = axpby (-1) (P.cones.mulThetaInv (P.cones.mulThetaInv d.dx)) 1 (P.divided r)
  dkappa : d.dkappa = (r.r5 - p.kappa * d.dtau) / p.tau

@[simp] theorem Direction.isFinite_eq_true (d : Direction ℝ) : d.isFinite = true := by
  simp [isFinite]

theorem Direction.computed_of_solve {W : WorkingCopy ℝ} {settings : Settings ℝ} {p : Point ℝ}
    {P : ScaledPoint ℝ} {r : NewtonRhs ℝ} {d : Direction ℝ}
    (h : solve W settings p P r = .ok d) : ∃ h2, Computed W settings p P r d h2 := by
  simp only [solve, bind_eq_ok_iff, guard_eq_ok_iff] at h
  obtain ⟨h2, hsolve, hden, hd⟩ := h
  rw [if_pos (isFinite_eq_true _)] at hd
  cases hd
  have hpos : P.denominator W p ≠ 0 := by
    have hlt : Scalar.epsilon * Scalar.epsilon < P.denominator W p := by
      simpa [ScaledPoint.denominator] using hden
    exact ((mul_self_nonneg _).trans_lt hlt).ne'
  exact ⟨h2, hsolve, hpos, div_mul_cancel₀ _ hpos, rfl, rfl, rfl, rfl⟩

section

variable {W : WorkingCopy ℝ} (hW : W.WellFormed) {settings : Settings ℝ} {p : Point ℝ}
  {P : ScaledPoint ℝ} {r : NewtonRhs ℝ} (hr : r.Fits W)

section

variable (hP : P.Sized W p)

include hP hr

/-- The division by the scaled point. -/
theorem ScaledPoint.Sized.invCirc_spec : (P.cones.invCirc P.xbar r.r4).size = W.A.ncols ∧
    P.cones.circ P.xbar (P.cones.invCirc P.xbar r.r4) = r.r4 := by
  have hlaws := hP.scaled.laws
  have hxbar : P.xbar.toList = P.cones.operations.thetaInv p.x.toList := by
    rw [hP.xbar, Composite.toList_mulThetaInv]
  have hr4 := hP.scaled.length_toList hr.size_r4
  refine ⟨?_, ?_⟩
  · rw [← Array.length_toList, Composite.toList_invCirc, hxbar, hlaws.length_invCirc _ _
      (hlaws.length_thetaInv _ hlaws.length_points.1) hr4, hP.scaled.dim_eq]
  · rw [← Array.toList_inj, Composite.toList_circ, Composite.toList_invCirc, hxbar,
      hlaws.circ_invCirc _ hr4]

theorem ScaledPoint.Sized.divided_spec : (P.divided r).size = W.A.ncols ∧
    coords W.A.ncols (P.divided r) =
      hP.scaled.thetaInv (coords W.A.ncols (P.cones.invCirc P.xbar r.r4)) :=
  hP.scaled.coords_mulThetaInv (hP.invCirc_spec hr).1

/-- What is left of the dual equation without `v`. -/
theorem ScaledPoint.Sized.rest_spec : (axpby (-1) (P.divided r) 1 r.r2).size = W.A.ncols ∧
    coords W.A.ncols (axpby (-1) (P.divided r) 1 r.r2) =
      coords W.A.ncols r.r2 - coords W.A.ncols (P.divided r) := by
  obtain ⟨hsize, -⟩ := hP.divided_spec hr
  refine ⟨by rw [size_axpby, hsize, hr.size_r2, min_self], ?_⟩
  rw [coords_axpby _ _ _ (hsize.trans hr.size_r2.symm)]
  module

include hW

theorem Direction.Computed.size_h2 {d : Direction ℝ} {h2 : Array ℝ}
    (h : Computed W settings p P r d h2) : h2.size = W.A.nrows := by
  obtain ⟨hsize, -⟩ := addSchurColumn_spec hW hP.scaled (hP.rest_spec hr).1 hr.size_r1
  exact (FactoredSchur.size_of_solve (hsize.trans hP.nrows.symm) h.solve).trans hsize

/-- A direction that could be computed has the lengths of the program. -/
theorem Direction.Computed.fits {d : Direction ℝ} {h2 : Array ℝ}
    (h : Computed W settings p P r d h2) : d.Fits W := by
  have hh2 := h.size_h2 hW hr hP
  obtain ⟨hh1, -⟩ := pullBack_spec hW hP.scaled hh2 (hP.rest_spec hr).1
  have hdx : d.dx.size = W.A.ncols := by rw [h.dx, size_axpby, hP.size_g1, hh1, min_self]
  obtain ⟨hinv, -⟩ := hP.scaled.coords_mulThetaInv hdx
  obtain ⟨hinv2, -⟩ := hP.scaled.coords_mulThetaInv hinv
  exact {
    size_dx := hdx
    size_dw := by rw [h.dw, size_axpby, hP.size_g2, hh2, min_self]
    size_ds := by rw [h.ds, size_axpby, hinv2, (hP.divided_spec hr).1, min_self] }

end

end

/-! ## The directions of a pass

What `Embedding.Lengths` proves in any arithmetic holds of the reals. -/

omit [Machine] in
theorem NewtonRhs.fits_iff {r : NewtonRhs ℝ} {W : WorkingCopy ℝ} : r.Fits W ↔ r.OfLength W :=
  ⟨fun h => ⟨h.size_r1, h.size_r2, h.size_r4⟩, fun h => ⟨h.size_r1, h.size_r2, h.size_r4⟩⟩

omit [Machine] in
theorem Direction.fits_iff {d : Direction ℝ} {W : WorkingCopy ℝ} : d.Fits W ↔ d.OfLength W :=
  ⟨fun h => ⟨h.size_dx, h.size_dw, h.size_ds⟩, fun h => ⟨h.size_dx, h.size_dw, h.size_ds⟩⟩

section

variable {W : WorkingCopy ℝ} (hW : W.WellFormed) {p : Point ℝ} (hp : p.Fits W) {P : ScaledPoint ℝ}
  (hP : P.Sized W p)

include hP

theorem ScaledPoint.Sized.regular : P.cones.Regular W.A.ncols :=
  ⟨hP.scaled.numel, fun b hb => (hP.scaledAt.reflected b hb).regular⟩

theorem NewtonRhs.Fits.correct {r : NewtonRhs ℝ} (hr : r.Fits W) {d : Direction ℝ}
    (hd : d.Fits W) : (r.correct P d).Fits W :=
  fits_iff.mpr ((fits_iff.mp hr).correct hP.regular (Direction.fits_iff.mp hd))

include hp

theorem ScaledPoint.Sized.ofLength : P.OfLength W where
  size_xbar := hP.xbar ▸ hP.regular.size_mulThetaInv hp.size_x
  size_sbar := hP.sbar ▸ hP.regular.size_mulTheta hp.size_s
  size_g1 := hP.size_g1
  size_g2 := hP.size_g2
  cones := hP.regular
  nrows := hP.nrows

include hW

theorem NewtonRhs.fits_centred (σ mu : ℝ) : (centred (.of W p) p P σ mu).Fits W :=
  fits_iff.mpr ((hP.ofLength hp).centred hW.size_b hW.size_c hp.size_s σ mu)

/-- The direction of a pass has the lengths of the program. -/
theorem Direction.fits_of_ofPass {settings : Settings ℝ} {mu : ℝ} {d : Direction ℝ} {σ : ℝ}
    (h : ofPass W settings (.of W p) p P mu = .ok (d, σ)) : d.Fits W :=
  fits_iff.mpr ((hP.ofLength hp).ofPass hW.size_b hW.size_c hp.size_s h)

end

end Conic
