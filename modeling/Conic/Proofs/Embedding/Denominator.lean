import Conic.Proofs.Embedding.Interior
import Conic.Proofs.Embedding.Newton
import Conic.Proofs.Schur.Definite

/-!
# The denominator of `dτ`

The elimination ends with an equation for `dτ` alone.  What it is divided by belongs
to the point and not to the right-hand side.  In exact arithmetic, and without
regularization, it is

```text
κ/τ + ‖Θ(Aᵀg₂ - c)‖² .
```

The reason is that `g₂` solves the system of the complement, so that `A g₁ = b`
(`ScaledPoint.Exact.mulVec_g1`), and that `Θ` is symmetric.  So the denominator is
positive at every interior point, and a direction fails to be computed only if
`κ/τ` has become too small itself.

If the rows of `A` are linearly independent, then the complement is positive
definite, since `Θ` is invertible.  So it can be factored, and the point can be
scaled (`ScaledPoint.exists_compute`).
-/

namespace Conic

open Vec Matrix

variable [Machine]

/-! ## Independent rows -/

/-- `Θ²` is positive definite. -/
theorem Composite.Scaled.posDef_thetaSq {K : Composite ℝ} {n : ℕ} {x s : Array ℝ}
    (h : K.Scaled n x s) : (LinearMap.toMatrix' h.thetaSq).PosDef := by
  have hinverse : LinearMap.toMatrix' (h.thetaInv ∘ₗ h.thetaInv) *
      LinearMap.toMatrix' h.thetaSq = 1 := by
    rw [← LinearMap.toMatrix'_comp, ← LinearMap.toMatrix'_id]
    exact congrArg _ (LinearMap.ext h.thetaInv_thetaInv_thetaSq)
  rw [h.posSemidef_thetaSq.posDef_iff_isUnit]
  exact .of_mul_eq_one_right _ hinverse

/-- The assembled complement is positive definite if the rows are linearly
independent. -/
theorem Schur.Fits.posDef_assemble {S : Schur ℝ} {A : Csc ℝ} {K : Composite ℝ} (hS : S.Fits A K)
    (hA : A.WellFormed) {x s : Array ℝ} (hK : Composite.ScaledAt K.blocks x.toList s.toList)
    (h : K.Scaled A.ncols x s) (hrows : LinearIndependent ℝ A.toMatrix.row) :
    (S.assemble A K K.reflection).M.symMatrix.PosDef := by
  have hnrows := (hS.assemble hA h.numel.le K.reflection).nrows_eq
  have hproduct : (Matrix.of fun r c : Fin A.nrows =>
      (S.assemble A K K.reflection).M.symGet r c).PosDef := by
    rw [hS.symGet_assemble_eq hA hK h]
    exact h.posDef_thetaSq.mul_mul_conjTranspose_same
      (Matrix.vecMul_injective_iff.mpr hrows)
  have hcast := hproduct.submatrix (Fin.cast_injective hnrows)
  exact hcast

/-- The complement of a scaled cone can be factored without regularization. -/
theorem FactoredSchur.Ready.exists_factor {S : FactoredSchur ℝ} {A : Csc ℝ} {K : Composite ℝ}
    (hS : S.Ready A K) (hA : A.WellFormed) {x s : Array ℝ}
    (hK : Composite.ScaledAt K.blocks x.toList s.toList) (h : K.Scaled A.ncols x s)
    (hrows : LinearIndependent ℝ A.toMatrix.row) {settings : Settings ℝ}
    (hsettings : settings.Unregularized) :
    ∃ S', factor { S with schur := S.schur.assemble A K K.reflection } settings = .ok S' := by
  have hassembled := hS.assemble hA h.numel.le K.reflection
  have hreg : regularization settings = none := by
    rw [regularization, hsettings.dynamic]
    rfl
  have hsafe : Ldl.Safe none { (S.schur.assemble A K K.reflection).M with
      values := shifted (S.schur.assemble A K K.reflection) settings } := by
    rw [shifted_eq _ hsettings.constant hsettings.proportional]
    exact .inr ⟨rfl, hS.fits.posDef_assemble hA hK h hrows⟩
  obtain ⟨factors, hfactor, -⟩ := Reusable.exists_factor hassembled.factors hassembled.fits
    hA.toValid h.numel.le hreg hsafe
  exact ⟨_, hfactor⟩

section

variable {W : WorkingCopy ℝ} (hW : W.WellFormed) {settings : Settings ℝ}
  (hsettings : settings.Unregularized) {K : Composite ℝ} {S : FactoredSchur ℝ}
  (hin : InUse W settings K S) {p : Point ℝ} (hp : p.Fits W) (hinterior : p.Interior W.cones)

include hW hsettings hin hp hinterior

/-- An interior point can be scaled if the rows are linearly independent. -/
theorem ScaledPoint.exists_compute (hrows : LinearIndependent ℝ W.A.toMatrix.row) :
    ∃ P, compute W settings K S p = .ok P := by
  obtain ⟨hshape, hready⟩ := hin.ready hW hsettings
  have hK := hinterior.of_shape hshape
  obtain ⟨hshape', hscaledAt, hscaled⟩ := Composite.scaled_updateScaling
    ((Composite.numel_eq_of_shape hshape).trans hW.numel) hp.size_x hp.size_s
    (Composite.updateScaling_fst hK.x hK.s K.reflection)
  have hcols := Schur.map_cols_eq_of_shape (hshape'.trans hshape)
  obtain ⟨S', hfactor⟩ :=
    (hready.of_cols_eq hcols).exists_factor hW.matrix hscaledAt hscaled hrows hsettings
  rw [Composite.reflection_eq_of_shape hshape'] at hfactor
  cases hcompute : compute W settings K S p with
  | error e => cases hfactor.symm.trans (factor_eq_error_of_compute hK hcompute)
  | ok P => exact ⟨P, rfl⟩

end

/-! ## The denominator -/

/-- The vector `Θ(Aᵀg₂ - c)`. -/
noncomputable def ScaledPoint.pulled (W : WorkingCopy ℝ) (P : ScaledPoint ℝ) : Array ℝ :=
  P.cones.mulTheta (W.A.mulAddT 1 P.g2 (-1) W.c)

namespace ScaledPoint.Exact

variable {W : WorkingCopy ℝ} (hW : W.WellFormed) {p : Point ℝ} {P : ScaledPoint ℝ}
  (hP : P.Exact W p)

include hP

/-- The vectors that eliminate `dτ` solve the primal equation. -/
theorem mulVec_g1 : W.A.toMatrix *ᵥ coords W.A.ncols P.g1 = coords W.A.nrows W.b := by
  rw [hP.g1, map_sub, mulVec_sub, hP.g2, add_sub_cancel_right]

include hW

theorem coords_pulled : coords W.A.ncols (P.pulled W) =
    hP.scaled.theta (W.A.toMatrixᵀ *ᵥ coords W.A.nrows P.g2 - coords W.A.ncols W.c) := by
  obtain ⟨hsize, hcoords⟩ := Csc.mulAddT_eq hW.matrix.toValid 1 hP.size_g2 (-1) hW.size_c
  rw [pulled, (hP.scaled.coords_mulTheta hsize).2, hcoords, one_smul, neg_one_smul,
    ← sub_eq_add_neg]

/-- The denominator is `κ/τ` and the square of a length. -/
theorem denominator_eq : P.denominator W p =
    p.kappa / p.tau + euclidean (coords W.A.ncols (P.pulled W)) ^ 2 := by
  set y := coords W.A.nrows P.g2 with hy
  set c := coords W.A.ncols W.c with hc
  set u := W.A.toMatrixᵀ *ᵥ y - c with hu
  have hb : coords W.A.nrows W.b ⬝ᵥ y = coords W.A.ncols P.g1 ⬝ᵥ (W.A.toMatrixᵀ *ᵥ y) := by
    rw [← hP.mulVec_g1, dotProduct_mulVec, vecMul_transpose]
  have hsquare : euclidean (coords W.A.ncols (P.pulled W)) ^ 2 =
      coords W.A.ncols P.g1 ⬝ᵥ u := by
    rw [euclidean_eq_norm, EuclideanSpace.real_norm_sq_eq, hP.coords_pulled hW, hP.g1,
      hP.scaled.thetaSq_apply, hP.scaled.theta_dotProduct]
    exact Finset.sum_congr rfl fun i _ => sq _
  rw [denominator, dot_eq hW.size_c, dot_eq hW.size_b, ← hy, ← hc, hb, hsquare, hu,
    dotProduct_sub, dotProduct_comm c]
  ring

end ScaledPoint.Exact

/-! ## A product of cones -/

/-- A program with two rows on the product of a half line and a second-order cone of two
coordinates. -/
noncomputable def WorkingCopy.product : WorkingCopy ℝ where
  A := ⟨2, 3, #[0, 1, 2, 3], #[0, 0, 1], #[1, 1, 1]⟩
  b := #[1, 0]
  c := #[1, 1, 0]
  cones := ⟨[.orthant ⟨[1]⟩, .secondOrder ⟨[1, 0], 1, [1, -1]⟩]⟩
  perm := [0, 1, 2]

omit [Machine] in
theorem WorkingCopy.wellFormed_product : product.WellFormed where
  matrix := Csc.checkFormat_eq_ok_iff.mp (by cbv)
  size_b := rfl
  size_c := rfl
  numel := rfl

theorem WorkingCopy.isInterior_product {x t u : ℝ} (hx : 0 < x) (ht : 0 < t) (hu : u * u < t * t) :
    product.cones.isInterior #[x, t, u] = true := by
  simp [product, Composite.isInterior, Composite.pieces, Block.numel, Block.isInterior,
    Orthant.isInterior, Orthant.numel, SecondOrder.isInterior, SecondOrder.residual,
    SecondOrder.sumsq, SecondOrder.numel, Vec.inner, hx, ht, hu]

omit [Machine] in
theorem WorkingCopy.linearIndependent_product : LinearIndependent ℝ product.A.toMatrix.row := by
  refine Fintype.linearIndependent_iff.mpr fun g hg => ?_
  have hsum (j : Fin product.A.ncols) : ∑ i : Fin 2, g i * product.A.get i j = 0 := by
    have hentry := congrFun hg j
    rw [Finset.sum_apply] at hentry
    exact hentry
  have hfirst : product.A.column 0 = [(0, 1)] := by cbv
  have hlast : product.A.column 2 = [(1, 1)] := by cbv
  have hzero := hsum (0 : Fin 3)
  have hone := hsum (2 : Fin 3)
  simp [Fin.sum_univ_two, Csc.get, hfirst, hlast, coefficient] at hzero hone
  exact Fin.forall_fin_two.mpr ⟨hzero, hone⟩

/-! ## The result -/

/-- At an interior point of a program with linearly independent rows, the denominator
can be computed.  It is at least `κ/τ`, which is positive.  A direction can only fail
to be computed for a denominator that is too small, and then `κ/τ` is too small. -/
theorem ScaledPoint.exists_denominator {W : WorkingCopy ℝ} (hW : W.WellFormed)
    {settings : Settings ℝ} (hsettings : settings.Unregularized)
    (hrows : LinearIndependent ℝ W.A.toMatrix.row) {K : Composite ℝ} {S : FactoredSchur ℝ}
    (hin : InUse W settings K S) {p : Point ℝ} (hp : p.Fits W) (hinterior : p.Interior W.cones) :
    ∃ P, compute W settings K S p = .ok P ∧
      P.denominator W p =
        p.kappa / p.tau + euclidean (coords W.A.ncols (P.pulled W)) ^ 2 ∧
      p.kappa / p.tau ≤ P.denominator W p ∧ 0 < p.kappa / p.tau ∧
      ∀ r e, Direction.solve W settings p P r = .error e →
        e = .singularDenominator (P.denominator W p) ∧
          p.kappa / p.tau ≤ Machine.epsilon * Machine.epsilon := by
  obtain ⟨P, hcompute⟩ := exists_compute hW hsettings hin hp hinterior hrows
  obtain ⟨hshape, hready⟩ := hin.ready hW hsettings
  have hexact := (computed_of_compute hcompute).exact hW hsettings hp hshape hready
  have hden := hexact.denominator_eq hW
  have hle : p.kappa / p.tau ≤ P.denominator W p :=
    hden.ge.trans' (le_add_of_nonneg_right (sq_nonneg _))
  refine ⟨P, hcompute, hden, hle, div_pos hinterior.kappa hinterior.tau, fun r e he => ?_⟩
  obtain ⟨he, hsmall⟩ := Direction.denominator_le_of_solve he
  exact ⟨he, hle.trans hsmall⟩

omit [Machine] in
/-- An interior point of a product of cones, where the scaling is not the identity. -/
theorem ScaledPoint.exists_denominator_product : letI := Machine.double
    let W := WorkingCopy.product
    let p : Point ℝ := ⟨#[4, 17, 15], #[0, 0], #[1, 2, 0], 1, 1⟩
    W.WellFormed ∧ Settings.exact.Unregularized ∧ LinearIndependent ℝ W.A.toMatrix.row ∧
      p.Fits W ∧ p.Interior W.cones ∧
      ∃ P, compute W Settings.exact W.cones (.new W.A W.cones) p = .ok P ∧
        P.denominator W p =
          p.kappa / p.tau + euclidean (coords W.A.ncols (P.pulled W)) ^ 2 ∧
        p.kappa / p.tau ≤ P.denominator W p ∧ 0 < p.kappa / p.tau ∧
        ∀ r e, Direction.solve W Settings.exact p P r = .error e →
          e = .singularDenominator (P.denominator W p) ∧
            p.kappa / p.tau ≤ Machine.epsilon * Machine.epsilon := by
  let _ := Machine.double
  intro W p
  have hfits : p.Fits W := ⟨rfl, rfl, rfl⟩
  have hx : W.cones.isInterior p.x = true :=
    WorkingCopy.isInterior_product four_pos (by norm_num) (by norm_num)
  have hs : W.cones.isInterior p.s = true :=
    WorkingCopy.isInterior_product one_pos two_pos (by norm_num)
  have hinterior : p.Interior W.cones := ⟨hx, hs, one_pos, one_pos⟩
  exact ⟨WorkingCopy.wellFormed_product, Settings.unregularized_exact,
    WorkingCopy.linearIndependent_product, hfits, hinterior,
    exists_denominator WorkingCopy.wellFormed_product Settings.unregularized_exact
      WorkingCopy.linearIndependent_product .first hfits hinterior⟩

end Conic
