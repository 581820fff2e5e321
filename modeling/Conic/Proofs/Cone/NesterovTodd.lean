import Conic.Proofs.Cone.Boundary
import Conic.Proofs.Cone.Points

/-!
# The scaling of Nesterov and Todd

The cone computes three products, with `Θ`, with `Θ⁻¹` and with `Θ²`, each by a
formula of its own.  `Composite.NesterovTodd` says that they are products with one
symmetric operator and that this operator scales a pair of points: `Θ²` takes the
second point to the first one, and both have the same scaled form, which is again
interior.

An update at interior points never fails, and it scales the cone at these points.
-/

namespace Conic

open Vec

variable [Machine]

namespace Composite

/-- The products are those of a symmetric operator that scales the cone at a pair of points. -/
structure NesterovTodd (K : Composite ℝ) (x s : Array ℝ) : Prop where
  /-- The products keep the dimension. -/
  size : ∀ v, v.size = K.numel →
    (K.mulTheta v).size = K.numel ∧ (K.mulThetaInv v).size = K.numel ∧
      (K.mulThetaSq v).size = K.numel
  /-- `Θ²` takes the second point to the first one. -/
  mulThetaSq_point : K.mulThetaSq s = x
  /-- The two points have one scaled form. -/
  mulThetaInv_point : K.mulThetaInv x = K.mulTheta s
  /-- The scaled form is interior. -/
  interior : K.isInterior (K.mulThetaInv x) = true
  mulTheta_mulThetaInv : ∀ v, v.size = K.numel → K.mulTheta (K.mulThetaInv v) = v
  mulThetaInv_mulTheta : ∀ v, v.size = K.numel → K.mulThetaInv (K.mulTheta v) = v
  mulTheta_mulTheta : ∀ v, v.size = K.numel → K.mulTheta (K.mulTheta v) = K.mulThetaSq v
  /-- `Θ` is symmetric. -/
  dot_mulTheta : ∀ u v, u.size = K.numel → v.size = K.numel →
    dot (K.mulTheta u) v = dot u (K.mulTheta v)

/-- A cone that is scaled block by block is scaled as a whole. -/
theorem ScaledAt.nesterovTodd {K : Composite ℝ} {x s : Array ℝ}
    (h : ScaledAt K.blocks x.toList s.toList) : K.NesterovTodd x s := by
  have hscaled : K.Scaled K.numel x s := ⟨rfl, h.laws⟩
  have hlaws := hscaled.laws
  constructor
  case size =>
    intro v hv
    exact ⟨(hscaled.coords_mulTheta hv).1, (hscaled.coords_mulThetaInv hv).1,
      (hscaled.coords_mulThetaSq hv).1⟩
  case mulThetaSq_point =>
    rw [← Array.toList_inj, toList_mulThetaSq]
    exact hlaws.thetaSq_point
  case mulThetaInv_point => exact hscaled.mulThetaInv_point
  case interior => exact isInterior_mulThetaInv h
  case mulTheta_mulThetaInv =>
    intro v hv
    rw [← Array.toList_inj, toList_mulTheta, toList_mulThetaInv]
    exact hlaws.theta_thetaInv _ (hscaled.length_toList hv)
  case mulThetaInv_mulTheta =>
    intro v hv
    rw [← Array.toList_inj, toList_mulThetaInv, toList_mulTheta]
    exact hlaws.thetaInv_theta _ (hscaled.length_toList hv)
  case mulTheta_mulTheta =>
    intro v hv
    rw [← Array.toList_inj, toList_mulTheta, toList_mulTheta, toList_mulThetaSq]
    exact (hlaws.thetaSq_eq _ (hscaled.length_toList hv)).symm
  case dot_mulTheta =>
    intro u v hu hv
    rw [dot, dot, toList_mulTheta, toList_mulTheta]
    exact hlaws.inner_theta _ _ (hscaled.length_toList hu) (hscaled.length_toList hv)

/-- An update at interior points succeeds.  It keeps the shape of the cone and scales it at
the points. -/
theorem exists_updateScaling {K : Composite ℝ} {x s : Array ℝ} (hx : x.size = K.numel)
    (hs : s.size = K.numel) (hxint : K.isInterior x = true) (hsint : K.isInterior s = true) :
    ∃ K', K.updateScaling? x s K.reflection = some (true, K') ∧ K'.shape = K.shape ∧
      K'.numel = K.numel ∧ K'.NesterovTodd x s := by
  have hok := updateScaling_fst hxint hsint K.reflection
  have hshape := shape_updateScaling hx hs hok
  refine ⟨(K.updateScaling x s K.reflection).2, ?_, hshape, numel_eq_of_shape hshape,
    (scaledAt_updateScaling hx hs hok).nesterovTodd⟩
  rw [← hok]
  exact if_pos (by simp [hx, hs, size_reflection])

omit [Machine] in
/-- A product of an orthant and a second-order cone, scaled at a pair of points. -/
theorem exists_updateScaling_mixed : letI := Machine.double
    let K : Composite ℝ := ⟨[.orthant (.ofDim 1), .secondOrder (.ofDim 2)]⟩
    let K' : Composite ℝ := ⟨[.orthant ⟨[2]⟩, .secondOrder ⟨[5 / 4, 3 / 4], 2, [1, -1]⟩]⟩
    let x : Array ℝ := #[4, 17, 15]
    let s : Array ℝ := #[1, 2, 0]
    (ofDims 1 [2] = .ok K ∧ x.size = K.numel ∧ s.size = K.numel ∧ K.isInterior x = true ∧
      K.isInterior s = true) ∧
    K.updateScaling? x s K.reflection = some (true, K') ∧ K'.NesterovTodd x s ∧
      K'.mulThetaInv x = #[2, 5, 3] := by
  let _ := Machine.double
  intro K K' x s
  have hsqrt {a b : ℝ} (hb : 0 ≤ b) (h : a = b * b) : Real.sqrt a = b := by
    rw [h, Real.sqrt_mul_self hb]
  have hxint : K.isInterior x = true := by
    norm_num [K, x, isInterior, pieces, Block.numel, Block.isInterior, Orthant.isInterior,
      SecondOrder.isInterior, SecondOrder.residual, SecondOrder.sumsq]
  have hsint : K.isInterior s = true := by
    norm_num [K, s, isInterior, pieces, Block.numel, Block.isInterior, Orthant.isInterior,
      SecondOrder.isInterior, SecondOrder.residual, SecondOrder.sumsq]
  have horthant : (Orthant.ofDim 1).updateScaling [4] [1] = (true, ⟨[(2 : ℝ)]⟩) := by
    have hroot : Real.sqrt 4 = 2 := hsqrt zero_le_two (by norm_num)
    simp [Orthant.updateScaling, Orthant.isInterior, Orthant.ofDim, hroot]
  have hsecondOrder : (SecondOrder.ofDim 2).updateScaling [17, 15] [2, 0] [1, -1] =
      (true, ⟨[5 / 4, 3 / 4], 2, [1, (-1 : ℝ)]⟩) := by
    have hfirst : Real.sqrt 64 = 8 := hsqrt (by norm_num) (by norm_num)
    have hsecond : Real.sqrt 4 = 2 := hsqrt zero_le_two (by norm_num)
    have hfactor : Real.sqrt (25 / 16) = 5 / 4 := hsqrt (by norm_num) (by norm_num)
    norm_num [SecondOrder.updateScaling, SecondOrder.isInterior, SecondOrder.residual,
      SecondOrder.sumsq, hfirst, hsecond, hfactor]
  have hupdate : K.updateScaling? x s K.reflection = some (true, K') := by
    have hresult : K.updateScaling x s K.reflection = (true, K') := by
      have hrest : updates [] [] [] [] = [] := rfl
      rw [updateScaling_eq]
      simp [K, K', x, s, toList_reflection, Block.reflection, SecondOrder.reflection, updates_cons,
        Block.numel, Block.updateScaling, horthant, hsecondOrder, hrest]
    rw [updateScaling?, hresult]
    exact if_pos (by simp [size_reflection, K, x, s, numel, Block.numel])
  obtain ⟨_, hsome, -, -, hscaled⟩ := exists_updateScaling (K := K) (x := x) (s := s) rfl rfl
    hxint hsint
  obtain rfl := (Prod.mk.inj (Option.some.inj (hupdate.symm.trans hsome))).2
  refine ⟨⟨rfl, rfl, rfl, hxint, hsint⟩, hupdate, hscaled, ?_⟩
  rw [hscaled.mulThetaInv_point]
  norm_num [K', s, mulTheta, eachBlock, pieces, Block.numel, Block.mulTheta, Orthant.mulTheta,
    Orthant.numel, SecondOrder.numel, SecondOrder.mulTheta]

end Composite

end Conic
