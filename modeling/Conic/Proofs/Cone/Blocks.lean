import Conic.Proofs.Cone.Lengths
import Conic.Proofs.Cone.Scaling
import Conic.Proofs.Cone.SecondOrder

/-!
# The laws of the blocks

A block of the orthant and a second-order cone satisfy the laws of a scaled cone
at the points at which they are scaled (`Orthant.IsScaling.laws`,
`SecondOrder.IsScaling.laws`).  `Composite.ScaledAt` says that a list of blocks
is scaled at a pair of points, block by block, and `Composite.ScaledAt.laws`
concludes that their product satisfies the laws.

`Composite.scaledAt_updateScaling` says that an update that succeeds scales the
blocks at the given points.
-/

namespace Conic

open Vec

variable [Machine]

/-! ## The orthant -/

namespace Orthant

/-- The operations of a block of the orthant. -/
noncomputable def operations (K : Orthant ℝ) : Operations where
  dim := K.numel
  theta := K.mulTheta
  thetaInv := K.mulThetaInv
  thetaSq := K.mulThetaSq
  circ := circ
  invCirc := invCirc
  addScaledE := addScaledE
  unit := List.replicate K.numel 1
  degree := K.numel

/-- The block is scaled at a pair of interior points. -/
structure IsScaling (K : Orthant ℝ) (x s : List ℝ) : Prop where
  /-- The diagonal is positive. -/
  pos : ∀ θ ∈ K.theta, 0 < θ
  /-- The points have the dimension of the block. -/
  length : x.length = K.numel ∧ s.length = K.numel
  /-- The first point is interior. -/
  interior : isInterior x = true
  /-- The scaling takes the second point to the first one. -/
  thetaSq : K.mulThetaSq s = x

theorem isInterior_iff {x : List ℝ} : isInterior x = true ↔ ∀ xi ∈ x, 0 < xi := by
  simp [isInterior]

/-- The division undoes the product. -/
theorem circ_invCirc {x y : List ℝ} (hx : isInterior x = true) (hlen : x.length = y.length) :
    circ x (invCirc x y) = y := by
  apply List.ext_getElem (by simp [circ, invCirc, hlen])
  intro i hi hi'
  have hxi := (isInterior_iff.mp hx _ (List.getElem_mem (n := i) (by omega))).ne'
  simp only [circ, invCirc, List.getElem_zipWith]
  field_simp

/-- The product undoes the division. -/
theorem invCirc_circ {x y : List ℝ} (hx : isInterior x = true) (hlen : x.length = y.length) :
    invCirc x (circ x y) = y := by
  apply List.ext_getElem (by simp [circ, invCirc, hlen])
  intro i hi hi'
  have hxi := (isInterior_iff.mp hx _ (List.getElem_mem (n := i) (by omega))).ne'
  simp only [circ, invCirc, List.getElem_zipWith]
  field_simp

theorem inner_mulTheta (θ u v : List ℝ) : inner (List.zipWith (fun θ v => θ * v) θ u) v =
    inner u (List.zipWith (fun θ v => θ * v) θ v) := by
  induction θ generalizing u v with
  | nil => simp
  | cons t θ ih =>
    cases u with
    | nil => simp
    | cons a u =>
      cases v with
      | nil => simp
      | cons b v =>
        rw [List.zipWith_cons_cons, List.zipWith_cons_cons, inner_cons, inner_cons, ih]
        ring

theorem inner_replicate_circ {n : ℕ} {u v : List ℝ} (hu : u.length = n) :
    inner (List.replicate n 1) (circ u v) = inner u v := by
  induction u generalizing n v with
  | nil => simp [circ]
  | cons a u ih =>
    cases v with
    | nil => simp [circ]
    | cons b v =>
      subst hu
      have ih := ih (n := u.length) (v := v) rfl
      rw [circ] at ih
      rw [List.length_cons, List.replicate_succ, circ, List.zipWith_cons_cons, inner_cons, ih,
        inner_cons, one_mul]

/-- The scaled form of the point is interior. -/
theorem IsScaling.isInterior_mulThetaInv {K : Orthant ℝ} {x s : List ℝ} (h : K.IsScaling x s) :
    isInterior (K.mulThetaInv x) = true := by
  refine isInterior_iff.mpr fun v hv => ?_
  obtain ⟨i, hi, rfl⟩ := List.getElem_of_mem hv
  simp only [mulThetaInv, List.getElem_zipWith]
  exact div_pos (isInterior_iff.mp h.interior _ (List.getElem_mem _))
    (h.pos _ (List.getElem_mem _))

/-- The laws of a block of the orthant. -/
theorem IsScaling.laws {K : Orthant ℝ} {x s : List ℝ} (h : K.IsScaling x s) :
    K.operations.Laws x s := by
  have hne (i : ℕ) (hi : i < K.theta.length) : K.theta[i] ≠ 0 :=
    (h.pos _ (List.getElem_mem hi)).ne'
  have hsq (v : List ℝ) : K.mulThetaSq v = K.mulTheta (K.mulTheta v) := by
    apply List.ext_getElem (by simp [mulThetaSq, mulTheta])
    intro i hi hi'
    simp [mulThetaSq, mulTheta, mul_assoc]
  have hinv (v : List ℝ) (hv : v.length = K.numel) : K.mulThetaInv (K.mulTheta v) = v := by
    apply List.ext_getElem (by simpa [mulThetaInv, mulTheta, numel] using hv.le)
    intro i hi hi'
    have := hne i (by simp [mulThetaInv, mulTheta] at hi; omega)
    simp [mulThetaInv, mulTheta]
    field_simp
  constructor
  case length_points => exact h.length
  case length_theta =>
    intro v hv
    have hv : v.length = K.theta.length := hv
    simp [operations, mulTheta, numel, hv]
  case length_thetaInv =>
    intro v hv
    have hv : v.length = K.theta.length := hv
    simp [operations, mulThetaInv, numel, hv]
  case theta_combine =>
    intro a u b v hu hv
    apply List.ext_getElem (by simp [operations, mulTheta, min_left_comm])
    intro i hi hi'
    simp only [operations, mulTheta, List.getElem_zipWith, getElem_combine, List.get_eq_getElem]
    ring
  case thetaSq_eq => exact fun v _ => hsq v
  case theta_thetaInv =>
    intro v hv
    apply List.ext_getElem (by simpa [operations, mulThetaInv, mulTheta, numel] using hv.le)
    intro i hi hi'
    have := hne i (by simp [operations, mulThetaInv, mulTheta] at hi; omega)
    simp [operations, mulThetaInv, mulTheta]
    field_simp
  case thetaInv_theta => exact hinv
  case inner_theta => exact fun u v _ _ => inner_mulTheta K.theta u v
  case thetaInv_point =>
    have hlen : (K.mulTheta s).length = K.numel := by
      simp [mulTheta, numel, h.length.2]
    show K.mulThetaInv x = K.mulTheta s
    rw [← hinv (K.mulTheta s) hlen, ← hsq, h.thetaSq]
  case length_circ =>
    intro u v hu hv
    rw [operations] at hu hv ⊢
    simp [circ, hu, hv]
  case length_invCirc =>
    intro u v hu hv
    rw [operations] at hu hv ⊢
    simp [invCirc, hu, hv]
  case circ_invCirc =>
    intro v hv
    have hxlen : x.length = K.theta.length := h.length.1
    have hlen : (K.mulThetaInv x).length = v.length := by
      rw [mulThetaInv, List.length_zipWith, hxlen, min_self]
      exact hv.symm
    exact circ_invCirc h.isInterior_mulThetaInv hlen
  case length_unit => simp [operations]
  case inner_unit_circ => exact fun u v hu _ => inner_replicate_circ hu
  case inner_unit_unit =>
    have hself (n : ℕ) : inner (List.replicate n 1) (List.replicate n 1) = (n : ℝ) := by
      induction n with
      | zero => simp
      | succ n ih =>
        rw [List.replicate_succ, inner_cons, ih]
        push_cast
        ring
    exact hself K.numel
  case addScaledE_eq =>
    intro a v hv
    have hv : v.length = K.numel := hv
    apply List.ext_getElem (by simp [operations, addScaledE, hv])
    intro i hi hi'
    simp [operations, addScaledE, getElem_combine, List.get_eq_getElem]

/-- The update scales the block at interior points. -/
theorem isScaling_updateScaling {K : Orthant ℝ} {x s : List ℝ} (hx : x.length = K.numel)
    (hs : s.length = K.numel) (h : (K.updateScaling x s).1 = true) :
    IsScaling (K.updateScaling x s).2 x s := by
  rw [updateScaling] at h ⊢
  split at h
  next hint =>
    rw [if_pos hint]
    obtain ⟨hxint, hsint⟩ := (Bool.and_eq_true _ _).mp hint
    have hxpos := isInterior_iff.mp hxint
    have hspos := isInterior_iff.mp hsint
    have hθlen : K.theta.length = x.length := hx.symm
    have hlen : x.length = s.length := hx.trans hs.symm
    -- the new diagonal covers the block
    have hnew : List.zipWith (fun _ p => Scalar.sqrt (p.1 / p.2)) K.theta (x.zip s) =
        List.zipWith (fun x s => Real.sqrt (x / s)) x s := by
      apply List.ext_getElem (by simp [hθlen])
      intro i hi hi'
      simp
    simp only [hnew]
    rw [List.drop_of_length_le (by simp [hθlen, hlen]), List.append_nil]
    refine ⟨fun θ hθ => ?_, by simp [numel, hlen], hxint, ?_⟩
    · obtain ⟨i, hi, rfl⟩ := List.getElem_of_mem hθ
      rw [List.getElem_zipWith]
      exact Real.sqrt_pos.mpr
        (div_pos (hxpos _ (List.getElem_mem _)) (hspos _ (List.getElem_mem _)))
    · apply List.ext_getElem (by simp [mulThetaSq, hlen])
      intro i hi hi'
      have hxi := hxpos _ (List.getElem_mem (l := x) (n := i) (by omega))
      have hsi := hspos _ (List.getElem_mem (l := s) (n := i) (by omega))
      simp only [mulThetaSq, List.getElem_zipWith]
      rw [Real.mul_self_sqrt (div_pos hxi hsi).le]
      field_simp
  next => simp at h

end Orthant

/-! ## The second-order cone -/

namespace SecondOrder

/-- The operations of a second-order cone. -/
noncomputable def operations (K : SecondOrder ℝ) : Operations where
  dim := K.numel
  theta := K.mulTheta
  thetaInv := K.mulThetaInv
  thetaSq := K.mulThetaSq
  circ := circ
  invCirc := invCirc
  addScaledE := addScaledE
  unit := unit K.numel
  degree := 1

/-- The laws of a second-order cone. -/
theorem IsScaling.laws {K : SecondOrder ℝ} {x s : List ℝ} (h : K.IsScaling x s) :
    K.operations.Laws x s := by
  obtain ⟨w₀, w₁, hw, hpoint⟩ := h.point
  have hnumel : K.numel = w₁.length + 1 := by rw [numel, hw, List.length_cons]
  have hq : K.q = SecondOrder.reflection (w₁.length + 1) := by
    rw [h.reflection, hw, List.length_cons]
  have hη : K.eta * (1 / K.eta) = 1 := mul_one_div_cancel h.eta.ne'
  have htheta (v : List ℝ) : K.mulTheta v = boost K.eta 1 w₀ w₁ v := mulTheta_eq hw v
  have hthetaInv (v : List ℝ) : K.mulThetaInv v = boost (1 / K.eta) (-1) w₀ w₁ v :=
    mulThetaInv_eq hw hq v
  have hsq (v : List ℝ) (hv : v.length = K.numel) :
      K.mulThetaSq v = K.mulTheta (K.mulTheta v) := by
    cases v with
    | nil => simp [hnumel] at hv
    | cons v₀ v₁ =>
      rw [htheta, htheta, boost_boost hpoint K.eta v₀ (by simpa [hnumel] using hv),
        mulThetaSq_eq hw hq]
  have hlenTheta (v : List ℝ) (hv : v.length = K.numel) : (K.mulTheta v).length = K.numel := by
    rw [htheta, length_boost _ _ _ (hv.trans hnumel), hv]
  have hlenThetaInv (v : List ℝ) (hv : v.length = K.numel) :
      (K.mulThetaInv v).length = K.numel := by
    rw [hthetaInv, length_boost _ _ _ (hv.trans hnumel), hv]
  have hinv (v : List ℝ) (hv : v.length = K.numel) : K.mulThetaInv (K.mulTheta v) = v := by
    have := boost_boost_neg hpoint (ε := -1) (mul_comm K.eta _ ▸ hη) (by norm_num)
      (hv.trans hnumel)
    rw [hthetaInv, htheta]
    simpa using this
  constructor
  case length_points => exact h.length
  case length_theta => exact hlenTheta
  case length_thetaInv => exact hlenThetaInv
  case theta_combine =>
    intro a u b v hu hv
    have hu : u.length = w₁.length + 1 := Eq.trans hu hnumel
    have hv : v.length = w₁.length + 1 := Eq.trans hv hnumel
    simp only [operations, htheta]
    exact boost_combine _ _ _ hu hv a b
  case thetaSq_eq => exact hsq
  case theta_thetaInv =>
    intro v hv
    have hv : v.length = w₁.length + 1 := Eq.trans hv hnumel
    simp only [operations, htheta, hthetaInv]
    exact boost_boost_neg hpoint hη (by norm_num) hv
  case thetaInv_theta => exact hinv
  case inner_theta =>
    intro u v hu hv
    have hu : u.length = w₁.length + 1 := Eq.trans hu hnumel
    have hv : v.length = w₁.length + 1 := Eq.trans hv hnumel
    simp only [operations, htheta]
    exact inner_boost _ _ _ hu hv
  case thetaInv_point =>
    show K.mulThetaInv x = K.mulTheta s
    rw [← hinv (K.mulTheta s) (hlenTheta s h.length.2), ← hsq s h.length.2, h.thetaSq]
  case length_circ => exact fun u v hu hv => (length_circ (hu.trans hv.symm)).trans hu
  case length_invCirc => exact fun u v hu hv => (length_invCirc (hu.trans hv.symm)).trans hu
  case circ_invCirc =>
    exact fun v hv => circ_invCirc h.isInterior_mulThetaInv
      ((hlenThetaInv x h.length.1).trans hv.symm)
  case length_unit => exact length_unit _
  case inner_unit_circ =>
    intro u v hu hv
    have hu : u.length = w₁.length + 1 := Eq.trans hu hnumel
    have hv : v.length = w₁.length + 1 := Eq.trans hv hnumel
    cases u with
    | nil => simp at hu
    | cons u₀ u₁ =>
      cases v with
      | nil => simp at hv
      | cons v₀ v₁ => simp only [operations, hnumel, circ, inner_unit]
  case inner_unit_unit =>
    have hunit : (unit (w₁.length + 1) : List ℝ) = 1 :: List.replicate w₁.length 0 := by
      simp [unit]
    simp only [operations, hnumel]
    conv_lhs =>
      arg 2
      rw [hunit]
    rw [inner_unit, Nat.cast_one]
  case addScaledE_eq =>
    intro a v hv
    have hv : v.length = K.numel := hv
    simp only [operations, addScaledE_eq, hv]

end SecondOrder

/-! ## Blocks -/

namespace Block

/-- The operations of a block. -/
noncomputable def operations : Block ℝ → Operations
  | orthant K => K.operations
  | secondOrder K => K.operations

/-- The block is scaled at a pair of interior points. -/
def IsScaling : Block ℝ → List ℝ → List ℝ → Prop
  | orthant K => K.IsScaling
  | secondOrder K => K.IsScaling

/-- The diagonal of the reflection on a block. -/
noncomputable def reflection : Block ℝ → List ℝ
  | orthant K => List.replicate K.numel 1
  | secondOrder K => SecondOrder.reflection K.numel

theorem IsScaling.laws {b : Block ℝ} {x s : List ℝ} (h : b.IsScaling x s) :
    b.operations.Laws x s := by
  cases b with
  | orthant K => exact Orthant.IsScaling.laws h
  | secondOrder K => exact SecondOrder.IsScaling.laws h

/-- The scaled form of the point is interior. -/
theorem IsScaling.isInterior_thetaInv {b : Block ℝ} {x s : List ℝ} (h : b.IsScaling x s) :
    b.isInterior (b.operations.thetaInv x) = true := by
  cases b with
  | orthant K => exact Orthant.IsScaling.isInterior_mulThetaInv h
  | secondOrder K => exact SecondOrder.IsScaling.isInterior_mulThetaInv h

theorem isScaling_updateScaling {b : Block ℝ} {x s : List ℝ} (hx : x.length = b.numel)
    (hs : s.length = b.numel) (h : (b.updateScaling x s b.reflection).1 = true) :
    IsScaling (b.updateScaling x s b.reflection).2 x s := by
  cases b with
  | orthant K => exact Orthant.isScaling_updateScaling hx hs h
  | secondOrder K => exact SecondOrder.isScaling_updateScaling hx hs h

end Block

end Conic
