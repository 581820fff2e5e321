import Conic.Proofs.Exact.Vectors

/-!
# The laws of a scaled cone

`Operations` are the operations of a scaled cone on lists, and
`Operations.Laws` says what they satisfy when the cone is scaled at a pair of
points `(x, s)`: `Θ` is linear, symmetric and invertible, `Θ⁻¹x` is `Θs`, and the
Jordan product can be undone there.

The operations of a product of two cones work on the two parts of a list, and
the laws of the parts are the laws of the product (`Operations.Laws.prod`).  So
the laws of a product of any number of cones follow from those of its blocks.
-/

namespace Conic

open Vec

/-- The operations of a scaled cone. -/
structure Operations where
  /-- The number of coordinates. -/
  dim : ℕ
  /-- `Θv`. -/
  theta : List ℝ → List ℝ
  /-- `Θ⁻¹v`. -/
  thetaInv : List ℝ → List ℝ
  /-- `Θ²v`. -/
  thetaSq : List ℝ → List ℝ
  /-- The Jordan product. -/
  circ : List ℝ → List ℝ → List ℝ
  /-- The division that undoes the product. -/
  invCirc : List ℝ → List ℝ → List ℝ
  /-- `v + a * e`. -/
  addScaledE : ℝ → List ℝ → List ℝ
  /-- The identity. -/
  unit : List ℝ
  /-- The degree of the barrier. -/
  degree : ℕ

namespace Operations

/-- The operations of the product of two cones. -/
def prod (o₁ o₂ : Operations) : Operations where
  dim := o₁.dim + o₂.dim
  theta v := o₁.theta (v.take o₁.dim) ++ o₂.theta (v.drop o₁.dim)
  thetaInv v := o₁.thetaInv (v.take o₁.dim) ++ o₂.thetaInv (v.drop o₁.dim)
  thetaSq v := o₁.thetaSq (v.take o₁.dim) ++ o₂.thetaSq (v.drop o₁.dim)
  circ u v := o₁.circ (u.take o₁.dim) (v.take o₁.dim) ++ o₂.circ (u.drop o₁.dim) (v.drop o₁.dim)
  invCirc u v :=
    o₁.invCirc (u.take o₁.dim) (v.take o₁.dim) ++ o₂.invCirc (u.drop o₁.dim) (v.drop o₁.dim)
  addScaledE a v := o₁.addScaledE a (v.take o₁.dim) ++ o₂.addScaledE a (v.drop o₁.dim)
  unit := o₁.unit ++ o₂.unit
  degree := o₁.degree + o₂.degree

section

variable {o₁ o₂ : Operations} {u₁ v₁ u₂ v₂ : List ℝ}

theorem exists_append {v : List ℝ} (h : v.length = (o₁.prod o₂).dim) :
    ∃ v₁ v₂, v = v₁ ++ v₂ ∧ v₁.length = o₁.dim ∧ v₂.length = o₂.dim := by
  have h : v.length = o₁.dim + o₂.dim := h
  exact ⟨v.take o₁.dim, v.drop o₁.dim, (List.take_append_drop _ _).symm, by simp [h], by simp [h]⟩

theorem prod_theta (hv : v₁.length = o₁.dim) :
    (o₁.prod o₂).theta (v₁ ++ v₂) = o₁.theta v₁ ++ o₂.theta v₂ := by
  simp only [prod, List.take_left' hv, List.drop_left' hv]

theorem prod_thetaInv (hv : v₁.length = o₁.dim) :
    (o₁.prod o₂).thetaInv (v₁ ++ v₂) = o₁.thetaInv v₁ ++ o₂.thetaInv v₂ := by
  simp only [prod, List.take_left' hv, List.drop_left' hv]

theorem prod_thetaSq (hv : v₁.length = o₁.dim) :
    (o₁.prod o₂).thetaSq (v₁ ++ v₂) = o₁.thetaSq v₁ ++ o₂.thetaSq v₂ := by
  simp only [prod, List.take_left' hv, List.drop_left' hv]

theorem prod_addScaledE (a : ℝ) (hv : v₁.length = o₁.dim) :
    (o₁.prod o₂).addScaledE a (v₁ ++ v₂) = o₁.addScaledE a v₁ ++ o₂.addScaledE a v₂ := by
  simp only [prod, List.take_left' hv, List.drop_left' hv]

theorem prod_circ (hu : u₁.length = o₁.dim) (hv : v₁.length = o₁.dim) :
    (o₁.prod o₂).circ (u₁ ++ u₂) (v₁ ++ v₂) = o₁.circ u₁ v₁ ++ o₂.circ u₂ v₂ := by
  simp only [prod, List.take_left' hu, List.drop_left' hu, List.take_left' hv, List.drop_left' hv]

theorem prod_invCirc (hu : u₁.length = o₁.dim) (hv : v₁.length = o₁.dim) :
    (o₁.prod o₂).invCirc (u₁ ++ u₂) (v₁ ++ v₂) = o₁.invCirc u₁ v₁ ++ o₂.invCirc u₂ v₂ := by
  simp only [prod, List.take_left' hu, List.drop_left' hu, List.take_left' hv, List.drop_left' hv]

end

/-- The operations of the cone without coordinates. -/
def trivial : Operations where
  dim := 0
  theta _ := []
  thetaInv _ := []
  thetaSq _ := []
  circ _ _ := []
  invCirc _ _ := []
  addScaledE _ _ := []
  unit := []
  degree := 0

variable [Machine]

/-- The operations are those of a cone that is scaled at a pair of points. -/
structure Laws (o : Operations) (x s : List ℝ) : Prop where
  /-- The points have the dimension of the cone. -/
  length_points : x.length = o.dim ∧ s.length = o.dim
  length_theta : ∀ v, v.length = o.dim → (o.theta v).length = o.dim
  length_thetaInv : ∀ v, v.length = o.dim → (o.thetaInv v).length = o.dim
  /-- `Θ` is linear. -/
  theta_combine : ∀ a u b v, u.length = o.dim → v.length = o.dim →
    o.theta (combine a u b v) = combine a (o.theta u) b (o.theta v)
  thetaSq_eq : ∀ v, v.length = o.dim → o.thetaSq v = o.theta (o.theta v)
  theta_thetaInv : ∀ v, v.length = o.dim → o.theta (o.thetaInv v) = v
  thetaInv_theta : ∀ v, v.length = o.dim → o.thetaInv (o.theta v) = v
  /-- `Θ` is symmetric. -/
  inner_theta : ∀ u v, u.length = o.dim → v.length = o.dim →
    inner (o.theta u) v = inner u (o.theta v)
  /-- The two points have one scaled form. -/
  thetaInv_point : o.thetaInv x = o.theta s
  length_circ : ∀ u v, u.length = o.dim → v.length = o.dim → (o.circ u v).length = o.dim
  length_invCirc : ∀ u v, u.length = o.dim → v.length = o.dim → (o.invCirc u v).length = o.dim
  /-- The division by the scaled form of the points undoes the product. -/
  circ_invCirc : ∀ v, v.length = o.dim →
    o.circ (o.thetaInv x) (o.invCirc (o.thetaInv x) v) = v
  length_unit : o.unit.length = o.dim
  /-- The inner product is the product seen from the identity. -/
  inner_unit_circ : ∀ u v, u.length = o.dim → v.length = o.dim →
    inner o.unit (o.circ u v) = inner u v
  inner_unit_unit : inner o.unit o.unit = o.degree
  addScaledE_eq : ∀ a v, v.length = o.dim → o.addScaledE a v = combine 1 v a o.unit

theorem laws_trivial : trivial.Laws [] [] := by
  have hnil (v : List ℝ) (h : v.length = trivial.dim) : v = [] := List.length_eq_zero_iff.mp h
  constructor
  case theta_thetaInv => exact fun v hv => (hnil v hv).symm
  case thetaInv_theta => exact fun v hv => (hnil v hv).symm
  case circ_invCirc => exact fun v hv => (hnil v hv).symm
  case inner_theta =>
    intro u v hu hv
    rw [hnil u hu, hnil v hv]
    rfl
  case inner_unit_circ =>
    intro u v hu hv
    rw [hnil u hu, hnil v hv]
    rfl
  case addScaledE_eq => exact fun a v hv => by rw [hnil v hv, combine_nil_left]; rfl
  case inner_unit_unit => simp [trivial]
  all_goals simp [trivial]

/-- The laws of a product. -/
theorem Laws.prod {o₁ o₂ : Operations} {x₁ s₁ x₂ s₂ : List ℝ} (h₁ : o₁.Laws x₁ s₁)
    (h₂ : o₂.Laws x₂ s₂) : (o₁.prod o₂).Laws (x₁ ++ x₂) (s₁ ++ s₂) where
  length_points := by
    simp [Operations.prod, h₁.length_points, h₂.length_points]
  length_theta v hv := by
    obtain ⟨v₁, v₂, rfl, hv₁, hv₂⟩ := exists_append hv
    rw [prod_theta hv₁, List.length_append, h₁.length_theta v₁ hv₁, h₂.length_theta v₂ hv₂]
    rfl
  length_thetaInv v hv := by
    obtain ⟨v₁, v₂, rfl, hv₁, hv₂⟩ := exists_append hv
    rw [prod_thetaInv hv₁, List.length_append, h₁.length_thetaInv v₁ hv₁,
      h₂.length_thetaInv v₂ hv₂]
    rfl
  theta_combine a u b v hu hv := by
    obtain ⟨u₁, u₂, rfl, hu₁, hu₂⟩ := exists_append hu
    obtain ⟨v₁, v₂, rfl, hv₁, hv₂⟩ := exists_append hv
    have hlen : (combine a u₁ b v₁).length = o₁.dim := by simp [hu₁, hv₁]
    have htheta : (o₁.theta u₁).length = (o₁.theta v₁).length := by
      rw [h₁.length_theta u₁ hu₁, h₁.length_theta v₁ hv₁]
    rw [combine_append (hu₁.trans hv₁.symm), prod_theta hlen, prod_theta hu₁, prod_theta hv₁,
      combine_append htheta, h₁.theta_combine a u₁ b v₁ hu₁ hv₁, h₂.theta_combine a u₂ b v₂ hu₂ hv₂]
  thetaSq_eq v hv := by
    obtain ⟨v₁, v₂, rfl, hv₁, hv₂⟩ := exists_append hv
    rw [prod_thetaSq hv₁, prod_theta hv₁, prod_theta (h₁.length_theta v₁ hv₁),
      h₁.thetaSq_eq v₁ hv₁, h₂.thetaSq_eq v₂ hv₂]
  theta_thetaInv v hv := by
    obtain ⟨v₁, v₂, rfl, hv₁, hv₂⟩ := exists_append hv
    rw [prod_thetaInv hv₁, prod_theta (h₁.length_thetaInv v₁ hv₁), h₁.theta_thetaInv v₁ hv₁,
      h₂.theta_thetaInv v₂ hv₂]
  thetaInv_theta v hv := by
    obtain ⟨v₁, v₂, rfl, hv₁, hv₂⟩ := exists_append hv
    rw [prod_theta hv₁, prod_thetaInv (h₁.length_theta v₁ hv₁), h₁.thetaInv_theta v₁ hv₁,
      h₂.thetaInv_theta v₂ hv₂]
  inner_theta u v hu hv := by
    obtain ⟨u₁, u₂, rfl, hu₁, hu₂⟩ := exists_append hu
    obtain ⟨v₁, v₂, rfl, hv₁, hv₂⟩ := exists_append hv
    rw [prod_theta hu₁, prod_theta hv₁, inner_append ((h₁.length_theta u₁ hu₁).trans hv₁.symm),
      inner_append (hu₁.trans (h₁.length_theta v₁ hv₁).symm), h₁.inner_theta u₁ v₁ hu₁ hv₁,
      h₂.inner_theta u₂ v₂ hu₂ hv₂]
  thetaInv_point := by
    rw [prod_thetaInv h₁.length_points.1, prod_theta h₁.length_points.2, h₁.thetaInv_point,
      h₂.thetaInv_point]
  length_circ u v hu hv := by
    obtain ⟨u₁, u₂, rfl, hu₁, hu₂⟩ := exists_append hu
    obtain ⟨v₁, v₂, rfl, hv₁, hv₂⟩ := exists_append hv
    rw [prod_circ hu₁ hv₁, List.length_append, h₁.length_circ u₁ v₁ hu₁ hv₁,
      h₂.length_circ u₂ v₂ hu₂ hv₂]
    rfl
  length_invCirc u v hu hv := by
    obtain ⟨u₁, u₂, rfl, hu₁, hu₂⟩ := exists_append hu
    obtain ⟨v₁, v₂, rfl, hv₁, hv₂⟩ := exists_append hv
    rw [prod_invCirc hu₁ hv₁, List.length_append, h₁.length_invCirc u₁ v₁ hu₁ hv₁,
      h₂.length_invCirc u₂ v₂ hu₂ hv₂]
    rfl
  circ_invCirc v hv := by
    obtain ⟨v₁, v₂, rfl, hv₁, hv₂⟩ := exists_append hv
    have hpoint := h₁.length_thetaInv x₁ h₁.length_points.1
    rw [prod_thetaInv h₁.length_points.1, prod_invCirc hpoint hv₁,
      prod_circ hpoint (h₁.length_invCirc _ v₁ hpoint hv₁), h₁.circ_invCirc v₁ hv₁,
      h₂.circ_invCirc v₂ hv₂]
  length_unit := by
    simp [Operations.prod, h₁.length_unit, h₂.length_unit]
  inner_unit_circ u v hu hv := by
    obtain ⟨u₁, u₂, rfl, hu₁, hu₂⟩ := exists_append hu
    obtain ⟨v₁, v₂, rfl, hv₁, hv₂⟩ := exists_append hv
    rw [prod_circ hu₁ hv₁, inner_append (hu₁.trans hv₁.symm)]
    refine (inner_append (h₁.length_unit.trans (h₁.length_circ u₁ v₁ hu₁ hv₁).symm) _ _).trans ?_
    rw [h₁.inner_unit_circ u₁ v₁ hu₁ hv₁, h₂.inner_unit_circ u₂ v₂ hu₂ hv₂]
  inner_unit_unit := by
    refine (inner_append rfl o₂.unit o₂.unit).trans ?_
    rw [h₁.inner_unit_unit, h₂.inner_unit_unit]
    exact (Nat.cast_add _ _).symm
  addScaledE_eq a v hv := by
    obtain ⟨v₁, v₂, rfl, hv₁, hv₂⟩ := exists_append hv
    rw [prod_addScaledE a hv₁, h₁.addScaledE_eq a v₁ hv₁, h₂.addScaledE_eq a v₂ hv₂]
    exact (combine_append (hv₁.trans h₁.length_unit.symm) 1 v₂ a o₂.unit).symm

namespace Laws

variable {o : Operations} {x s : List ℝ} (h : o.Laws x s)

include h

/-- `Θ⁻¹` is linear. -/
theorem thetaInv_combine (a : ℝ) (u : List ℝ) (b : ℝ) (v : List ℝ) (hu : u.length = o.dim)
    (hv : v.length = o.dim) :
    o.thetaInv (combine a u b v) = combine a (o.thetaInv u) b (o.thetaInv v) := by
  have hu' := h.length_thetaInv u hu
  have hv' := h.length_thetaInv v hv
  conv_lhs => rw [← h.theta_thetaInv u hu, ← h.theta_thetaInv v hv,
    ← h.theta_combine a _ b _ hu' hv']
  exact h.thetaInv_theta _ (by simp [hu', hv'])

theorem length_thetaSq (v : List ℝ) (hv : v.length = o.dim) : (o.thetaSq v).length = o.dim := by
  rw [h.thetaSq_eq v hv]
  exact h.length_theta _ (h.length_theta v hv)

/-- `Θ²` is linear. -/
theorem thetaSq_combine (a : ℝ) (u : List ℝ) (b : ℝ) (v : List ℝ) (hu : u.length = o.dim)
    (hv : v.length = o.dim) :
    o.thetaSq (combine a u b v) = combine a (o.thetaSq u) b (o.thetaSq v) := by
  rw [h.thetaSq_eq _ (by simp [hu, hv]), h.theta_combine a u b v hu hv,
    h.theta_combine a _ b _ (h.length_theta u hu) (h.length_theta v hv), h.thetaSq_eq u hu,
    h.thetaSq_eq v hv]

/-- `Θ⁻¹` taken twice undoes `Θ²`. -/
theorem thetaInv_thetaInv_thetaSq (v : List ℝ) (hv : v.length = o.dim) :
    o.thetaInv (o.thetaInv (o.thetaSq v)) = v := by
  rw [h.thetaSq_eq v hv, h.thetaInv_theta _ (h.length_theta v hv), h.thetaInv_theta v hv]

/-- `Θ²` takes the second point to the first one. -/
theorem thetaSq_point : o.thetaSq s = x := by
  rw [h.thetaSq_eq s h.length_points.2, ← h.thetaInv_point, h.theta_thetaInv x h.length_points.1]

/-- `Θ⁻¹` of one vector against `Θ` of another one. -/
theorem inner_thetaInv_theta (u v : List ℝ) (hu : u.length = o.dim) (hv : v.length = o.dim) :
    inner (o.thetaInv u) (o.theta v) = inner u v := by
  rw [← h.inner_theta _ v (h.length_thetaInv u hu) hv, h.theta_thetaInv u hu]

end Laws

end Operations

end Conic
