import Conic.Proofs.Cone.Composite

/-!
# Scaling as a linear map

A scaled cone with `n` coordinates acts on points of `Fin n → ℝ`.  `Θ`, `Θ⁻¹` and
`Θ²` are linear maps there (`Composite.Scaled.theta` and so on), and the
operations on arrays are these maps on the points of the arrays
(`Composite.Scaled.coords_mulTheta` and so on).
-/

namespace Conic

open Vec

/-! ## Lists as points -/

namespace Vec

/-- The list read as a point of dimension `n`. -/
def point (n : ℕ) (v : List ℝ) : Fin n → ℝ := fun i => v.getD i 0

theorem ofFn_point {n : ℕ} {v : List ℝ} (h : v.length = n) : List.ofFn (point n v) = v := by
  apply List.ext_getElem (by simp [h])
  intro i hi hi'
  simp [point, hi']

theorem point_ofFn {n : ℕ} (u : Fin n → ℝ) : point n (List.ofFn u) = u := by
  funext i
  simp [point]

theorem point_combine {n : ℕ} (a : ℝ) {u : List ℝ} (b : ℝ) {v : List ℝ} (hu : u.length = n)
    (hv : v.length = n) : point n (combine a u b v) = a • point n u + b • point n v := by
  funext i
  have hi : (i : ℕ) < (combine a u b v).length := by simp [hu, hv]
  simp [point, List.getD_eq_getElem?_getD, hu, hv, getElem_combine, List.get_eq_getElem]

theorem coords_eq_point (n : ℕ) (v : Array ℝ) : coords n v = point n v.toList := by
  funext i
  simp [coords, point, Array.getD_eq_getD_getElem?, List.getD_eq_getElem?_getD]

/-- An operation on lists of length `n` that is linear, as a linear map. -/
noncomputable def linearMap (n : ℕ) (f : List ℝ → List ℝ)
    (hlen : ∀ v, v.length = n → (f v).length = n)
    (hcombine : ∀ a u b v, u.length = n → v.length = n →
      f (combine a u b v) = combine a (f u) b (f v)) : (Fin n → ℝ) →ₗ[ℝ] (Fin n → ℝ) where
  toFun u := point n (f (List.ofFn u))
  map_add' u v := by
    have hofFn : List.ofFn (u + v) = combine 1 (List.ofFn u) 1 (List.ofFn v) := by
      apply List.ext_getElem (by simp)
      intro i hi hi'
      simp [getElem_combine, List.get_eq_getElem]
    rw [hofFn, hcombine 1 _ 1 _ (by simp) (by simp),
      point_combine 1 1 (hlen _ (by simp)) (hlen _ (by simp)), one_smul, one_smul]
  map_smul' a u := by
    have hofFn : List.ofFn (a • u) = combine a (List.ofFn u) 0 (List.ofFn u) := by
      apply List.ext_getElem (by simp)
      intro i hi hi'
      simp [getElem_combine, List.get_eq_getElem]
    rw [hofFn, hcombine a _ 0 _ (by simp) (by simp),
      point_combine a 0 (hlen _ (by simp)) (hlen _ (by simp)), zero_smul, add_zero]
    rfl

variable [Machine]

theorem inner_eq_dotProduct {n : ℕ} {u : List ℝ} (hu : u.length = n) (v : List ℝ) :
    inner u v = point n u ⬝ᵥ point n v := by
  rw [inner_eq_sum hu.le, Finset.sum_range]
  rfl

end Vec

/-! ## The maps of a scaled cone -/

variable [Machine]

namespace Composite

/-- A cone with `n` coordinates is scaled at a pair of points. -/
structure Scaled (K : Composite ℝ) (n : ℕ) (x s : Array ℝ) : Prop where
  /-- The number of coordinates. -/
  numel : K.numel = n
  /-- The laws at the points. -/
  laws : K.operations.Laws x.toList s.toList

/-- An update that succeeds scales the cone and keeps its shape. -/
theorem scaled_updateScaling {K : Composite ℝ} {n : ℕ} {x s : Array ℝ} (hn : K.numel = n)
    (hx : x.size = n) (hs : s.size = n) (h : (K.updateScaling x s K.reflection).1 = true) :
    (K.updateScaling x s K.reflection).2.shape = K.shape ∧
      ScaledAt (K.updateScaling x s K.reflection).2.blocks x.toList s.toList ∧
      (K.updateScaling x s K.reflection).2.Scaled n x s := by
  have hx := hx.trans hn.symm
  have hs := hs.trans hn.symm
  have hshape := shape_updateScaling hx hs h
  have hscaledAt := scaledAt_updateScaling hx hs h
  exact ⟨hshape, hscaledAt, (numel_eq_of_shape hshape).trans hn, hscaledAt.laws⟩

namespace Scaled

variable {K : Composite ℝ} {n : ℕ} {x s : Array ℝ} (h : K.Scaled n x s)

include h

theorem dim_eq : K.operations.dim = n := K.dim_operations.trans h.numel

/-- The map `Θ`. -/
noncomputable def theta : (Fin n → ℝ) →ₗ[ℝ] (Fin n → ℝ) :=
  linearMap n K.operations.theta (fun v hv => by
    rw [h.laws.length_theta v (hv.trans h.dim_eq.symm), h.dim_eq])
    fun a u b v hu hv => h.laws.theta_combine a u b v (hu.trans h.dim_eq.symm)
      (hv.trans h.dim_eq.symm)

/-- The map `Θ⁻¹`. -/
noncomputable def thetaInv : (Fin n → ℝ) →ₗ[ℝ] (Fin n → ℝ) :=
  linearMap n K.operations.thetaInv (fun v hv => by
    rw [h.laws.length_thetaInv v (hv.trans h.dim_eq.symm), h.dim_eq])
    fun a u b v hu hv => h.laws.thetaInv_combine a u b v (hu.trans h.dim_eq.symm)
      (hv.trans h.dim_eq.symm)

/-- The map `Θ²`. -/
noncomputable def thetaSq : (Fin n → ℝ) →ₗ[ℝ] (Fin n → ℝ) :=
  linearMap n K.operations.thetaSq (fun v hv => by
    rw [h.laws.length_thetaSq v (hv.trans h.dim_eq.symm), h.dim_eq])
    fun a u b v hu hv => h.laws.thetaSq_combine a u b v (hu.trans h.dim_eq.symm)
      (hv.trans h.dim_eq.symm)

theorem length_toList {v : Array ℝ} (hv : v.size = n) : v.toList.length = K.operations.dim := by
  rw [Array.length_toList, hv, h.dim_eq]

/-! ## The operations on arrays -/

theorem coords_mulTheta {v : Array ℝ} (hv : v.size = n) :
    (K.mulTheta v).size = n ∧ coords n (K.mulTheta v) = h.theta (coords n v) := by
  have hlen := h.laws.length_theta _ (h.length_toList hv)
  refine ⟨by rw [← Array.length_toList, toList_mulTheta, hlen, h.dim_eq], ?_⟩
  rw [coords_eq_point, toList_mulTheta, coords_eq_point]
  show _ = point n (K.operations.theta (List.ofFn _))
  rw [ofFn_point (by simpa using hv)]

theorem coords_mulThetaInv {v : Array ℝ} (hv : v.size = n) :
    (K.mulThetaInv v).size = n ∧ coords n (K.mulThetaInv v) = h.thetaInv (coords n v) := by
  have hlen := h.laws.length_thetaInv _ (h.length_toList hv)
  refine ⟨by rw [← Array.length_toList, toList_mulThetaInv, hlen, h.dim_eq], ?_⟩
  rw [coords_eq_point, toList_mulThetaInv, coords_eq_point]
  show _ = point n (K.operations.thetaInv (List.ofFn _))
  rw [ofFn_point (by simpa using hv)]

theorem coords_mulThetaSq {v : Array ℝ} (hv : v.size = n) :
    (K.mulThetaSq v).size = n ∧ coords n (K.mulThetaSq v) = h.thetaSq (coords n v) := by
  have hlen := h.laws.length_thetaSq _ (h.length_toList hv)
  refine ⟨by rw [← Array.length_toList, toList_mulThetaSq, hlen, h.dim_eq], ?_⟩
  rw [coords_eq_point, toList_mulThetaSq, coords_eq_point]
  show _ = point n (K.operations.thetaSq (List.ofFn _))
  rw [ofFn_point (by simpa using hv)]

/-! ## The laws of the maps -/

theorem theta_thetaInv (u : Fin n → ℝ) : h.theta (h.thetaInv u) = u := by
  have hu : (List.ofFn u).length = K.operations.dim := by simp [h.dim_eq]
  show point n (K.operations.theta (List.ofFn (point n (K.operations.thetaInv (List.ofFn u))))) = u
  rw [ofFn_point ((h.laws.length_thetaInv _ hu).trans h.dim_eq), h.laws.theta_thetaInv _ hu,
    point_ofFn]

theorem thetaSq_apply (u : Fin n → ℝ) : h.thetaSq u = h.theta (h.theta u) := by
  have hu : (List.ofFn u).length = K.operations.dim := by simp [h.dim_eq]
  show point n (K.operations.thetaSq (List.ofFn u)) =
    point n (K.operations.theta (List.ofFn (point n (K.operations.theta (List.ofFn u)))))
  rw [ofFn_point ((h.laws.length_theta _ hu).trans h.dim_eq), h.laws.thetaSq_eq _ hu]

/-- `Θ` is symmetric. -/
theorem theta_dotProduct (u v : Fin n → ℝ) : h.theta u ⬝ᵥ v = u ⬝ᵥ h.theta v := by
  have hu : (List.ofFn u).length = K.operations.dim := by simp [h.dim_eq]
  have hv : (List.ofFn v).length = K.operations.dim := by simp [h.dim_eq]
  have hsymm := h.laws.inner_theta _ _ hu hv
  rw [inner_eq_dotProduct ((h.laws.length_theta _ hu).trans h.dim_eq),
    inner_eq_dotProduct (hu.trans h.dim_eq), point_ofFn, point_ofFn] at hsymm
  exact hsymm

theorem thetaInv_thetaInv_thetaSq (u : Fin n → ℝ) :
    h.thetaInv (h.thetaInv (h.thetaSq u)) = u := by
  have hu : (List.ofFn u).length = K.operations.dim := by simp [h.dim_eq]
  have hsq := h.laws.length_thetaSq _ hu
  show point n (K.operations.thetaInv (List.ofFn (point n (K.operations.thetaInv
    (List.ofFn (point n (K.operations.thetaSq (List.ofFn u)))))))) = u
  rw [ofFn_point (hsq.trans h.dim_eq),
    ofFn_point ((h.laws.length_thetaInv _ hsq).trans h.dim_eq),
    h.laws.thetaInv_thetaInv_thetaSq _ hu, point_ofFn]

/-! ## Inner products of arrays -/

/-- The two points have one scaled form. -/
theorem mulThetaInv_point : K.mulThetaInv x = K.mulTheta s := by
  rw [← Array.toList_inj, toList_mulThetaInv, toList_mulTheta, h.laws.thetaInv_point]

theorem dot_mulThetaInv_mulTheta {u v : Array ℝ} (hu : u.size = n) (hv : v.size = n) :
    dot (K.mulThetaInv u) (K.mulTheta v) = dot u v := by
  rw [dot, toList_mulThetaInv, toList_mulTheta,
    h.laws.inner_thetaInv_theta _ _ (h.length_toList hu) (h.length_toList hv), dot]

/-- The inner product is the product seen from the identity. -/
theorem dot_unit_circ {u v : Array ℝ} (hu : u.size = n) (hv : v.size = n) :
    (K.circ u v).size = n ∧ dot K.unit (K.circ u v) = dot u v := by
  have hu := h.length_toList hu
  have hv := h.length_toList hv
  refine ⟨by rw [← Array.length_toList, toList_circ, h.laws.length_circ _ _ hu hv, h.dim_eq], ?_⟩
  rw [dot, toList_unit, toList_circ, h.laws.inner_unit_circ _ _ hu hv, dot]

/-- A multiple of the identity, seen from the identity. -/
theorem dot_unit_addScaledE (a : ℝ) {v : Array ℝ} (hv : v.size = n) :
    (K.addScaledE a v).size = n ∧
      dot K.unit (K.addScaledE a v) = dot K.unit v + a * K.degree := by
  have hlen := h.length_toList hv
  have hlist : (K.addScaledE a v).toList = combine 1 v.toList a K.operations.unit := by
    rw [K.toList_addScaledE a (hv.trans h.numel.symm), h.laws.addScaledE_eq a _ hlen]
  have hunit := hlen.trans h.laws.length_unit.symm
  refine ⟨by rw [← Array.length_toList, hlist, length_combine, ← hunit, min_self,
    Array.length_toList, hv], ?_⟩
  rw [dot, dot, hlist, inner_combine_right _ _ _ hunit, toList_unit, h.laws.inner_unit_unit,
    degree_operations, one_mul]

end Scaled

end Composite

end Conic
