import Conic.Proofs.Cone.Lengths
import Conic.Proofs.Cone.Points

/-!
# Cones with the stored reflection

A second-order cone stores the reflection that it was scaled with.  If this is
the reflection of its dimension, `Θ²` is a linear map, whatever the factors and
the scaling points are.  They need not come from a pair of interior points, so
the laws of a scaled cone say nothing about such a state.
-/

namespace Conic

open Vec

/-- A second-order block has stored the reflection of its dimension. -/
def Block.Reflected {α : Type} [Scalar α] : Block α → Prop
  | .orthant _ => True
  | .secondOrder K => K.q = SecondOrder.reflection K.numel

/-- All second-order cones have stored the reflection of their dimension. -/
def Composite.Reflected {α : Type} [Scalar α] (K : Composite α) : Prop :=
  ∀ b ∈ K.blocks, b.Reflected

variable [Machine]

theorem Block.IsScaling.reflected {b : Block ℝ} {x s : List ℝ} (h : b.IsScaling x s) :
    b.Reflected := by
  cases b with
  | orthant K => trivial
  | secondOrder K => exact SecondOrder.IsScaling.reflection h

theorem Composite.ScaledAt.reflected {blocks : List (Block ℝ)} {x s : List ℝ}
    (h : ScaledAt blocks x s) : ∀ b ∈ blocks, b.Reflected := by
  induction h with
  | nil => simp
  | cons hb _ ih => exact List.forall_mem_cons.mpr ⟨hb.reflected, ih⟩

/-! ## The blocks -/

theorem Orthant.mulThetaSq_combine (K : Orthant ℝ) (a : ℝ) (u : List ℝ) (b : ℝ) (v : List ℝ) :
    K.mulThetaSq (combine a u b v) = combine a (K.mulThetaSq u) b (K.mulThetaSq v) := by
  apply List.ext_getElem (by simp [mulThetaSq, min_left_comm])
  intro i hi hi'
  simp only [mulThetaSq, List.getElem_zipWith, getElem_combine, List.get_eq_getElem]
  ring

theorem SecondOrder.mulThetaSq_combine (K : SecondOrder ℝ) (a : ℝ) {u : List ℝ} (b : ℝ)
    {v : List ℝ} (h : u.length = v.length) :
    K.mulThetaSq (combine a u b v) = combine a (K.mulThetaSq u) b (K.mulThetaSq v) := by
  apply List.ext_getElem (by simp [mulThetaSq, h])
  intro i hi hi'
  simp only [mulThetaSq, List.getElem_zipWith, getElem_combine, List.get_eq_getElem,
    inner_combine_right a b K.w h, Scalar.two_real]
  ring

namespace Block.Reflected

variable {b : Block ℝ} (h : b.Reflected)

include h

theorem regular : b.Regular := by
  cases b with
  | orthant K => trivial
  | secondOrder K => exact (congrArg List.length h).trans (SecondOrder.length_reflection _)

theorem length_thetaSq {v : List ℝ} (hv : v.length = b.numel) :
    (b.operations.thetaSq v).length = b.numel := by
  have hlength := h.regular.length_mulThetaSq hv
  cases b with
  | orthant K => exact hlength
  | secondOrder K => exact hlength

omit h in
theorem thetaSq_combine (a : ℝ) {u : List ℝ} (c : ℝ) {v : List ℝ} (huv : u.length = v.length) :
    b.operations.thetaSq (combine a u c v) =
      combine a (b.operations.thetaSq u) c (b.operations.thetaSq v) := by
  cases b with
  | orthant K => exact K.mulThetaSq_combine a u c v
  | secondOrder K => exact K.mulThetaSq_combine a c huv

end Block.Reflected

/-! ## The map of a cone -/

namespace Composite

/-- `Θ²` of a product of blocks is linear and keeps the dimension. -/
theorem thetaSq_linear {blocks : List (Block ℝ)} (h : ∀ b ∈ blocks, b.Reflected) :
    (∀ v, v.length = (mk blocks).operations.dim →
      ((mk blocks).operations.thetaSq v).length = (mk blocks).operations.dim) ∧
    ∀ a u c v, u.length = (mk blocks).operations.dim → v.length = (mk blocks).operations.dim →
      (mk blocks).operations.thetaSq (combine a u c v) =
        combine a ((mk blocks).operations.thetaSq u) c ((mk blocks).operations.thetaSq v) := by
  induction blocks with
  | nil => exact ⟨fun _ _ => rfl, fun _ _ _ _ _ _ => rfl⟩
  | cons b bs ih =>
    obtain ⟨hb, hbs⟩ := List.forall_mem_cons.mp h
    obtain ⟨hlength, hcombine⟩ := ih hbs
    rw [operations_cons]
    refine ⟨fun v hv => ?_, fun a u c v hu hv => ?_⟩
    · obtain ⟨v₁, v₂, rfl, hv₁, hv₂⟩ := Operations.exists_append hv
      rw [Operations.prod_thetaSq hv₁, List.length_append,
        hb.length_thetaSq (hv₁.trans (dim_block b)), ← dim_block, hlength v₂ hv₂]
      rfl
    · obtain ⟨u₁, u₂, rfl, hu₁, hu₂⟩ := Operations.exists_append hu
      obtain ⟨v₁, v₂, rfl, hv₁, hv₂⟩ := Operations.exists_append hv
      have huv₁ := hu₁.trans hv₁.symm
      have hlen : (b.operations.thetaSq u₁).length = (b.operations.thetaSq v₁).length := by
        rw [hb.length_thetaSq (hu₁.trans (dim_block b)),
          hb.length_thetaSq (hv₁.trans (dim_block b))]
      rw [combine_append huv₁, Operations.prod_thetaSq (by simp [hu₁, hv₁]),
        Operations.prod_thetaSq hu₁, Operations.prod_thetaSq hv₁, combine_append hlen,
        Block.Reflected.thetaSq_combine a c huv₁, hcombine a u₂ c v₂ hu₂ hv₂]

namespace Reflected

variable {K : Composite ℝ} {n : ℕ} (h : K.Reflected) (hn : K.numel = n)

/-- The map `Θ²`. -/
noncomputable def thetaSq : (Fin n → ℝ) →ₗ[ℝ] (Fin n → ℝ) :=
  linearMap n K.operations.thetaSq
    (fun v hv => by
      have hdim := K.dim_operations.trans hn
      rw [(thetaSq_linear h).1 v (hv.trans hdim.symm)]
      exact hdim)
    fun a u b v hu hv => by
      have hdim := K.dim_operations.trans hn
      exact (thetaSq_linear h).2 a u b v (hu.trans hdim.symm) (hv.trans hdim.symm)

/-- The operation on arrays is the map on their points. -/
theorem coords_mulThetaSq {v : Array ℝ} (hv : v.size = n) :
    (K.mulThetaSq v).size = n ∧ coords n (K.mulThetaSq v) = h.thetaSq hn (coords n v) := by
  have hdim := K.dim_operations.trans hn
  have hlen := (thetaSq_linear h).1 v.toList (by rw [Array.length_toList, hv, ← hdim])
  refine ⟨by rw [← Array.length_toList, toList_mulThetaSq]; exact hlen.trans hdim, ?_⟩
  rw [coords_eq_point, toList_mulThetaSq, coords_eq_point]
  show _ = point n (K.operations.thetaSq (List.ofFn _))
  rw [ofFn_point (by simpa using hv)]

end Reflected

end Composite

end Conic
