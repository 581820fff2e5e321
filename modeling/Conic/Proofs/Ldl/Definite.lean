import Conic.Proofs.Ldl.Solve

/-!
# Pivots of definite matrices

In exact arithmetic a pivot can be refused only if it is not positive.  With a
regularization every pivot that is not replaced is at least the threshold, so no
pivot is refused.  Without one the pivots of a positive definite matrix are
positive: after the elimination of row `k` the leading block of `k + 1` rows is
`L D Lᵀ` with the candidate for the pivot as the last entry of `D`, and `L` is
invertible.  So a factorisation succeeds in both cases, in any order
(`Ldl.Belongs.exists_refactor?`).
-/

namespace Conic.Ldl

open Finset Matrix

variable [Machine] {F : Ldl ℝ} {k : ℕ} {c : ℕ → List (ℕ × ℝ)} {d ε : ℕ → ℝ} {pattern : List ℕ}

/-! ## The leading block -/

omit [Machine] in
/-- A factor with ones on its diagonal and nothing above it is invertible. -/
theorem isUnit_unitLower {n : ℕ} (hupper : ∀ i < n, ∀ j < n, i < j → unitLower c i j = 0) :
    IsUnit (.of fun i j : Fin n => unitLower c i j : Matrix (Fin n) (Fin n) ℝ) := by
  rw [Matrix.isUnit_iff_isUnit_det, det_of_isLowerTriangular]
  · simp [unitLower]
  · intro i j hij
    exact hupper i i.isLt j j.isLt hij

/-- What is left of a pivot, if the matrix is definite and no pivot has been
replaced. -/
theorem Exact.rowOf_pos (h : Exact F k c d ε) (hF : F.Symbolic) (hk : k < F.dim)
    (hc : ∀ i, (c i).map Prod.fst = rowsBelow (Stored F.permuted) k i)
    (hpattern : RowPattern (Stored F.permuted) (fun i => Fill (Stored F.permuted) i k) pattern)
    (hc' : ∀ i, ((rowOf F k pattern d c).2.1 i).map Prod.fst =
      rowsBelow (Stored F.permuted) (k + 1) i)
    (hreg : F.regularization = none)
    (hdef : (Matrix.of fun i j : Fin F.dim => F.permuted.symGet i j).PosDef) :
    0 < (rowOf F k pattern d c).2.2 := by
  set dk := (rowOf F k pattern d c).2.2 with hdk
  set c' := (rowOf F k pattern d c).2.1 with hc'def
  have hupper (i j : ℕ) (hij : i < j) : unitLower c' i j = 0 := by
    rw [unitLower, if_neg hij.ne]
    exact coefficient_eq_zero_of_not_fill hc' fun h => (h.1.lt.trans hij).false
  have hrow {r i : ℕ} (hr : r < k + 1) (hi : i ≤ r) : F.permuted.get i r =
      ∑ j ∈ range (k + 1), unitLower c' i j * Function.update d k dk j * unitLower c' r j := by
    have heq := h.row_eliminated hF hk hc hpattern dk hr hi
    have hzero : Function.update ε k (dk - dk) r = 0 := by
      rcases Nat.lt_succ_iff_lt_or_eq.mp hr with hr | rfl
      · rw [Function.update_of_ne hr.ne, h.eq_zero hreg hr]
      · rw [Function.update_self, sub_self]
    rw [← hdk, hzero, ite_self, add_zero] at heq
    rw [heq]
    refine (Finset.sum_subset (Finset.range_subset_range.mpr hk) fun j _ hj => ?_).symm
    rw [hupper i j (by simp at hj; omega), zero_mul, zero_mul]
  set L : Matrix (Fin (k + 1)) (Fin (k + 1)) ℝ := .of fun i j => unitLower c' i j with hL
  set D : Matrix (Fin (k + 1)) (Fin (k + 1)) ℝ :=
    diagonal fun j => Function.update d k dk j with hD
  have hblock : L * D * star L = (Matrix.of fun i j : Fin F.dim => F.permuted.symGet i j).submatrix
      (Fin.castLE hk) (Fin.castLE hk) := by
    ext i r
    have hentry : (L * D * star L) i r =
        ∑ j ∈ range (k + 1), unitLower c' i j * Function.update d k dk j * unitLower c' r j := by
      rw [Finset.sum_range, Matrix.mul_apply]
      exact Finset.sum_congr rfl fun j _ => by simp [hD, hL, Matrix.mul_diagonal]
    rw [hentry]
    show _ = F.permuted.symGet i r
    rw [Csc.symGet]
    rcases le_total (i : ℕ) r with hir | hri
    · rw [min_eq_left hir, max_eq_right hir, hrow r.isLt hir]
    · rw [min_eq_right hri, max_eq_left hri, hrow i.isLt hri]
      exact Finset.sum_congr rfl fun j _ => by ring
  have hpos : D.PosDef := by
    rw [← (isUnit_unitLower fun i _ j _ => hupper i j).posDef_star_right_conjugate_iff]
    show (L * D * star L).PosDef
    rw [hblock]
    exact hdef.submatrix (Fin.castLE_injective hk)
  simpa [hD] using posDef_diagonal_iff.mp hpos (Fin.last k)

/-! ## Factoring -/

/-- A regularization replaces pivots by positive ones. -/
theorem repair_pos {r : Regularization ℝ} (heps : 0 < r.eps) (hdelta : 0 < r.delta) (dk : ℝ) :
    0 < (repair (some r) dk).1 := by
  rw [repair]
  split
  next => exact hdelta
  next hle => exact heps.trans_le (not_lt.mp hle)

/-- Either small pivots are replaced by positive ones, or the matrix is positive
definite. -/
def Safe (reg : Option (Regularization ℝ)) (M : Csc ℝ) : Prop :=
  (∃ r, reg = some r ∧ 0 < r.eps ∧ 0 < r.delta) ∨ reg = none ∧ M.symMatrix.PosDef

namespace Belongs

variable {M : Csc ℝ} {π ι dest : ℕ → ℕ} (hF : Belongs F M π ι dest) (hM : M.Valid)
  (hsq : M.nrows = M.ncols) (htri : M.IsTriu)

include hF hM hsq htri

/-- A definite matrix is definite in every order. -/
theorem posDef_permuted (hdef : M.symMatrix.PosDef) :
    (Matrix.of fun i j : Fin F.dim => F.permuted.symGet i j).PosDef := by
  have hlt (i : Fin F.dim) : (i : ℕ) < M.ncols := i.isLt.trans_eq hF.dim_eq
  let place (i : Fin F.dim) : Fin M.nrows := ⟨π i, (hF.inverts.lt i (hlt i)).trans_eq hsq.symm⟩
  have hplace : Function.Injective place := by
    intro i j hij
    rw [Fin.ext_iff, ← hF.inverts.left i (hlt i), Fin.mk.inj hij, hF.inverts.left j (hlt j)]
  have heq : (Matrix.of fun i j : Fin F.dim => F.permuted.symGet i j) =
      M.symMatrix.submatrix place place := by
    ext i j
    exact hF.permuted.symGet_eq hM hsq htri hF.inverts (hlt i) (hlt j)
  rw [heq]
  exact hdef.submatrix hplace

/-- No pivot is refused, and all pivots are positive. -/
theorem exists_refactor? (hsafe : Safe F.regularization M) :
    ∃ F', F.refactor? = some (F', none) ∧ Belongs F' M π ι dest ∧
      F'.regularization = F.regularization ∧ ∀ j < F'.dim, 0 < F'.diag.getD j 0 := by
  obtain ⟨w, e, hrefactor, hsymbolic, hfactored, hrefused⟩ := hF.symbolic.exists_factored
  cases e with
  | none =>
    obtain ⟨c, ε, hfactored⟩ := hfactored rfl
    exact ⟨_, hrefactor, hF.store hsymbolic, rfl, fun j hj => hfactored.exact.pos j hj⟩
  | some e =>
    exfalso
    obtain ⟨k, hk, w₀, c, pattern, hrows, ⟨ε, hexact, -⟩, hpattern, hdone⟩ := hrefused e rfl
    have hpos : 0 < pivotOf F k pattern (fun i => w₀.diag.getD i 0) c := by
      rcases hsafe with ⟨r, hreg, heps, hdelta⟩ | ⟨hreg, hdef⟩
      · rw [pivotOf, hreg]
        exact repair_pos heps hdelta _
      · rw [pivotOf, hreg]
        exact hexact.rowOf_pos hF.symbolic hk hrows.rows hpattern hdone.rows.rows hreg
          (hF.posDef_permuted hM hsq htri hdef)
    have hrefusal := hdone.refusal
    rw [refusal?_eq_none_iff.mpr hpos] at hrefusal
    cases hrefusal

end Belongs

end Conic.Ldl
