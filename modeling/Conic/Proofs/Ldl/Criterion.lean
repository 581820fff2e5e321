import Conic.Proofs.Ldl.Definite
import Conic.Proofs.Ldl.Factors
import Conic.Proofs.Ldl.Frame

/-!
# When a factorisation succeeds

In exact arithmetic a matrix can be factored without a regularization if and only
if it is positive definite, and a pivot that is refused is not positive.  One
direction is `Ldl.Belongs.exists_refactor?`.  For the other one, `L` is invertible
and the pivots are positive, so `L D Lᵀ` is positive definite, and so is the matrix
in its own order (`Ldl.FactorsOf.posDef`).

With a regularization every matrix can be factored.  The regularization is read
when a pivot is replaced and nowhere else.  So an object whose pivots are not below
its threshold is computed as it would be without one
(`Ldl.Symbolic.refactor?_regularizedBy`).

None of this depends on the order (`Ldl.factors_iff_posDef`).
-/

namespace Conic.Ldl

open Finset Matrix

/-! ## The same rows with a regularization -/

section

variable {α : Type} [Scalar α] {F : Ldl α} {r : Regularization α} {k : ℕ} {w w' : Work α}

/-- The object with another regularization. -/
def regularizedBy (F : Ldl α) (reg : Option (Regularization α)) : Ldl α :=
  { F with regularization := reg }

/-- A row whose pivot need not be replaced is computed as without a
regularization. -/
theorem row?_regularizedBy (hreg : F.regularization = none) (h : row? F k w = some (w', none))
    (hkept : ¬ w'.diag.getD k 0 < r.eps) :
    row? (F.regularizedBy (some r)) k w = some (w', none) := by
  simp only [row?, Option.bind_eq_bind, Option.bind_eq_some_iff] at h
  obtain ⟨⟨w₁, pattern⟩, hcollect, dk, hdk, y, hy, ⟨w₂, p⟩, hloop, hfinish⟩ := h
  rw [hreg, repair] at hfinish
  simp only at hfinish
  split at hfinish
  next => cases hfinish
  next hrefusal =>
    obtain ⟨diag, hdiag, heq⟩ := Option.bind_eq_some_iff.mp hfinish
    have hpivot : w'.diag.getD k 0 = p := by
      obtain ⟨rfl, -⟩ := Prod.mk.inj (Option.some.inj heq)
      rw [Array.getD_eq_getD_getElem?, getElem?_of_update?_const hdiag]
      rfl
    rw [hpivot] at hkept
    have hcollect' : collect? (F.regularizedBy (some r)) k w = some (w₁, pattern) := hcollect
    have hloop' : pattern.foldlM (eliminate? (F.regularizedBy (some r)) k)
        ({ w₁ with y := y }, dk) = some (w₂, p) := hloop
    have hrepair : repair (F.regularizedBy (some r)).regularization p = (p, false) := by
      rw [regularizedBy, repair, if_neg hkept]
    simp only [row?, Option.bind_eq_bind, hcollect', Option.bind_some, hdk, hy, hloop', hrepair,
      hrefusal]
    exact hfinish

/-- Rows are computed as without a regularization if none of their pivots need be
replaced. -/
theorem rows?_regularizedBy (hreg : F.regularization = none) {ks : List ℕ} (hks : ks.Nodup)
    (h : F.rows? ks w = some (w', none)) (hkept : ∀ j ∈ ks, ¬ w'.diag.getD j 0 < r.eps) :
    (F.regularizedBy (some r)).rows? ks w = some (w', none) := by
  induction ks generalizing w with
  | nil => exact h
  | cons k ks ih =>
    obtain ⟨hk, hks⟩ := List.nodup_cons.mp hks
    rw [rows?] at h
    split at h
    next => cases h
    next => cases h
    next v hrow =>
      -- the later rows keep the pivot
      have hpivot : w'.diag.getD k 0 = v.diag.getD k 0 := by
        rw [Array.getD_eq_getD_getElem?, Array.getD_eq_getD_getElem?, (Extends.of_rows? h).2 k hk]
      rw [rows?, row?_regularizedBy hreg hrow (hpivot ▸ hkept k (by simp))]
      exact ih hks h fun j hj => hkept j (by simp [hj])

/-- An object whose pivots are not below the threshold is the one that is computed
without a regularization. -/
theorem Symbolic.refactor?_regularizedBy (hF : F.Symbolic) (hreg : F.regularization = none)
    {F' : Ldl α} (h : F.refactor? = some (F', none))
    (hkept : ∀ d ∈ F'.diag, ¬ d < r.eps) :
    (F.regularizedBy (some r)).refactor? = some (F'.regularizedBy (some r), none) := by
  obtain ⟨w, e, hrows, hnone, -⟩ := hF.exists_rows? (fun _ _ _ => True) trivial le_rfl (by simp)
  simp only [refactor?, hrows, Option.bind_eq_bind, Option.bind_some, Option.pure_def,
    Option.some.injEq, Prod.mk.injEq] at h
  obtain ⟨rfl, rfl⟩ := h
  obtain ⟨c, hw, -⟩ := hnone rfl
  have hkept' : ∀ j < F.dim, ¬ w.diag.getD j 0 < r.eps := by
    intro j hj
    rw [Array.getD_eq_getD_getElem?, Array.getElem?_eq_getElem (hw.size_diag.symm ▸ hj)]
    exact hkept _ (Array.getElem_mem _)
  have hrows' : (F.regularizedBy (some r)).rows? (List.range (F.regularizedBy (some r)).dim)
      (F.regularizedBy (some r)).work = some (w, none) :=
    rows?_regularizedBy hreg List.nodup_range hrows fun j hj => hkept' j (List.mem_range.mp hj)
  rw [refactor?, hrows']
  rfl

theorem start?_regularizedBy {M : Csc α} {perm : Array ℕ} {reg : Option (Regularization α)}
    (h : start? M perm reg = some F) (reg' : Option (Regularization α)) :
    start? M perm reg' = some (F.regularizedBy reg') := by
  simp only [start?, Option.bind_eq_bind, Option.bind_eq_some_iff, Option.pure_def,
    Option.some.injEq] at h
  obtain ⟨⟨P, places⟩, hpermute, ⟨parent, colPtr⟩, hanalyse, nnz, hnnz, rfl⟩ := h
  simp only [start?, hpermute, hanalyse, hnnz, Option.bind_eq_bind, Option.bind_some,
    Option.pure_def]
  rfl

end

/-! ## Positive pivots -/

variable [Machine]

/-- In exact arithmetic every refused pivot is refused for its sign. -/
theorem refusal?_eq_some {dk : ℝ} {e : LdlError} (h : refusal? dk = some e) : e = .zeroPivot := by
  simp only [refusal?] at h
  split at h
  next hinfinite => simp at hinfinite
  next =>
    split at h
    next => exact (Option.some.inj h).symm
    next => cases h

/-- The lower triangular factor is invertible. -/
theorem FactorsOf.isUnit_lower {F : Ldl ℝ} {M : Csc ℝ} {reg : Option (Regularization ℝ)}
    {ε : Fin M.nrows → ℝ} (h : FactorsOf F M reg ε) : IsUnit (F.lower M.nrows) := by
  rw [Matrix.isUnit_iff_isUnit_det, det_of_isLowerTriangular]
  · simp [lower, h.stored_get]
  · intro i j hij
    have hlt : i < j := hij
    simp [lower, h.stored_get i j hlt.le, hlt.ne]

omit [Machine] in
/-- Without a regularization no pivot is replaced. -/
theorem not_tooSmall_none {F : Ldl ℝ} {M : Csc ℝ} (k : Fin M.nrows) : ¬ F.TooSmall M none k := by
  rintro ⟨r, hr, -⟩
  cases hr

theorem FactorsOf.regularized_eq_zero {F : Ldl ℝ} {M : Csc ℝ} {ε : Fin M.nrows → ℝ}
    (h : FactorsOf F M none ε) : F.regularized = 0 := by
  simp [h.regularized, not_tooSmall_none]

/-- A matrix is positive definite if its factors have positive pivots and no pivot
has been replaced. -/
theorem FactorsOf.posDef {F : Ldl ℝ} {M : Csc ℝ} {ε : Fin M.nrows → ℝ} (h : FactorsOf F M none ε)
    (hpos : ∀ k < M.nrows, 0 < F.diag.getD k 0) : M.symMatrix.PosDef := by
  have hproduct : F.lower M.nrows * F.pivots M.nrows * (F.lower M.nrows)ᵀ =
      F.permutation M.nrows * M.symMatrix * (F.permutation M.nrows)ᵀ := by
    have hzero : ε = 0 := funext fun k => h.kept k (not_tooSmall_none k)
    rw [h.product, hzero, Matrix.diagonal_zero', add_zero]
  have hpivots : (F.pivots M.nrows).PosDef := posDef_diagonal_iff.mpr fun k => hpos k k.isLt
  have hunit : IsUnit (F.permutation M.nrows) := .of_mul_eq_one _ h.permutation_mul
  rw [← hunit.posDef_star_right_conjugate_iff, star_eq_conjTranspose,
    conjTranspose_eq_transpose_of_trivial, ← hproduct, ← conjTranspose_eq_transpose_of_trivial,
    ← star_eq_conjTranspose]
  exact h.isUnit_lower.posDef_star_right_conjugate_iff.mpr hpivots

namespace Belongs

variable {F : Ldl ℝ} {M : Csc ℝ} {π ι dest : ℕ → ℕ} (hF : Belongs F M π ι dest) (hM : M.Valid)
  (hsq : M.nrows = M.ncols) (htri : M.IsTriu)

include hF hM hsq htri

/-- Without a regularization, factoring succeeds or ends at a pivot that is not
positive, and the matrix is positive definite or is not. -/
theorem exists_outcome (hreg : F.regularization = none) :
    ∃ F' e, F.refactor? = some (F', e) ∧
      (e = none ∧ M.symMatrix.PosDef ∨ e = some .zeroPivot ∧ ¬ M.symMatrix.PosDef) := by
  obtain ⟨w, e, hrefactor, hsymbolic, hfactored, hrefused⟩ := hF.symbolic.exists_factored
  refine ⟨F.store w, e, hrefactor, ?_⟩
  cases e with
  | none =>
    obtain ⟨c, ε, hfactored⟩ := hfactored rfl
    have hfactors := hfactored.factorsOf (hF.store hsymbolic) hM hsq htri
    have hdim : (F.store w).dim = M.nrows := (hF.store hsymbolic).dim_eq.trans hsq.symm
    rw [show (F.store w).regularization = none from hreg] at hfactors
    exact .inl ⟨rfl, hfactors.posDef fun k hk => hfactored.exact.pos k (hdim ▸ hk)⟩
  | some e =>
    obtain ⟨k, -, w₀, c, pattern, -, -, -, hdone⟩ := hrefused e rfl
    refine .inr ⟨congrArg some (refusal?_eq_some hdone.refusal.symm), fun hdef => ?_⟩
    obtain ⟨F', hsucceeds, -⟩ := hF.exists_refactor? hM hsq htri (.inr ⟨hreg, hdef⟩)
    rw [hrefactor] at hsucceeds
    cases hsucceeds

omit hM hsq htri in
/-- The regularization is no part of what belongs to a matrix. -/
theorem regularizedBy (reg : Option (Regularization ℝ)) :
    Belongs (F.regularizedBy reg) M π ι dest :=
  ⟨{ hF.symbolic with }, hF.perm, hF.inverts, hF.places, hF.permuted⟩

/-- With a regularization factoring succeeds, and it gives the same factors if their
pivots are not below the threshold. -/
theorem exists_regularized (hreg : F.regularization = none) {r : Regularization ℝ}
    (heps : 0 < r.eps) (hdelta : 0 < r.delta) :
    ∃ F', (F.regularizedBy (some r)).refactor? = some (F', none) ∧ F'.dim = M.ncols ∧
      (∀ d ∈ F'.diag, 0 < d) ∧ ∀ F₀, F.refactor? = some (F₀, none) →
        (∀ d ∈ F₀.diag, r.eps ≤ d) → F' = F₀.regularizedBy (some r) ∧ F'.regularized = 0 := by
  obtain ⟨F', hsucceeds, hF', -, hpos⟩ :=
    (hF.regularizedBy (some r)).exists_refactor? hM hsq htri (.inl ⟨r, rfl, heps, hdelta⟩)
  refine ⟨F', hsucceeds, hF'.dim_eq, fun d hd => ?_, fun F₀ hF₀ hle => ?_⟩
  · obtain ⟨j, hj, rfl⟩ := Array.mem_iff_getElem.mp hd
    simpa [Array.getD, hj] using hpos j hj
  · have hsame := hF.symbolic.refactor?_regularizedBy hreg hF₀ fun d hd => not_lt.mpr (hle d hd)
    obtain ⟨ε, hfactors⟩ := hF.factorsOf_of_refactor? hM hsq htri hF₀
    rw [hsucceeds, Option.some.injEq, Prod.mk.injEq] at hsame
    rw [hreg] at hfactors
    exact ⟨hsame.1, hsame.1 ▸ hfactors.regularized_eq_zero⟩

end Belongs

/-! ## Any matrix, in any order -/

/-- A square triangle can be factored without a regularization if and only if the
symmetric matrix is positive definite.  If it is not, a pivot is refused for its
sign.  With a regularization it can always be factored, and the pivots are
positive.  The regularization changes nothing if the pivots are not below its
threshold.  The order is the fill-reducing one, or any other. -/
theorem factors_iff_posDef {M : Csc ℝ} (hM : M.Valid) (hsq : M.nrows = M.ncols) (htri : M.IsTriu)
    {make : Option (Regularization ℝ) → Except (Fault LdlError) (Ldl ℝ)}
    (hmake : make = factor M ∨
      ∃ perm, Ordering.isOrder M.ncols perm.toList = true ∧ make = ofOrder M perm) :
    ((∃ F, make none = .ok F) ↔ M.symMatrix.PosDef) ∧
      (¬ M.symMatrix.PosDef → make none = .error (.cause .zeroPivot)) ∧
      ∀ r : Regularization ℝ, 0 < r.eps → 0 < r.delta →
        ∃ F, make (some r) = .ok F ∧ F.dim = M.ncols ∧ (∀ d ∈ F.diag, 0 < d) ∧
          ∀ F₀, make none = .ok F₀ → (∀ d ∈ F₀.diag, r.eps ≤ d) →
            F = { F₀ with regularization := some r } ∧ F.regularized = 0 := by
  obtain ⟨perm, hperm, hmake⟩ : ∃ perm, Ordering.isOrder M.ncols perm.toList = true ∧
      ∀ reg, make reg = ofOrder M perm reg := by
    rcases hmake with rfl | ⟨perm, hperm, rfl⟩
    · obtain ⟨perm, horder, hperm, -⟩ := exists_factor hM hsq htri (α := ℝ) none
      refine ⟨perm, hperm, fun reg => ?_⟩
      obtain ⟨perm', horder', -, hfactor⟩ := exists_factor hM hsq htri reg
      rw [horder, Except.ok.injEq] at horder'
      exact horder' ▸ hfactor
    · exact ⟨perm, hperm, fun _ => rfl⟩
  obtain ⟨G, π, ι, dest, hG, hbelongs, hreg⟩ := exists_start? hM hsq hperm none
  obtain ⟨F', e, hrefactor, houtcome⟩ := hbelongs.exists_outcome hM hsq htri hreg
  have hnone := ofOrder_eq hG
  rw [hrefactor, ← hmake] at hnone
  have hkept : ∀ r : Regularization ℝ, 0 < r.eps → 0 < r.delta →
      ∃ F, make (some r) = .ok F ∧ F.dim = M.ncols ∧ (∀ d ∈ F.diag, 0 < d) ∧
        ∀ F₀, make none = .ok F₀ → (∀ d ∈ F₀.diag, r.eps ≤ d) →
          F = { F₀ with regularization := some r } ∧ F.regularized = 0 := by
    intro r heps hdelta
    obtain ⟨F, hsucceeds, hdim, hpos, hsame⟩ :=
      hbelongs.exists_regularized hM hsq htri hreg heps hdelta
    have hsome := ofOrder_eq (start?_regularizedBy hG (some r))
    rw [hsucceeds, ← hmake] at hsome
    refine ⟨F, hsome, hdim, hpos, fun F₀ hF₀ => hsame F₀ ?_⟩
    rw [hrefactor]
    cases e with
    | none => rw [Except.ok.inj (hnone.symm.trans hF₀)]
    | some e => cases hnone.symm.trans hF₀
  rcases houtcome with ⟨rfl, hdef⟩ | ⟨rfl, hdef⟩
  · exact ⟨⟨fun _ => hdef, fun _ => ⟨F', hnone⟩⟩, absurd hdef, hkept⟩
  · refine ⟨⟨fun ⟨F, hF⟩ => ?_, fun h => absurd h hdef⟩, fun _ => hnone, hkept⟩
    cases hnone.symm.trans hF

omit [Machine] in
/-- Two triangles with fill.  They differ in one entry of the diagonal, and one is positive
definite. -/
theorem factors_iff_posDef_hub : letI := Machine.double
    let M : Csc ℝ := hub 5 6 2 2 4
    let N : Csc ℝ := hub 5 1 2 2 4
    let r : Regularization ℝ := ⟨1 / 2, 2⟩
    (M.Valid ∧ M.nrows = M.ncols ∧ M.IsTriu) ∧ (N.Valid ∧ N.nrows = N.ncols ∧ N.IsTriu) ∧
      Ordering.isOrder 3 [2, 0, 1] = true ∧ 0 < r.eps ∧ 0 < r.delta ∧
      (M.symMatrix.PosDef ∧ ∃ F, ofOrder M #[2, 0, 1] none = .ok F ∧ F.diag = #[4, 4, 19 / 4] ∧
        ofOrder M #[2, 0, 1] (some r) = .ok { F with regularization := some r }) ∧
      ¬ N.symMatrix.PosDef ∧ ofOrder N #[2, 0, 1] none = .error (.cause .zeroPivot) ∧
        ∃ F, ofOrder N #[2, 0, 1] (some r) = .ok F ∧ F.dim = 3 ∧ ∀ d ∈ F.diag, 0 < d := by
  let _ := Machine.double
  intro M N r
  have hperm : Ordering.isOrder 3 [2, 0, 1] = true := by decide
  have heps : 0 < r.eps := one_half_pos
  have hdelta : 0 < r.delta := two_pos
  have h₁ : repair none (5 - 2 / 4 * 2 : ℝ) = (4, false) := by norm_num [repair]
  have hc : (0 - 2 / 4 * 2 : ℝ) = -1 := by norm_num
  -- the last candidate is positive for one of them and negative for the other
  have hM : repair none (6 - 2 / 4 * 2 - -1 / 4 * -1 : ℝ) = (19 / 4, false) := by norm_num [repair]
  have hN : repair none (1 - 2 / 4 * 2 - -1 / 4 * -1 : ℝ) = (-1 / 4, false) := by norm_num [repair]
  have hmade := ofOrder_hub four_pos rfl h₁ four_pos hc hM
  have hrefused := ofOrder_hub four_pos rfl h₁ four_pos hc hN
  rw [if_pos (by norm_num)] at hmade
  rw [if_neg (by norm_num)] at hrefused
  obtain ⟨hdef, -, hregularized⟩ := factors_iff_posDef valid_hub rfl isTriu_hub
    (.inr ⟨#[2, 0, 1], hperm, rfl⟩) (M := M)
  obtain ⟨hdef', -, hregularized'⟩ := factors_iff_posDef valid_hub rfl isTriu_hub
    (.inr ⟨#[2, 0, 1], hperm, rfl⟩) (M := N)
  have hnot : ¬ N.symMatrix.PosDef := by
    intro h
    obtain ⟨F, hF⟩ := hdef'.mpr h
    cases hrefused.symm.trans hF
  obtain ⟨F, hF, -, -, hsame⟩ := hregularized r heps hdelta
  obtain ⟨rfl, -⟩ := hsame _ hmade (by norm_num [hubFactors, r])
  obtain ⟨F', hF', hdim, hpos, -⟩ := hregularized' r heps hdelta
  exact ⟨⟨valid_hub, rfl, isTriu_hub⟩, ⟨valid_hub, rfl, isTriu_hub⟩, hperm, heps, hdelta,
    ⟨hdef.mp ⟨_, hmade⟩, _, hmade, rfl, hF⟩, hnot, hrefused, F', hF', hdim, hpos⟩

end Conic.Ldl
