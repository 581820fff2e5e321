import Conic.Proofs.Cone.Reflected
import Conic.Proofs.Schur.Solve

/-!
# The complement is `AΘ²Aᵀ`

The form of all terms of a scaled cone is the form of `Θ²`
(`Schur.sum_form_eq`).  So an entry of the assembled complement is the product
of two rows of the matrix with `Θ²` in between, and a solution of its system is
a solution of `AΘ²Aᵀx = b` (`Schur.IsSolution.mulVec_thetaSq`).
-/

namespace Conic.Schur

open Vec Matrix

variable [Machine]

/-! ## The form of a block -/

/-- The form of a block of the orthant. -/
theorem sum_form_orthant (refl u v : ℕ → ℝ) (θ : List ℝ) (start : ℕ) :
    (((θ.map fun θ => θ * θ).zipIdx start).map fun p =>
        Term.form refl (.column p.2 p.1) u v).sum =
      inner ((List.range' start θ.length).map u)
        (List.zipWith (fun θ v => θ * θ * v) θ ((List.range' start θ.length).map v)) := by
  induction θ generalizing start with
  | nil => simp
  | cons t θ ih =>
    rw [List.map_cons, List.zipIdx_cons, List.map_cons, List.sum_cons, ih, List.length_cons,
      List.range'_succ, List.map_cons, List.map_cons, List.zipWith_cons_cons, inner_cons]
    simp only [Term.form]
    ring

/-- The form of a second-order cone, entry by entry. -/
theorem inner_quadratic (refl u v : ℕ → ℝ) (c η2 : ℝ) (w : List ℝ) (start : ℕ) :
    inner ((List.range' start w.length).map u)
        (List.zipWith (fun p v => η2 * (2 * p.1 * c - p.2 * v))
          (w.zip ((List.range' start w.length).map refl)) ((List.range' start w.length).map v)) =
      η2 * (2 * inner w ((List.range' start w.length).map u) * c -
        ((List.range' start w.length).map fun j => refl j * (u j * v j)).sum) := by
  induction w generalizing start with
  | nil => simp
  | cons a w ih =>
    simp only [List.length_cons, List.range'_succ, List.map_cons, List.zip_cons_cons,
      List.zipWith_cons_cons, inner_cons, List.sum_cons, ih]
    ring

/-- The form of the terms of a block is that of its `Θ²`. -/
theorem sum_form_block {b : Block ℝ} (h : b.Reflected) (start : ℕ) {refl : ℕ → ℝ}
    (hrefl : (List.range' start b.numel).map refl = b.reflection) (u v : ℕ → ℝ) :
    ((blockTerms (start, b)).map fun t => t.form refl u v).sum =
      inner ((List.range' start b.numel).map u)
        (b.operations.thetaSq ((List.range' start b.numel).map v)) := by
  cases b with
  | orthant K =>
    rw [blockTerms, List.map_map]
    exact sum_form_orthant refl u v K.theta start
  | secondOrder K =>
    have hq : K.q = (List.range' start K.w.length).map refl :=
      (show K.q = SecondOrder.reflection K.numel from h).trans hrefl.symm
    have hquadratic := inner_quadratic refl u v (inner K.w ((List.range' start K.w.length).map v))
      (K.eta * K.eta) K.w start
    rw [← hq] at hquadratic
    rw [blockTerms, List.map_singleton, List.sum_singleton]
    show _ = inner ((List.range' start K.w.length).map u)
      (K.mulThetaSq ((List.range' start K.w.length).map v))
    simp only [SecondOrder.mulThetaSq, Scalar.two_real, hquadratic, Term.form, SecondOrder.numel]

/-- The form of the terms of all blocks. -/
theorem sum_form_spansFrom {blocks : List (Block ℝ)} (h : ∀ b ∈ blocks, b.Reflected)
    (start : ℕ) {refl : ℕ → ℝ}
    (hrefl : (List.range' start (Composite.mk blocks).numel).map refl =
      blocks.flatMap Block.reflection) (u v : ℕ → ℝ) :
    (((Composite.spansFrom start blocks).flatMap blockTerms).map fun t => t.form refl u v).sum =
      inner ((List.range' start (Composite.mk blocks).numel).map u)
        ((Composite.mk blocks).operations.thetaSq
          ((List.range' start (Composite.mk blocks).numel).map v)) := by
  induction blocks generalizing start with
  | nil => exact (inner_nil_left _).symm
  | cons b bs ih =>
    obtain ⟨hb, hbs⟩ := List.forall_mem_cons.mp h
    have hrange (f : ℕ → ℝ) : (List.range' start (Composite.mk (b :: bs)).numel).map f =
        (List.range' start b.numel).map f ++
          (List.range' (start + b.numel) (Composite.mk bs).numel).map f := by
      rw [Composite.numel_cons, ← List.range'_append_1, List.map_append]
    rw [hrange, List.flatMap_cons] at hrefl
    obtain ⟨hfirst, hrest⟩ := List.append_inj hrefl (by simp [Composite.length_reflection])
    have hlen (f : ℕ → ℝ) : ((List.range' start b.numel).map f).length = b.operations.dim := by
      rw [List.length_map, List.length_range', Composite.dim_block]
    have hsq : (b.operations.thetaSq ((List.range' start b.numel).map v)).length =
        ((List.range' start b.numel).map u).length :=
      (hb.length_thetaSq ((hlen v).trans (Composite.dim_block b))).trans (by simp)
    rw [Composite.spansFrom, List.flatMap_cons, List.map_append, List.sum_append,
      sum_form_block hb start hfirst, ih hbs _ hrest, hrange, hrange, Composite.operations_cons,
      Operations.prod_thetaSq (hlen v), inner_append hsq.symm]

/-- The form of the terms of a cone. -/
theorem sum_form_eq {K : Composite ℝ} {n : ℕ} (hK : K.Reflected) (hn : K.numel = n)
    (u v : ℕ → ℝ) :
    ((terms K).map fun t => t.form (fun j => K.reflection.getD j 0) u v).sum =
      (fun j : Fin n => u j) ⬝ᵥ hK.thetaSq hn fun j => v j := by
  have hsize : K.reflection.size = K.numel := by
    have hlen (blocks : List (Block ℝ)) :
        (blocks.flatMap Block.reflection).length = (Composite.mk blocks).numel := by
      induction blocks with
      | nil => rfl
      | cons b bs ih =>
        rw [List.flatMap_cons, List.length_append, ih, Composite.length_reflection,
          Composite.numel_cons]
    rw [← Array.length_toList, Composite.toList_reflection, hlen]
  have hrefl : (List.range' 0 K.numel).map (fun j => K.reflection.getD j 0) =
      K.blocks.flatMap Block.reflection := by
    rw [← Composite.toList_reflection, (Holds.of_getD K.reflection 0).toList, hsize,
      List.range_eq_range']
  have hofFn (f : ℕ → ℝ) : (List.range' 0 K.numel).map f = List.ofFn fun j : Fin n => f j := by
    apply List.ext_getElem (by simp [hn])
    intro i hi hi'
    simp
  have hsum := sum_form_spansFrom hK 0 hrefl u v
  rw [hofFn, hofFn, inner_eq_dotProduct (n := n) (by simp), point_ofFn] at hsum
  exact hsum

/-! ## The columns of the terms -/

/-- The columns of the terms only depend on the shape. -/
theorem map_cols_eq_of_shape {K K' : Composite ℝ} (h : K'.shape = K.shape) :
    (terms K').map Term.cols = (terms K).map Term.cols := by
  have hspans : ∀ (bs bs' : List (Block ℝ)) (start : ℕ),
      bs'.map Composite.shapeOf = bs.map Composite.shapeOf →
      ((Composite.spansFrom start bs').flatMap blockTerms).map Term.cols =
        ((Composite.spansFrom start bs).flatMap blockTerms).map Term.cols := by
    intro bs
    induction bs with
    | nil =>
      intro bs' start h
      rw [List.map_eq_nil_iff.mp h]
    | cons b bs ih =>
      intro bs' start h
      obtain ⟨b', bs', rfl, hb, hbs⟩ := List.map_eq_cons_iff.mp h
      -- blocks of one shape have the same number of terms with the same columns
      have hblock : b'.numel = b.numel ∧ (blockTerms (start, b')).map Term.cols =
          (blockTerms (start, b)).map Term.cols := by
        cases b with
        | orthant B =>
          cases b' with
          | orthant B' =>
            have hnumel : B'.numel = B.numel := Sum.inl.inj hb
            refine ⟨hnumel, ?_⟩
            have hcols (B : Orthant ℝ) : (blockTerms (start, .orthant B)).map
                Term.cols = (List.range' start B.numel).map fun j => [j] := by
              rw [blockTerms, List.map_map]
              apply List.ext_getElem (by simp [Orthant.thetaSq, Orthant.numel])
              intro i hi hi'
              simp [Term.cols]
            rw [hcols, hcols, hnumel]
          | secondOrder B' => cases hb
        | secondOrder B =>
          cases b' with
          | orthant B' => cases hb
          | secondOrder B' =>
            have hnumel : B'.numel = B.numel := Sum.inr.inj hb
            exact ⟨hnumel, by simp only [blockTerms, List.map_singleton, Term.cols,
              hnumel]⟩
      simp only [Composite.spansFrom, List.flatMap_cons, List.map_append, hblock.2, hblock.1,
        ih bs' _ hbs]
  exact hspans K.blocks K'.blocks 0 h

/-! ## The system of the complement -/

omit [Machine] in
/-- The rows of a system with a symmetric matrix. -/
theorem IsSolution.sum_eq {M : Csc ℝ} {b x : Array ℝ} (h : IsSolution M b x) {r : ℕ}
    (hr : r < M.nrows) :
    ∑ c ∈ Finset.range M.nrows, M.symGet r c * x.getD c 0 = b.getD r 0 := by
  have hrow := congrFun h.2 ⟨r, hr⟩
  rw [Finset.sum_range]
  exact hrow

variable {A : Csc ℝ} {K : Composite ℝ} {x s : Array ℝ}

/-- The rows of a matrix, combined by `Θ²`. -/
theorem mulVec_thetaSq_apply (h : K.Scaled A.ncols x s) (y : Fin A.nrows → ℝ) (r : Fin A.nrows) :
    (A.toMatrix *ᵥ h.thetaSq (A.toMatrixᵀ *ᵥ y)) r =
      ∑ c : Fin A.nrows, ((fun j : Fin A.ncols => A.get r j) ⬝ᵥ
        h.thetaSq fun j : Fin A.ncols => A.get c j) * y c := by
  have hcomb : A.toMatrixᵀ *ᵥ y = ∑ c, y c • fun j : Fin A.ncols => A.get c j := by
    funext j
    simp only [mulVec, dotProduct, transpose_apply, Csc.toMatrix, of_apply, Finset.sum_apply,
      Pi.smul_apply, smul_eq_mul]
    exact Finset.sum_congr rfl fun c _ => mul_comm _ _
  rw [hcomb, map_sum]
  simp only [map_smul]
  show (fun j : Fin A.ncols => A.get r j) ⬝ᵥ (∑ c : Fin A.nrows,
    y c • h.thetaSq fun j : Fin A.ncols => A.get c j) = _
  rw [dotProduct_sum]
  refine Finset.sum_congr rfl fun c _ => ?_
  rw [dotProduct_smul, smul_eq_mul, mul_comm]

/-- A solution of the assembled complement solves the system of `AΘ²Aᵀ`. -/
theorem IsSolution.mulVec_thetaSq {S : Schur ℝ} (hS : S.Fits A K) (hA : A.WellFormed)
    (hK : Composite.ScaledAt K.blocks x.toList s.toList) (h : K.Scaled A.ncols x s)
    {b y : Array ℝ} (hy : IsSolution (S.assemble A K K.reflection).M b y) :
    y.size = A.nrows ∧ A.toMatrix *ᵥ h.thetaSq (A.toMatrixᵀ *ᵥ coords A.nrows y) =
      coords A.nrows b := by
  have hnumel : K.numel ≤ A.ncols := h.numel.le
  have hrows : (S.assemble A K K.reflection).M.nrows = A.nrows :=
    (hS.assemble hA hnumel K.reflection).nrows_eq
  refine ⟨hy.1.trans hrows, funext fun r => ?_⟩
  have hrow := hy.sum_eq (r := r) (by rw [hrows]; exact r.isLt)
  rw [hrows, Finset.sum_range] at hrow
  rw [mulVec_thetaSq_apply, coords_apply, ← hrow]
  refine Finset.sum_congr rfl fun c _ => ?_
  rw [hS.symGet_assemble hA hnumel K.reflection r.isLt c.isLt,
    sum_form_eq (Composite.ScaledAt.reflected hK) h.numel]
  rfl

end Conic.Schur
