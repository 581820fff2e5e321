import Conic.Proofs.Ldl.Calls

/-!
# What the factors are

In exact arithmetic the arrays of a factorisation are the matrices of

```text
L D Lᵀ = P M Pᵀ + E .
```

`L` has ones on its diagonal and what is stored below it.  `D` has the pivots on
its diagonal, and row `k` of `P` has its one in column `perm[k]`.  `E` is
diagonal.  It is what the regularization has added to the pivots that were too
small (`Ldl.FactorsOf`).  A solve then gives the only solution of the system of
`M + Pᵀ E P`.

This holds for the factors of a new object, and for those of an object that has
been used before (`Ldl.factorsOf_of_ok`).
-/

namespace Conic.Ldl

open Finset Matrix

/-! ## The matrices of an object -/

section

variable (F : Ldl ℝ) (n : ℕ)

/-- What is stored of the factor. -/
def stored : Csc ℝ := ⟨F.dim, F.dim, F.colPtr, F.rowIdx, F.values⟩

/-- The unit lower triangular factor. -/
noncomputable def lower : Matrix (Fin n) (Fin n) ℝ := 1 + .of fun i j => F.stored.get i j

/-- The diagonal factor. -/
def pivots : Matrix (Fin n) (Fin n) ℝ := diagonal fun k => F.diag.getD k 0

/-- The matrix of the order. -/
def permutation : Matrix (Fin n) (Fin n) ℝ := .of fun k i => if F.perm.getD k 0 = i then 1 else 0

variable (M : Csc ℝ)

/-- What is left of a diagonal entry in its turn, the candidate for its pivot. -/
noncomputable def candidate (k : Fin M.nrows) : ℝ :=
  (F.permutation M.nrows * M.symMatrix * (F.permutation M.nrows)ᵀ) k k -
    ∑ j with j < k, F.lower M.nrows k j ^ 2 * F.diag.getD j 0

/-- The candidate is below the threshold of a regularization. -/
def TooSmall (reg : Option (Regularization ℝ)) (k : Fin M.nrows) : Prop :=
  ∃ r, reg = some r ∧ F.candidate M k < r.eps

end

variable [Machine]

open Classical in
/-- The object holds the factors of `M`, where the regularization has added `ε` to
the pivots, and solves with them. -/
structure FactorsOf (F : Ldl ℝ) (M : Csc ℝ) (reg : Option (Regularization ℝ))
    (ε : Fin M.nrows → ℝ) : Prop where
  /-- Nothing is stored on the diagonal and above it. -/
  stored_get : ∀ i j : Fin M.nrows, i ≤ j → F.stored.get i j = 0
  /-- The order is a permutation. -/
  permutation_mul : F.permutation M.nrows * (F.permutation M.nrows)ᵀ = 1
  /-- The factors. -/
  product : F.lower M.nrows * F.pivots M.nrows * (F.lower M.nrows)ᵀ =
    F.permutation M.nrows * M.symMatrix * (F.permutation M.nrows)ᵀ + diagonal ε
  /-- Other candidates are the pivots. -/
  kept : ∀ k, ¬ F.TooSmall M reg k → ε k = 0
  /-- A candidate that is too small is replaced. -/
  replaced : ∀ k r, reg = some r → F.candidate M k < r.eps → F.diag.getD k 0 = r.delta
  /-- The replaced pivots are counted. -/
  regularized : F.regularized = Finset.card {k | F.TooSmall M reg k}
  /-- A solve gives the only solution. -/
  solve : ∀ b : Array ℝ, b.size = M.nrows → ∃ x, F.solve? b = some (x, F) ∧ x.size = M.nrows ∧
    ∀ v, (M.symMatrix + (F.permutation M.nrows)ᵀ * diagonal ε * F.permutation M.nrows) *ᵥ v =
      Vec.coords M.nrows b ↔ v = Vec.coords M.nrows x

/-! ## The entries of the matrices -/

section

variable {F : Ldl ℝ} {M : Csc ℝ} {π ι dest : ℕ → ℕ} {c : ℕ → List (ℕ × ℝ)} {ε : ℕ → ℝ}

/-- The pointers of the factor divide its entries into columns. -/
theorem Symbolic.stored_divided (hF : F.Symbolic) : F.stored.Divided := by
  have hfirst {j : ℕ} (hj : j ≤ F.dim) :
      F.stored.first j = columnStart (Stored F.permuted) F.dim j :=
    hF.colPtr.getD (Nat.lt_succ_of_le hj) 0
  exact {
    size_colPtr := hF.colPtr.size
    size_rowIdx := hF.size_rowIdx.trans hF.size_values.symm
    first_zero := hfirst (Nat.zero_le _)
    first_ncols := (hfirst le_rfl).trans hF.size_values.symm
    mono := fun j hj => by
      rw [hfirst (le_of_lt hj), hfirst hj]
      exact columnStart_mono _ (Nat.le_succ j) }

/-- The columns of the factor in storage. -/
theorem Factored.stored_column (h : Factored F c ε) (hF : F.Symbolic) {j : ℕ} (hj : j < F.dim) :
    F.stored.column j = c j := by
  obtain ⟨a, b, ha, hb, hlen, hstored⟩ := h.span_eq hF hj
  have hspan : F.stored.span j = List.range' a (c j).length := by
    rw [← hlen, Csc.span, Csc.first, Csc.first, Array.getD_eq_getD_getElem?,
      Array.getD_eq_getD_getElem?]
    show List.range' (F.colPtr[j]?.getD 0) (F.colPtr[j + 1]?.getD 0 - F.colPtr[j]?.getD 0) = _
    rw [ha, hb, Option.getD_some, Option.getD_some]
  rw [hF.stored_divided.column_eq_map hj, hspan]
  apply List.ext_getElem (by simp)
  intro t ht ht'
  obtain ⟨hr, hv⟩ := hstored t ht'
  rw [List.getElem_map, List.getElem_range', one_mul, Csc.row, Csc.value,
    Array.getD_eq_getD_getElem?, Array.getD_eq_getD_getElem?]
  show (F.rowIdx[a + t]?.getD 0, F.values[a + t]?.getD 0) = _
  rw [hr, hv]
  rfl

theorem Factored.stored_get (h : Factored F c ε) (hF : F.Symbolic) (i : ℕ) {j : ℕ}
    (hj : j < F.dim) : F.stored.get i j = Vec.coefficient (c j) i := by
  rw [Csc.get, h.stored_column hF hj]

theorem Factored.lower_apply (h : Factored F c ε) (hF : F.Symbolic) {n : ℕ} (hn : n = F.dim)
    (i j : Fin n) : F.lower n i j = unitLower c i j := by
  have hj : (j : ℕ) < F.dim := hn ▸ j.isLt
  rw [lower, Matrix.add_apply, Matrix.one_apply, Matrix.of_apply, h.stored_get hF i hj, unitLower]
  by_cases hij : i = j
  · rw [if_pos hij, if_pos (congrArg _ hij), hij, h.coefficient_eq_zero le_rfl, add_zero]
  · rw [if_neg hij, if_neg (Fin.val_ne_of_ne hij), zero_add]

namespace Belongs

variable (hF : Belongs F M π ι dest) (hsq : M.nrows = M.ncols)

include hF hsq

/-- The row of the given matrix at a position. -/
theorem lt_nrows (k : Fin M.nrows) : π k < M.nrows :=
  (hF.inverts.lt k (hsq ▸ k.isLt)).trans_eq hsq.symm

theorem permutation_apply (k i : Fin M.nrows) :
    F.permutation M.nrows k i = if ⟨π k, hF.lt_nrows hsq k⟩ = i then 1 else 0 := by
  rw [permutation, Matrix.of_apply, hF.perm.getD (show (k : ℕ) < M.ncols from hsq ▸ k.isLt)]
  exact if_congr (by rw [Fin.ext_iff]) rfl rfl

theorem permutation_mul_apply (A : Matrix (Fin M.nrows) (Fin M.nrows) ℝ) (k j : Fin M.nrows) :
    (F.permutation M.nrows * A) k j = A ⟨π k, hF.lt_nrows hsq k⟩ j := by
  simp [Matrix.mul_apply, hF.permutation_apply hsq]

theorem mul_permutation_apply (A : Matrix (Fin M.nrows) (Fin M.nrows) ℝ) (i k : Fin M.nrows) :
    (A * (F.permutation M.nrows)ᵀ) i k = A i ⟨π k, hF.lt_nrows hsq k⟩ := by
  simp [Matrix.mul_apply, hF.permutation_apply hsq]

/-- The order is a permutation. -/
theorem permutation_mul_transpose :
    F.permutation M.nrows * (F.permutation M.nrows)ᵀ = 1 := by
  ext k l
  rw [hF.mul_permutation_apply hsq, hF.permutation_apply hsq, Matrix.one_apply]
  refine if_congr ⟨fun heq => ?_, fun heq => heq ▸ rfl⟩ rfl rfl
  have hkl : π k = π l := Fin.mk.inj heq
  rw [Fin.ext_iff, ← hF.inverts.left k (hsq ▸ k.isLt), hkl, hF.inverts.left l (hsq ▸ l.isLt)]

/-- The permuted matrix is the symmetric matrix of the permuted triangle. -/
theorem permuted_apply (hM : M.Valid) (htri : M.IsTriu) (k l : Fin M.nrows) :
    (F.permutation M.nrows * M.symMatrix * (F.permutation M.nrows)ᵀ) k l =
      F.permuted.symGet k l := by
  rw [hF.mul_permutation_apply hsq, hF.permutation_mul_apply hsq,
    hF.permuted.symGet_eq hM hsq htri hF.inverts (hsq ▸ k.isLt) (hsq ▸ l.isLt)]
  rfl

/-- The changes of the pivots in the order of the given matrix. -/
theorem conjugated_diagonal (ε : ℕ → ℝ) :
    (F.permutation M.nrows)ᵀ * diagonal (fun k : Fin M.nrows => ε k) * F.permutation M.nrows =
      diagonal fun r : Fin M.nrows => ε (ι r) := by
  have hcommute : diagonal (fun k : Fin M.nrows => ε k) * F.permutation M.nrows =
      F.permutation M.nrows * diagonal fun r : Fin M.nrows => ε (ι r) := by
    ext k j
    rw [Matrix.diagonal_mul, hF.permutation_mul_apply hsq, hF.permutation_apply hsq,
      Matrix.diagonal_apply, hF.inverts.left k (hsq ▸ k.isLt), mul_ite, mul_one, mul_zero]
  rw [Matrix.mul_assoc, hcommute, ← Matrix.mul_assoc,
    mul_eq_one_comm.mp (hF.permutation_mul_transpose hsq), Matrix.one_mul]

end Belongs

/-! ## The factors of the permuted matrix -/

omit [Machine] in
/-- Counting below `n`. -/
theorem countP_range_eq_card (p : ℕ → Bool) (n : ℕ) :
    (List.range n).countP p = Finset.card {k : Fin n | p k = true} := by
  rw [Finset.card_filter, ← Finset.sum_range fun k => if p k = true then 1 else 0]
  induction n with
  | zero => rfl
  | succ n ih =>
    rw [List.range_succ, List.countP_append, List.countP_singleton, ih, Finset.sum_range_succ]

/-- A pivot that is not replaced stays as it is. -/
theorem repair_of_not_replaced {reg : Option (Regularization ℝ)} {dk : ℝ}
    (h : ¬ (repair reg dk).2 = true) : (repair reg dk).1 = dk := by
  unfold repair at h ⊢
  split
  · split
    · next hlt => simp [hlt] at h
    · rfl
  · rfl

namespace Factored

variable (h : Factored F c ε) (hF : Belongs F M π ι dest)

include h hF

theorem lower_sum (hsq : M.nrows = M.ncols) (k l : Fin M.nrows) :
    ∑ j, F.lower M.nrows k j * F.diag.getD j 0 * F.lower M.nrows l j =
      F.permuted.symGet k l + if k = l then ε k else 0 := by
  have hdim : M.nrows = F.dim := hsq.trans hF.dim_eq.symm
  have hsum := h.symGet_add_eq (k.isLt.trans_eq hdim) (l.isLt.trans_eq hdim)
  rw [← hdim, Finset.sum_range] at hsum
  rw [if_congr Fin.ext_iff rfl rfl, hsum]
  exact Finset.sum_congr rfl fun j _ => by
    rw [h.lower_apply hF.symbolic hdim, h.lower_apply hF.symbolic hdim]

theorem product_eq (hM : M.Valid) (hsq : M.nrows = M.ncols) (htri : M.IsTriu) :
    F.lower M.nrows * F.pivots M.nrows * (F.lower M.nrows)ᵀ =
      F.permutation M.nrows * M.symMatrix * (F.permutation M.nrows)ᵀ +
        diagonal fun k : Fin M.nrows => ε k := by
  ext k l
  rw [Matrix.add_apply, hF.permuted_apply hsq hM htri, Matrix.diagonal_apply,
    ← h.lower_sum hF hsq, Matrix.mul_apply]
  exact Finset.sum_congr rfl fun j _ => by rw [pivots, Matrix.mul_diagonal, Matrix.transpose_apply]

/-- A candidate becomes a pivot by what is added to it. -/
theorem candidate_eq (hM : M.Valid) (hsq : M.nrows = M.ncols) (htri : M.IsTriu) (k : Fin M.nrows) :
    F.candidate M k = F.diag.getD k 0 - ε k := by
  have hdim : M.nrows = F.dim := hsq.trans hF.dim_eq.symm
  have hsum := h.lower_sum hF hsq k k
  rw [if_pos rfl, ← hF.permuted_apply hsq hM htri] at hsum
  -- row `k` of the factor ends with the one on the diagonal
  have hsplit : ∑ j, F.lower M.nrows k j * F.diag.getD j 0 * F.lower M.nrows k j =
      (∑ j with j < k, F.lower M.nrows k j ^ 2 * F.diag.getD j 0) + F.diag.getD k 0 := by
    rw [← Finset.sum_filter_add_sum_filter_not univ (· < k)]
    congr 1
    · exact Finset.sum_congr rfl fun j _ => by ring
    · rw [Finset.sum_eq_single_of_mem k (by simp)]
      · rw [h.lower_apply hF.symbolic hdim, unitLower, if_pos rfl, one_mul, mul_one]
      · intro j hj hne
        have hkj : k < j := lt_of_le_of_ne (not_lt.mp (Finset.mem_filter.mp hj).2) (Ne.symm hne)
        rw [h.lower_apply hF.symbolic hdim, unitLower, if_neg (Fin.val_ne_of_ne hkj.ne),
          h.coefficient_eq_zero (Fin.le_def.mp hkj.le), zero_mul, zero_mul]
  rw [candidate]
  linarith

/-- The candidates that are too small are those that are replaced. -/
theorem tooSmall_iff (hM : M.Valid) (hsq : M.nrows = M.ncols) (htri : M.IsTriu) (k : Fin M.nrows) :
    F.TooSmall M F.regularization k ↔
      (repair F.regularization (F.diag.getD k 0 - ε k)).2 = true := by
  rw [TooSmall, h.candidate_eq hF hM hsq htri]
  cases F.regularization with
  | none => simp [repair]
  | some r =>
    simp only [Option.some.injEq, exists_eq_left', repair]
    split <;> simp_all

/-- The solution of the system with the changed pivots. -/
theorem exists_solution_iff (hM : M.Valid) (hsq : M.nrows = M.ncols) (htri : M.IsTriu)
    {b : Array ℝ} (hb : b.size = M.nrows) : ∃ x, F.solve? b = some (x, F) ∧ x.size = M.nrows ∧
      ∀ v, (M.symMatrix + (F.permutation M.nrows)ᵀ * diagonal (fun k : Fin M.nrows => ε k) *
        F.permutation M.nrows) *ᵥ v = Vec.coords M.nrows b ↔ v = Vec.coords M.nrows x := by
  set A := M.symMatrix + (F.permutation M.nrows)ᵀ * diagonal (fun k : Fin M.nrows => ε k) *
    F.permutation M.nrows with hA
  have hsolves (b : Array ℝ) (hb : b.size = M.nrows) : ∃ x, F.solve? b = some (x, F) ∧
      x.size = M.nrows ∧ A *ᵥ Vec.coords M.nrows x = Vec.coords M.nrows b := by
    obtain ⟨x, hx, hsize, hrow⟩ := h.exists_solution hF hM hsq htri hb
    refine ⟨x, hx, hsize, funext fun r => ?_⟩
    have hr := hrow r r.isLt
    rw [Finset.sum_range] at hr
    rw [hA, hF.conjugated_diagonal hsq, Matrix.add_mulVec, Pi.add_apply, Matrix.mulVec_diagonal]
    exact hr
  -- a system that can always be solved has one solution only
  have hinjective : Function.Injective A.mulVec := by
    rw [Matrix.mulVec_injective_iff_isUnit, ← Matrix.mulVec_surjective_iff_isUnit]
    intro v
    obtain ⟨x, -, -, hx⟩ := hsolves (Array.ofFn v) (by simp)
    exact ⟨Vec.coords M.nrows x, hx.trans (by ext i; simp [Vec.coords, Array.getD])⟩
  obtain ⟨x, hx, hsize, hsolution⟩ := hsolves b hb
  refine ⟨x, hx, hsize, fun v => ⟨fun hv => hinjective (hv.trans hsolution.symm), ?_⟩⟩
  rintro rfl
  exact hsolution

theorem factorsOf (hM : M.Valid) (hsq : M.nrows = M.ncols) (htri : M.IsTriu) :
    FactorsOf F M F.regularization fun k => ε k := by
  classical
  have hdim : M.nrows = F.dim := hsq.trans hF.dim_eq.symm
  have hrepair (k : Fin M.nrows) :
      F.diag.getD k 0 = (repair F.regularization (F.diag.getD k 0 - ε k)).1 :=
    h.exact.pivot k (hdim ▸ k.isLt)
  refine ⟨fun i j hij => ?_, hF.permutation_mul_transpose hsq, h.product_eq hF hM hsq htri,
    fun k hk => ?_, fun k r hreg hlt => ?_, ?_, fun b hb => h.exists_solution_iff hF hM hsq htri hb⟩
  · rw [h.stored_get hF.symbolic i (hdim ▸ j.isLt), h.coefficient_eq_zero (Fin.le_def.mp hij)]
  · rw [h.tooSmall_iff hF hM hsq htri] at hk
    have hpivot := (hrepair k).trans (repair_of_not_replaced hk)
    linarith
  · rw [h.candidate_eq hF hM hsq htri] at hlt
    rw [hrepair k, hreg, repair, if_pos hlt]
  · rw [h.regularized, replacedBelow, ← hdim, countP_range_eq_card,
      Finset.filter_congr fun k _ => (h.tooSmall_iff hF hM hsq htri k).symm]

end Factored

end

/-! ## A triangle with fill -/

section

variable {p q u v h d₁ d₂ c : ℝ} {reg : Option (Regularization ℝ)} {replaced : Bool}

/-- The triangle of three rows whose last row has an entry with each of the others. -/
def hub (p q u v h : ℝ) : Csc ℝ where
  nrows := 3
  ncols := 3
  colPtr := #[0, 1, 2, 5]
  rowIdx := #[0, 1, 0, 1, 2]
  values := #[p, q, u, v, h]

/-- An object of this triangle in the order that begins with the last row.  The factor has an
entry of the other two rows, and the triangle does not. -/
def hubFactors (p q u v h : ℝ) (reg : Option (Regularization ℝ)) (w : Work ℝ) : Ldl ℝ where
  toWork := w
  perm := #[2, 0, 1]
  permuted := ⟨3, 3, #[0, 1, 3, 5], #[0, 1, 0, 2, 0], #[h, p, u, q, v]⟩
  dest := #[1, 3, 2, 4, 0]
  parent := #[some 1, some 2, none]
  colPtr := #[0, 2, 3, 3]
  regularization := reg

/-- What the first factorisation of the object starts from. -/
def hubStart : Work ℝ where
  y := #[0, 0, 0]
  mark := #[3, 3, 3]
  stack := #[0, 0, 0]
  filled := #[0, 0, 0]
  rowIdx := #[0, 0, 0]
  values := #[0, 0, 0]
  diag := #[0, 0, 0]
  regularized := 0

omit [Machine] in
theorem valid_hub : (hub p q u v h).Valid :=
  ⟨⟨rfl, rfl, rfl, rfl, by simp [hub, Csc.first]; decide⟩, by simp [hub]⟩

omit [Machine] in
theorem isTriu_hub : (hub p q u v h).IsTriu := valid_hub.isTriu?_eq_true_iff.mp (by cbv)

/-- A row collects its pattern, eliminates the columns of the pattern, and stores its pivot
if that is positive. -/
theorem row?_eq {F : Ldl ℝ} {k : ℕ} {w w₁ w₂ : Work ℝ} {pattern : List ℕ} {d dk a : ℝ}
    {y diag : Array ℝ} (hcollect : F.collect? k w = some (w₁, pattern)) (hd : w₁.y[k]? = some d)
    (hy : update? w₁.y k (fun _ => 0) = some y)
    (hloop : pattern.foldlM (F.eliminate? k) ({ w₁ with y := y }, d) = some (w₂, dk))
    (hpivot : repair F.regularization dk = (a, replaced))
    (hdiag : update? w₂.diag k (fun _ => a) = some diag) :
    F.row? k w = some (if 0 < a then
        ({ w₂ with
          diag := diag
          regularized := if replaced then w₂.regularized + 1 else w₂.regularized }, none)
      else
        ({ w₂ with regularized := if replaced then w₂.regularized + 1 else w₂.regularized },
          some .zeroPivot)) := by
  rw [row?, hcollect]
  by_cases ha : 0 < a
  · simp [hd, hy, hloop, hpivot, refusal?_eq_none_iff.mpr ha, hdiag, ha]
  · have hrefused : refusal? a = some .zeroPivot := by simp [refusal?, not_lt.mp ha]
    simp [hd, hy, hloop, hpivot, hrefused, ha]

/-- The first two rows have the pivots of the last and of the first row of the triangle. -/
theorem rows?_hub (hh : 0 < h) (h₀ : repair reg h = (h, false))
    (h₁ : repair reg (p - u / h * u) = (d₁, false)) (hd₁ : 0 < d₁) (ks : List ℕ) :
    (hubFactors p q u v h reg hubStart).rows? (0 :: 1 :: ks) hubStart =
      (hubFactors p q u v h reg hubStart).rows? ks ⟨#[0, 0, 0], #[1, 1, 3], #[0, 0, 0], #[1, 0, 0],
        #[1, 0, 0], #[u / h, 0, 0], #[h, d₁, 0], 0⟩ := by
  set F := hubFactors p q u v h reg hubStart
  have hcollect₀ : F.collect? 0 hubStart = some (⟨#[0 + h, 0, 0], #[0, 3, 3], #[0, 0, 0],
      #[0, 0, 0], #[0, 0, 0], #[0, 0, 0], #[0, 0, 0], 0⟩, []) := by cbv
  have hcollect₁ : F.collect? 1 ⟨#[0, 0, 0], #[0, 3, 3], #[0, 0, 0], #[0, 0, 0], #[0, 0, 0],
      #[0, 0, 0], #[h, 0, 0], 0⟩ = some (⟨#[0 + u, 0 + p, 0], #[1, 1, 3], #[0, 0, 0], #[0, 0, 0],
      #[0, 0, 0], #[0, 0, 0], #[h, 0, 0], 0⟩, [0]) := by cbv
  have hloop₁ (x y : ℝ) : [0].foldlM (F.eliminate? 1) (⟨#[x, 0, 0], #[1, 1, 3], #[0, 0, 0],
      #[0, 0, 0], #[0, 0, 0], #[0, 0, 0], #[h, 0, 0], 0⟩, y) = some (⟨#[0, 0, 0], #[1, 1, 3],
      #[0, 0, 0], #[1, 0, 0], #[1, 0, 0], #[x / h, 0, 0], #[h, 0, 0], 0⟩, y - x / h * x) := by cbv
  have hrow₀ : F.row? 0 hubStart = some (⟨#[0, 0, 0], #[0, 3, 3], #[0, 0, 0], #[0, 0, 0],
      #[0, 0, 0], #[0, 0, 0], #[h, 0, 0], 0⟩, none) := by
    rw [zero_add] at hcollect₀
    exact (row?_eq hcollect₀ rfl rfl rfl h₀ rfl).trans (congrArg some (if_pos hh))
  have hrow₁ : F.row? 1 ⟨#[0, 0, 0], #[0, 3, 3], #[0, 0, 0], #[0, 0, 0], #[0, 0, 0], #[0, 0, 0],
      #[h, 0, 0], 0⟩ = some (⟨#[0, 0, 0], #[1, 1, 3], #[0, 0, 0], #[1, 0, 0], #[1, 0, 0],
      #[u / h, 0, 0], #[h, d₁, 0], 0⟩, none) := by
    rw [zero_add, zero_add] at hcollect₁
    exact (row?_eq hcollect₁ rfl rfl (hloop₁ u p) h₁ rfl).trans (congrArg some (if_pos hd₁))
  rw [rows?, hrow₀]
  simp only
  rw [rows?, hrow₁]

/-- The last row computes the entry that the triangle does not have. -/
theorem row?_hub (hc : 0 - u / h * v = c)
    (h₂ : repair reg (q - v / h * v - c / d₁ * c) = (d₂, replaced)) :
    (hubFactors p q u v h reg hubStart).row? 2 ⟨#[0, 0, 0], #[1, 1, 3], #[0, 0, 0], #[1, 0, 0],
        #[1, 0, 0], #[u / h, 0, 0], #[h, d₁, 0], 0⟩ =
      some (if 0 < d₂ then (⟨#[0, 0, 0], #[2, 2, 2], #[0, 0, 1], #[2, 1, 0], #[1, 2, 2],
          #[u / h, v / h, c / d₁], #[h, d₁, d₂], if replaced then 1 else 0⟩, none)
        else (⟨#[0, 0, 0], #[2, 2, 2], #[0, 0, 1], #[2, 1, 0], #[1, 2, 2],
          #[u / h, v / h, c / d₁], #[h, d₁, 0], if replaced then 1 else 0⟩, some .zeroPivot)) := by
  set F := hubFactors p q u v h reg hubStart
  have hcollect (l : ℝ) : F.collect? 2 ⟨#[0, 0, 0], #[1, 1, 3], #[0, 0, 0], #[1, 0, 0],
      #[1, 0, 0], #[l, 0, 0], #[h, d₁, 0], 0⟩ = some (⟨#[0 + v, 0, 0 + q], #[2, 2, 2], #[0, 0, 1],
      #[1, 0, 0], #[1, 0, 0], #[l, 0, 0], #[h, d₁, 0], 0⟩, [0, 1]) := by cbv
  have hloop (l x y : ℝ) : [0, 1].foldlM (F.eliminate? 2) (⟨#[x, 0, 0], #[2, 2, 2],
      #[0, 0, 1], #[1, 0, 0], #[1, 0, 0], #[l, 0, 0], #[h, d₁, 0], 0⟩, y) =
      some (⟨#[0, 0, 0], #[2, 2, 2], #[0, 0, 1], #[2, 1, 0], #[1, 2, 2],
        #[l, x / h, (0 - l * x) / d₁], #[h, d₁, 0], 0⟩,
        y - x / h * x - (0 - l * x) / d₁ * (0 - l * x)) := by cbv
  specialize hcollect (u / h)
  specialize hloop (u / h) v q
  rw [zero_add, zero_add] at hcollect
  rw [hc] at hloop
  exact row?_eq hcollect rfl rfl hloop h₂ rfl

/-- The factors of the triangle. -/
theorem ofOrder_hub (hh : 0 < h) (h₀ : repair reg h = (h, false))
    (h₁ : repair reg (p - u / h * u) = (d₁, false)) (hd₁ : 0 < d₁) (hc : 0 - u / h * v = c)
    (h₂ : repair reg (q - v / h * v - c / d₁ * c) = (d₂, replaced)) :
    ofOrder (hub p q u v h) #[2, 0, 1] reg =
      if 0 < d₂ then .ok (hubFactors p q u v h reg ⟨#[0, 0, 0], #[2, 2, 2], #[0, 0, 1], #[2, 1, 0],
        #[1, 2, 2], #[u / h, v / h, c / d₁], #[h, d₁, d₂], if replaced then 1 else 0⟩)
      else .error (.cause .zeroPivot) := by
  have hstart : start? (hub p q u v h) #[2, 0, 1] reg =
      some (hubFactors p q u v h reg hubStart) := by cbv
  have hwork : (hubFactors p q u v h reg hubStart).work = hubStart := by cbv
  have hrange : List.range (hubFactors p q u v h reg hubStart).dim = [0, 1, 2] := rfl
  rw [ofOrder_eq hstart, refactor?, hwork, hrange, rows?_hub hh h₀ h₁ hd₁, rows?, row?_hub hc h₂]
  by_cases hd₂ : 0 < d₂
  · simp [hd₂, rows?]
    rfl
  · simp [hd₂]

end

/-! ## New objects and old ones -/

/-- A factorisation that succeeds holds the factors of the loaded values. -/
theorem Belongs.factorsOf_of_refactor? {F F' : Ldl ℝ} {M : Csc ℝ} {π ι dest : ℕ → ℕ}
    (hF : Belongs F M π ι dest) (hM : M.Valid) (hsq : M.nrows = M.ncols) (htri : M.IsTriu)
    (h : F.refactor? = some (F', none)) : ∃ ε, FactorsOf F' M F.regularization ε := by
  obtain ⟨w, e, hrefactor, hsymbolic, hfactored, -⟩ := hF.symbolic.exists_factored
  rw [h, Option.some.injEq, Prod.mk.injEq] at hrefactor
  obtain ⟨rfl, rfl⟩ := hrefactor
  obtain ⟨c, ε, hfactored⟩ := hfactored rfl
  exact ⟨_, hfactored.factorsOf (hF.store hsymbolic) hM hsq htri⟩

/-- Whenever an object is made or its values are factored again, the factors are
those of the matrix, and a solve gives the solution.  The order may be any. -/
theorem factorsOf_of_ok {M : Csc ℝ} (hM : M.Valid) (hsq : M.nrows = M.ncols) (htri : M.IsTriu)
    {reg : Option (Regularization ℝ)} {F₀ : Ldl ℝ} (h : factor M reg = .ok F₀ ∨
      ∃ perm, Ordering.isOrder M.ncols perm.toList = true ∧ ofOrder M perm reg = .ok F₀) :
    (∃ ε, FactorsOf F₀ M reg ε) ∧
      ∀ calls : List (Call ℝ), (∀ b, .solve b ∈ calls → b.size = M.ncols) →
        ∃ F, run? F₀ calls = some F ∧ ∀ F', F.refactor? = some (F', none) →
          ∃ ε, FactorsOf F' (current M calls) reg ε := by
  obtain ⟨perm, hperm, h⟩ : ∃ perm, Ordering.isOrder M.ncols perm.toList = true ∧
      ofOrder M perm reg = .ok F₀ := by
    rcases h with h | h
    · obtain ⟨perm, -, hperm, hfactor⟩ := exists_factor hM hsq htri reg
      exact ⟨perm, hperm, hfactor ▸ h⟩
    · exact h
  have hcarries := Carries.of_ofOrder hM hsq htri hperm h
  refine ⟨?_, fun calls hb => ?_⟩
  · obtain ⟨G, π, ι, dest, hG, hbelongs, rfl⟩ := exists_start? hM hsq hperm reg
    rw [ofOrder_eq hG] at h
    split at h
    next F' hrefactor =>
      cases h
      exact hbelongs.factorsOf_of_refactor? hM hsq htri hrefactor
    next => cases h
    next => cases h
  · obtain ⟨F, hrun, -, hF⟩ := hcarries.exists_run? hb
    obtain ⟨π, ι, dest, hbelongs⟩ := hF.belongs
    refine ⟨F, hrun, fun F' hrefactor => ?_⟩
    have hfactors := hbelongs.factorsOf_of_refactor? hF.valid hF.square hF.isTriu hrefactor
    rwa [hF.regularization_eq] at hfactors

omit [Machine] in
/-- A triangle with fill, and a last pivot that is replaced. -/
theorem factorsOf_hub : letI := Machine.double
    let M : Csc ℝ := hub 5 1 2 2 4
    let reg : Option (Regularization ℝ) := some ⟨1 / 2, 2⟩
    let F₀ : Ldl ℝ := hubFactors 5 1 2 2 4 reg ⟨#[0, 0, 0], #[2, 2, 2], #[0, 0, 1], #[2, 1, 0],
      #[1, 2, 2], #[1 / 2, 1 / 2, -(1 / 4)], #[4, 4, 2], 1⟩
    M.Valid ∧ M.nrows = M.ncols ∧ M.IsTriu ∧ Ordering.isOrder M.ncols [2, 0, 1] = true ∧
      ofOrder M #[2, 0, 1] reg = .ok F₀ ∧ (∃ ε, FactorsOf F₀ M reg ε) ∧
      ∀ calls : List (Call ℝ), (∀ b, .solve b ∈ calls → b.size = M.ncols) →
        ∃ F, run? F₀ calls = some F ∧ ∀ F', F.refactor? = some (F', none) →
          ∃ ε, FactorsOf F' (current M calls) reg ε := by
  let _ := Machine.double
  intro M reg F₀
  have hmade : ofOrder M #[2, 0, 1] reg = .ok F₀ := by
    have h₀ : repair reg (4 : ℝ) = (4, false) := by norm_num [reg, repair]
    have h₁ : repair reg (5 - 2 / 4 * 2 : ℝ) = (4, false) := by norm_num [reg, repair]
    have h₂ : repair reg (1 - 2 / 4 * 2 - -1 / 4 * -1 : ℝ) = (2, true) := by
      norm_num [reg, repair]
    have hfactors := ofOrder_hub four_pos h₀ h₁ four_pos (by norm_num) h₂
    norm_num at hfactors
    exact hfactors
  have hperm : Ordering.isOrder M.ncols [2, 0, 1] = true := by decide
  exact ⟨valid_hub, rfl, isTriu_hub, hperm, hmade,
    factorsOf_of_ok valid_hub rfl isTriu_hub (.inr ⟨#[2, 0, 1], hperm, hmade⟩)⟩

end Conic.Ldl
