import Conic.Proofs.Ldl.Exact

/-!
# Solving with the factors

The factors solve the system in three passes.  The pass down solves with `L`,
the pass up solves with `Lᵀ`, and between them the entries are divided by the
pivots.  Together they solve the system of the permuted triangle
(`Factored.sum_symGet_eq`).  The permuted triangle stands for the permuted
symmetric matrix (`Permuted.symGet_eq`), so the entries that are moved back to
their rows solve the given system (`Factored.solve_eq`).

A solve succeeds with any values in the factors, and the scratch row is zero
again when it ends (`Belongs.exists_solve?`).
-/

namespace Conic.Csc

open Finset

/-! ## Sums over all entries -/

/-- A sum over the cells is a sum over the dense matrix. -/
theorem sum_cells {A : Csc ℝ} (hA : A.Valid) (g : ℕ → ℕ → ℝ) :
    (A.cells.map fun p => A.value p.2 * g (A.row p.2) p.1).sum =
      ∑ j ∈ range A.ncols, ∑ i ∈ range A.nrows, A.get i j * g i j := by
  have hcolumn : ∀ j ∈ range A.ncols, ∑ i ∈ range A.nrows, A.get i j * g i j =
      ((A.span j).map fun idx => A.value idx * g (A.row idx) j).sum := by
    intro j hj
    have hj := mem_range.mp hj
    rw [← sum_column hA hj fun i => g i j, hA.column_eq_map hj, List.map_map]
    rfl
  rw [Finset.sum_congr rfl hcolumn, cells, List.map_flatMap, List.flatMap_def, List.sum_flatten,
    List.map_map]
  simp only [Function.comp_def, List.map_map]
  rfl

/-- The matrix with the entry `v`. -/
def single (v : ℝ) : Csc ℝ where
  nrows := 1
  ncols := 1
  colPtr := #[0, 1]
  rowIdx := #[0]
  values := #[v]

end Conic.Csc

namespace Conic.Ldl

open Finset

/-! ## The permuted symmetric matrix -/

section

variable {M P : Csc ℝ} {π ι dest : ℕ → ℕ}

/-- The entries with one target are mirror images of each other. -/
theorem target_eq_iff {n : ℕ} (hπ : Inverts n π ι) {i j r c : ℕ} (hi : i < n) (hj : j < n)
    (hij : i ≤ j) (hrc : r ≤ c) (hc : c < n) :
    (min (ι i) (ι j) = r ∧ max (ι i) (ι j) = c) ↔
      i = min (π r) (π c) ∧ j = max (π r) (π c) := by
  have hr := hrc.trans_lt hc
  constructor
  · rintro ⟨rfl, rfl⟩
    rcases le_total (ι i) (ι j) with h | h
    · rw [min_eq_left h, max_eq_right h, hπ.right i hi, hπ.right j hj]
      exact ⟨(min_eq_left hij).symm, (max_eq_right hij).symm⟩
    · rw [min_eq_right h, max_eq_left h, hπ.right i hi, hπ.right j hj]
      exact ⟨(min_eq_right hij).symm, (max_eq_left hij).symm⟩
  · rintro ⟨rfl, rfl⟩
    rcases le_total (π r) (π c) with h | h
    · rw [min_eq_left h, max_eq_right h, hπ.left r hr, hπ.left c hc]
      exact ⟨min_eq_left hrc, max_eq_right hrc⟩
    · rw [min_eq_right h, max_eq_left h, hπ.left r hr, hπ.left c hc]
      exact ⟨min_eq_right hrc, max_eq_left hrc⟩

/-- The permuted triangle has the entries of the permuted symmetric matrix. -/
theorem Permuted.get_eq (hP : Permuted M P ι dest) (hM : M.Valid) (hsq : M.nrows = M.ncols)
    (htri : M.IsTriu) (hπ : Inverts M.ncols π ι) {r c : ℕ} (hrc : r ≤ c) (hc : c < M.ncols) :
    P.get r c = M.symGet (π r) (π c) := by
  have hr := hrc.trans_lt hc
  -- both sides are the sum over all entries with the target `(r, c)`
  set g : ℕ → ℕ → ℝ := fun i j => if i = r ∧ j = c then 1 else 0 with hg
  have hleft : (P.cells.map fun p => P.value p.2 * g (P.row p.2) p.1).sum = P.get r c := by
    rw [Csc.sum_cells hP.valid, hP.ncols_eq, hP.nrows_eq,
      Finset.sum_eq_single_of_mem c (mem_range.mpr hc),
      Finset.sum_eq_single_of_mem r (mem_range.mpr hr)]
    · simp [hg]
    · intro i _ hi
      simp [hg, hi]
    · intro j _ hj
      simp [hg, hj]
  have hmoved : (P.cells.map fun p => P.value p.2 * g (P.row p.2) p.1).sum =
      (M.cells.map fun p => M.value p.2 *
        g (min (ι (M.row p.2)) (ι p.1)) (max (ι (M.row p.2)) (ι p.1))).sum := by
    rw [(hP.cells.map fun p => P.value p.2 * g (P.row p.2) p.1).sum_eq, List.map_map]
    congr 1
    refine List.map_congr_left fun p hp => ?_
    simp only [Function.comp, hP.value p hp, hP.row p hp, target]
  rw [← hleft, hmoved, Csc.sum_cells hM fun i j => g (min (ι i) (ι j)) (max (ι i) (ι j)), hsq]
  have hterm : ∀ j ∈ range M.ncols, ∀ i ∈ range M.ncols,
      M.get i j * g (min (ι i) (ι j)) (max (ι i) (ι j)) =
        if j = max (π r) (π c) then if i = min (π r) (π c) then M.get i j else 0 else 0 := by
    intro j hj i hi
    have hj := mem_range.mp hj
    have hi := mem_range.mp hi
    by_cases hij : i ≤ j
    · have hiff := target_eq_iff hπ hi hj hij hrc hc
      by_cases h : i = min (π r) (π c) ∧ j = max (π r) (π c)
      · rw [show g _ _ = 1 from if_pos (hiff.mpr h), if_pos h.2, if_pos h.1, mul_one]
      · rw [show g _ _ = 0 from if_neg fun h' => h (hiff.mp h'), mul_zero]
        split
        next hj' => rw [if_neg fun hi' => h ⟨hi', hj'⟩]
        next => rfl
    · rw [htri.get_eq_zero hj (not_le.mp hij)]
      simp
  rw [Finset.sum_congr rfl fun j hj => Finset.sum_congr rfl (hterm j hj)]
  have hmax : max (π r) (π c) < M.ncols := max_lt (hπ.lt r hr) (hπ.lt c hc)
  rw [Finset.sum_eq_single_of_mem _ (mem_range.mpr hmax),
    Finset.sum_eq_single_of_mem _ (mem_range.mpr (min_le_max.trans_lt hmax))]
  · simp [Csc.symGet]
  · intro i _ hi
    simp [hi]
  · intro j _ hj
    simp [hj]

theorem Permuted.symGet_eq (hP : Permuted M P ι dest) (hM : M.Valid) (hsq : M.nrows = M.ncols)
    (htri : M.IsTriu) (hπ : Inverts M.ncols π ι) {r c : ℕ} (hr : r < M.ncols) (hc : c < M.ncols) :
    P.symGet r c = M.symGet (π r) (π c) := by
  rcases le_total r c with h | h
  · rw [Csc.symGet, min_eq_left h, max_eq_right h, hP.get_eq hM hsq htri hπ h hc]
  · rw [Csc.symGet, min_eq_right h, max_eq_left h, hP.get_eq hM hsq htri hπ h hr, Csc.symGet_comm]

end

/-! ## Moving entries into the order and back -/

section

variable {α : Type} [Scalar α] {F : Ldl α} {M : Csc α} {π ι dest : ℕ → ℕ}

/-- The right-hand side in the order of the factors. -/
def gathered (F : Ldl α) (π : ℕ → ℕ) (b : Array α) : Array α :=
  ((List.range F.dim).map fun k => b.getD (π k) 0).toArray

@[simp] theorem size_gathered (F : Ldl α) (π : ℕ → ℕ) (b : Array α) :
    (gathered F π b).size = F.dim := by
  simp [gathered]

/-- Solving succeeds if both passes do.  It moves their result back and leaves the
object as it was. -/
theorem Belongs.exists_solve?_of_passes (hF : Belongs F M π ι dest) {b z u : Array α}
    (hb : b.size = M.ncols) (hz : (List.range F.dim).foldlM (forward? F) (gathered F π b) = some z)
    (hu : (List.range F.dim).reverse.foldlM (backward? F)
      (Array.zipWith (fun x d => x / d) z F.diag) = some u) (husize : u.size = F.dim) :
    ∃ x, F.solve? b = some (x, F) ∧ x.size = M.ncols ∧
      ∀ k < F.dim, x.getD (π k) 0 = u.getD k 0 := by
  have hdim := hF.dim_eq
  have hperm := hF.perm
  have hπ := hF.inverts
  rw [← hdim] at hb hperm hπ ⊢
  have hysize : F.y.size = F.dim := by simp [hF.symbolic.y, Vec.zeros]
  have hgather : ((List.range F.y.size).zip F.perm.toList).foldlM
      (fun x e => do let v ← b[e.2]?; update? x e.1 fun _ => v) F.y = some (gathered F π b) := by
    obtain ⟨ys, hys, hsize, hget, -⟩ := Loop.exists_foldlM_store (n := F.dim) (d := id)
      (fun k => b.getD (π k) 0) (a := F.y) (fun k hk => hysize.symm ▸ hk) fun k _ l _ h => h
    have heq : ys = gathered F π b :=
      Holds.ext ⟨hsize.trans hysize, hget⟩ (Holds.of_toList (f := fun k => b.getD (π k) 0) rfl)
    rw [← heq, ← hys, hysize, hperm.toList]
    rw [show (List.range F.dim).zip ((List.range F.dim).map π) =
      (List.range F.dim).map fun k => (k, π k) by
        apply List.ext_getElem (by simp)
        intro i hi hi'
        simp, List.foldlM_map]
    refine Loop.foldlM_congr (fun k hk x => ?_) F.y
    have hk := hπ.lt k (List.mem_range.mp hk)
    simp [Array.getD, hb, hk]
  obtain ⟨x, hx, hxsize, hplaced, -⟩ := Loop.exists_foldlM_store (n := F.dim) (d := π)
    (fun k => u.getD k 0) (a := b) (fun k hk => hb.symm ▸ hπ.lt k hk) fun k hk l hl heq => by
      rw [← hπ.left k hk, heq, hπ.left l hl]
  have hzip : (F.perm.zip u).toList = (List.range F.dim).map fun k => (π k, u.getD k 0) := by
    have hholds := Holds.of_getD u 0
    rw [husize] at hholds
    rw [Array.toList_zip, hperm.toList, hholds.toList, List.zip_map']
  have hclean : Vec.fill u 0 = F.y := by
    rw [hF.symbolic.y]
    exact (Holds.const_map husize 0).ext (Holds.replicate F.dim 0)
  refine ⟨x, ?_, hxsize.trans hb, fun k hk => ?_⟩
  · simp only [Option.bind_eq_bind] at hgather
    simp only [solve?, hgather, hz, hu, hzip, List.foldlM_map, Option.bind_eq_bind,
      Option.bind_some, hx, hclean, Option.pure_def]
  · rw [Array.getD_eq_getD_getElem?, hplaced k hk, Option.getD_some]

/-- The entries of a column in storage can be read, whatever they are. -/
theorem Symbolic.exists_entry (hF : F.Symbolic) {j : ℕ} (hj : j < F.dim) :
    ∃ a b, F.colPtr[j]? = some a ∧ F.colPtr[j + 1]? = some b ∧ ∀ p ∈ List.range' a (b - a),
      ∃ r v, F.rowIdx[p]? = some r ∧ F.values[p]? = some v ∧ r < F.dim := by
  refine ⟨_, _, hF.colPtr.get j (by omega), hF.colPtr.get (j + 1) (by omega), fun p hp => ?_⟩
  have hfirst := columnStart_mono (E := Stored F.permuted) F.dim (Nat.le_add_right j 1)
  have hlast := columnStart_mono (E := Stored F.permuted) F.dim (show j + 1 ≤ F.dim from hj)
  have hp : p < columnStart (Stored F.permuted) F.dim F.dim := by
    obtain ⟨_, hp⟩ := List.mem_range'_1.mp hp
    omega
  have hr : p < F.rowIdx.size := hF.size_rowIdx.symm ▸ hp
  have hv : p < F.values.size := hF.size_values.symm ▸ hp
  exact ⟨F.rowIdx[p], F.values[p], Array.getElem?_eq_getElem hr, Array.getElem?_eq_getElem hv,
    hF.rowIdx_lt _ (Array.getElem_mem hr)⟩

/-- One column of the pass down succeeds. -/
theorem Symbolic.exists_forward? (hF : F.Symbolic) {j : ℕ} (hj : j < F.dim) {x : Array α}
    (hx : x.size = F.dim) : ∃ y, forward? F x j = some y ∧ y.size = F.dim := by
  obtain ⟨a, b, ha, hb, hentry⟩ := hF.exists_entry hj
  have hxj : x[j]? = some x[j] := Array.getElem?_eq_getElem (hx.symm ▸ hj)
  obtain ⟨y, hy, hsize⟩ := Loop.exists_foldlM (l := List.range' a (b - a))
    (f := subtract? F.rowIdx F.values x[j]) (s := x) (fun _ y => y.size = F.dim) hx
    fun done p rest heq y hy => by
      obtain ⟨r, v, hr, hv, hlt⟩ := hentry p (heq ▸ by simp)
      refine ⟨y.modify r (· - v * x[j]), ?_, by simpa using hy⟩
      simp only [subtract?, hr, hv, Option.bind_eq_bind, Option.bind_some,
        update?_of_lt _ (hy.symm ▸ hlt)]
  refine ⟨y, ?_, hsize⟩
  simp only [forward?, hxj, ha, hb, Option.bind_eq_bind, Option.bind_some, hy]

/-- One entry of the pass up can be computed. -/
theorem Symbolic.exists_backward? (hF : F.Symbolic) {j : ℕ} (hj : j < F.dim) {x : Array α}
    (hx : x.size = F.dim) : ∃ y, backward? F x j = some y ∧ y.size = F.dim := by
  obtain ⟨a, b, ha, hb, hentry⟩ := hF.exists_entry hj
  have hxj : x[j]? = some x[j] := Array.getElem?_eq_getElem (hx.symm ▸ hj)
  obtain ⟨s, hs, -⟩ := Loop.exists_foldlM (l := List.range' a (b - a))
    (f := fun s p => do
      let v ← F.values[p]?
      let xi ← x[← F.rowIdx[p]?]?
      pure (s - v * xi)) (s := x[j]) (fun _ _ => True) trivial
    fun done p rest heq s _ => by
      obtain ⟨r, v, hr, hv, hlt⟩ := hentry p (heq ▸ by simp)
      have hxr : x[r]? = some x[r] := Array.getElem?_eq_getElem (hx.symm ▸ hlt)
      exact ⟨s - v * x[r], by simp only [hr, hv, hxr, Option.bind_eq_bind, Option.bind_some,
        Option.pure_def], trivial⟩
  refine ⟨x.modify j fun _ => s, ?_, by simpa using hx⟩
  simp only [Option.bind_eq_bind, Option.pure_def] at hs
  simp only [backward?, hxj, ha, hb, Option.bind_eq_bind, Option.bind_some, Option.pure_def, hs,
    update?_of_lt _ (hx.symm ▸ hj)]

/-- Solving succeeds and leaves the object as it was. -/
theorem Belongs.exists_solve? (hF : Belongs F M π ι dest) {b : Array α} (hb : b.size = M.ncols) :
    ∃ x, F.solve? b = some (x, F) := by
  obtain ⟨z, hz, hzsize⟩ := Loop.exists_foldlM_range (n := F.dim) (f := forward? F)
    (fun _ x => x.size = F.dim) (size_gathered F π b) fun j hj x hx =>
      hF.symbolic.exists_forward? hj hx
  have hysize : (Array.zipWith (fun x d => x / d) z F.diag).size = F.dim := by
    rw [Array.size_zipWith, hzsize]
    exact min_self _
  obtain ⟨u, hu, husize⟩ := Loop.exists_foldlM_range_reverse (n := F.dim) (f := backward? F)
    (fun _ x => x.size = F.dim) hysize fun j hj x hx => hF.symbolic.exists_backward? hj hx
  obtain ⟨x, hx, -⟩ := hF.exists_solve?_of_passes hb hz hu husize
  exact ⟨x, hx⟩

end

/-! ## The passes -/

section

variable [Machine] {F : Ldl ℝ} {c : ℕ → List (ℕ × ℝ)} {ε : ℕ → ℝ}

/-- Reading column `j` of the factor. -/
theorem Factored.span_eq (h : Factored F c ε) (hF : F.Symbolic) {j : ℕ} (hj : j < F.dim) :
    ∃ a b, F.colPtr[j]? = some a ∧ F.colPtr[j + 1]? = some b ∧ b - a = (c j).length ∧
      StoredAt F.rowIdx F.values a (c j) := by
  refine ⟨_, _, hF.colPtr.get j (by omega), hF.colPtr.get (j + 1) (by omega), ?_, h.stored j hj⟩
  have hlen := congrArg List.length (h.rows j)
  rw [List.length_map] at hlen
  rw [columnStart_succ, hlen]
  omega

/-- The rows of a column of the factor come after the column. -/
theorem Factored.row_mem (h : Factored F c ε) {j : ℕ} {e : ℕ × ℝ} (he : e ∈ c j) :
    j < e.1 ∧ e.1 < F.dim := by
  have hmem := List.mem_map_of_mem (f := Prod.fst) he
  rw [h.rows j, mem_rowsBelow] at hmem
  exact ⟨hmem.2.lt, hmem.1⟩

theorem Factored.coefficient_eq_zero (h : Factored F c ε) {i j : ℕ} (hij : i ≤ j) :
    Vec.coefficient (c j) i = 0 :=
  Vec.coefficient_eq_zero fun _ he => ((hij.trans_lt (h.row_mem he).1).ne')

/-- The pass down solves with `L`. -/
theorem Factored.exists_forward (h : Factored F c ε) (hF : F.Symbolic) {b : Array ℝ}
    (hb : b.size = F.dim) : ∃ z, (List.range F.dim).foldlM (forward? F) b = some z ∧
      z.size = F.dim ∧ ∀ i < F.dim, z.getD i 0 +
        ∑ j ∈ range F.dim, Vec.coefficient (c j) i * z.getD j 0 = b.getD i 0 := by
  refine Loop.exists_foldlM_range (n := F.dim) (f := forward? F)
    (fun k z => z.size = F.dim ∧ ∀ i < F.dim, z.getD i 0 +
      ∑ j ∈ range k, Vec.coefficient (c j) i * z.getD j 0 = b.getD i 0) ⟨hb, by simp⟩ ?_
  rintro k hk z ⟨hsize, hz⟩
  obtain ⟨s, e, hs, he, hlen, hstored⟩ := h.span_eq hF hk
  have hzk : z[k]? = some (z.getD k 0) := by simp [Array.getD, hsize, hk]
  have hsub := foldlM_subtract? (z.getD k 0) hstored (y := z) fun e he =>
    hsize.symm ▸ (h.row_mem he).2
  refine ⟨subtracted (z.getD k 0) (c k) z, ?_, by simpa using hsize, fun i hi => ?_⟩
  · simp only [forward?, hzk, hs, he, hlen, hsub, Option.bind_eq_bind, Option.bind_some]
  · -- the entries up to `k` are final
    have hfinal : ∀ j ∈ range (k + 1), Vec.coefficient (c j) i *
        (subtracted (z.getD k 0) (c k) z).getD j 0 = Vec.coefficient (c j) i * z.getD j 0 := by
      intro j hj
      have hj := Nat.lt_succ_iff.mp (mem_range.mp hj)
      rw [getD_subtracted _ (by omega), h.coefficient_eq_zero hj, mul_zero, sub_zero]
    rw [Finset.sum_congr rfl hfinal, getD_subtracted _ (by omega), Finset.sum_range_succ, ← hz i hi]
    ring

omit [Machine] in
/-- The entries of a column in storage, weighted by a vector, are subtracted one
after the other. -/
theorem foldlM_weighted {rowIdx : Array ℕ} {values x : Array ℝ} {col : List (ℕ × ℝ)} {a : ℕ} (t : ℝ)
    (h : StoredAt rowIdx values a col) (hrow : ∀ e ∈ col, e.1 < x.size) :
    (List.range' a col.length).foldlM (fun s p => do
      let v ← values[p]?
      let xi ← x[← rowIdx[p]?]?
      pure (s - v * xi)) t = some (t - (col.map fun e => e.2 * x.getD e.1 0).sum) := by
  induction col generalizing a t with
  | nil => simp
  | cons e col ih =>
    obtain ⟨hr, hv⟩ := h 0 (by simp)
    have hxe : x[e.1]? = some (x.getD e.1 0) := by
      have he := hrow e (by simp)
      simp [Array.getD, he]
    simp only [Nat.add_zero, List.getElem_cons_zero] at hr hv
    have hstep : (do
        let v ← values[a]?
        let xi ← x[← rowIdx[a]?]?
        pure (t - v * xi)) = some (t - e.2 * x.getD e.1 0) := by
      simp only [hr, hv, hxe, Option.bind_eq_bind, Option.bind_some, Option.pure_def]
    rw [List.length_cons, List.range'_succ, List.foldlM_cons, hstep]
    refine (ih (t - e.2 * x.getD e.1 0) h.tail fun e' he' => hrow e' (by simp [he'])).trans ?_
    rw [List.map_cons, List.sum_cons, sub_sub]

/-- One entry of the pass up. -/
theorem Factored.exists_backward? (h : Factored F c ε) (hF : F.Symbolic) {j : ℕ} (hj : j < F.dim)
    {x : Array ℝ} (hx : x.size = F.dim) :
    backward? F x j = some (x.modify j fun _ =>
      x.getD j 0 - ∑ i ∈ range F.dim, Vec.coefficient (c j) i * x.getD i 0) := by
  obtain ⟨s, e, hs, he, hlen, hstored⟩ := h.span_eq hF hj
  have hxj : x[j]? = some (x.getD j 0) := by simp [Array.getD, hx, hj]
  have hsum := foldlM_weighted (x := x) (x.getD j 0) hstored fun e he =>
    hx.symm ▸ (h.row_mem he).2
  rw [Vec.sum_mul_eq_sum_coefficient (fun e he => (h.row_mem he).2) fun i => x.getD i 0] at hsum
  simp only [backward?, hxj, hs, he, hlen, Option.bind_eq_bind, Option.bind_some]
  simp only [Option.bind_eq_bind] at hsum
  rw [hsum, Option.bind_some]
  exact update?_of_lt _ (hx.symm ▸ hj)

/-- The pass up solves with `Lᵀ`. -/
theorem Factored.exists_backward (h : Factored F c ε) (hF : F.Symbolic) {y : Array ℝ}
    (hy : y.size = F.dim) : ∃ x, (List.range F.dim).reverse.foldlM (backward? F) y = some x ∧
      x.size = F.dim ∧ ∀ j < F.dim, x.getD j 0 +
        ∑ i ∈ range F.dim, Vec.coefficient (c j) i * x.getD i 0 = y.getD j 0 := by
  obtain ⟨x, hx, hsize, hdone, -⟩ := Loop.exists_foldlM_range_reverse (n := F.dim) (s := y)
    (f := backward? F) (fun k x => x.size = F.dim ∧ (∀ j < F.dim, k ≤ j → x.getD j 0 +
      ∑ i ∈ range F.dim, Vec.coefficient (c j) i * x.getD i 0 = y.getD j 0) ∧
      ∀ j < k, x.getD j 0 = y.getD j 0)
    ⟨hy, fun j hj hnj => absurd hj (not_lt.mpr hnj), fun _ _ => rfl⟩ (by
      rintro k hk x ⟨hsize, hdone, hleft⟩
      refine ⟨_, h.exists_backward? hF hk hsize, by simpa using hsize, fun j hj hkj => ?_,
        fun j hj => ?_⟩
      · -- the equations of later columns do not see entry `k`
        have hsum : ∀ i ∈ range F.dim, Vec.coefficient (c j) i * (x.modify k fun _ => x.getD k 0 -
            ∑ i ∈ range F.dim, Vec.coefficient (c k) i * x.getD i 0).getD i 0 =
              Vec.coefficient (c j) i * x.getD i 0 := by
          intro i hi
          rw [Vec.getD_modify _ _ _ (hsize.symm ▸ mem_range.mp hi)]
          by_cases hki : k = i
          · rw [← hki, h.coefficient_eq_zero hkj, zero_mul, zero_mul]
          · rw [if_neg hki]
        rw [Finset.sum_congr rfl hsum, Vec.getD_modify _ _ _ (hsize.symm ▸ hj)]
        rcases hkj.eq_or_lt with rfl | hkj
        · rw [if_pos rfl, sub_add_cancel]
          exact hleft k (Nat.lt_succ_self k)
        · rw [if_neg hkj.ne]
          exact hdone j hj hkj
      · rw [Vec.getD_modify _ _ _ (hsize.symm ▸ hj.trans hk), if_neg hj.ne']
        exact hleft j (Nat.lt_succ_of_lt hj))
  exact ⟨x, hx, hsize, fun j hj => hdone j hj (Nat.zero_le j)⟩

/-- The equations of the factorisation, for both triangles. -/
theorem Factored.symGet_add_eq (h : Factored F c ε) {i k : ℕ} (hi : i < F.dim) (hk : k < F.dim) :
    F.permuted.symGet i k + (if i = k then ε i else 0) =
      ∑ j ∈ range F.dim, unitLower c i j * F.diag.getD j 0 * unitLower c k j := by
  rw [Csc.symGet]
  rcases le_total i k with hik | hki
  · rw [min_eq_left hik, max_eq_right hik, ← h.exact.row k hk i hik]
    split
    next heq => rw [heq]
    next => rfl
  · rw [min_eq_right hki, max_eq_left hki]
    have hrow := h.exact.row i hi k hki
    simp only [eq_comm (a := k)] at hrow
    rw [hrow]
    exact Finset.sum_congr rfl fun j _ => by ring

/-- The factors times a vector, from the results of the passes. -/
theorem Factored.sum_symGet_eq (h : Factored F c ε) {x y z b : ℕ → ℝ}
    (hz : ∀ i < F.dim, z i + ∑ j ∈ range F.dim, Vec.coefficient (c j) i * z j = b i)
    (hy : ∀ j < F.dim, F.diag.getD j 0 * y j = z j)
    (hx : ∀ j < F.dim, x j + ∑ i ∈ range F.dim, Vec.coefficient (c j) i * x i = y j) {i : ℕ}
    (hi : i < F.dim) :
    (∑ k ∈ range F.dim, F.permuted.symGet i k * x k) + ε i * x i = b i := by
  set d : ℕ → ℝ := fun i => F.diag.getD i 0 with hd
  have hlower (i j : ℕ) : unitLower c i j = Vec.coefficient (c j) i + if i = j then 1 else 0 := by
    rw [unitLower]
    split
    next heq => rw [heq, h.coefficient_eq_zero le_rfl, zero_add]
    next => rw [add_zero]
  have hsum (f : ℕ → ℝ) {i : ℕ} (hi : i < F.dim) : ∑ j ∈ range F.dim, unitLower c i j * f j =
      f i + ∑ j ∈ range F.dim, Vec.coefficient (c j) i * f j := by
    simp only [hlower, add_mul, ite_mul, one_mul, zero_mul, Finset.sum_add_distrib,
      Finset.sum_ite_eq, mem_range, hi, if_true]
    rw [add_comm]
  have hsum' (f : ℕ → ℝ) {j : ℕ} (hj : j < F.dim) : ∑ k ∈ range F.dim, unitLower c k j * f k =
      f j + ∑ k ∈ range F.dim, Vec.coefficient (c j) k * f k := by
    simp only [hlower, add_mul, ite_mul, one_mul, zero_mul, Finset.sum_add_distrib,
      Finset.sum_ite_eq', mem_range, hj, if_true]
    rw [add_comm]
  have hentry : ∀ k ∈ range F.dim, F.permuted.symGet i k * x k + (if i = k then ε i * x i else 0) =
      ∑ j ∈ range F.dim, unitLower c i j * (d j * (unitLower c k j * x k)) := by
    intro k hk
    have hmul := congrArg (· * x k) (h.symGet_add_eq hi (mem_range.mp hk))
    simp only [add_mul, ite_mul, zero_mul, Finset.sum_mul] at hmul
    rw [show (if i = k then ε i * x i else 0) = if i = k then ε i * x k else 0 by
      split
      next heq => rw [heq]
      next => rfl, hmul]
    exact Finset.sum_congr rfl fun j _ => by ring
  calc (∑ k ∈ range F.dim, F.permuted.symGet i k * x k) + ε i * x i
      = ∑ k ∈ range F.dim, (F.permuted.symGet i k * x k + if i = k then ε i * x i else 0) := by
        rw [Finset.sum_add_distrib, Finset.sum_ite_eq, if_pos (mem_range.mpr hi)]
    _ = ∑ k ∈ range F.dim, ∑ j ∈ range F.dim,
          unitLower c i j * (d j * (unitLower c k j * x k)) := Finset.sum_congr rfl hentry
    _ = ∑ j ∈ range F.dim, unitLower c i j * (d j * ∑ k ∈ range F.dim, unitLower c k j * x k) := by
        rw [Finset.sum_comm]
        simp only [Finset.mul_sum]
    _ = ∑ j ∈ range F.dim, unitLower c i j * z j := by
        refine Finset.sum_congr rfl fun j hj => ?_
        have hj := mem_range.mp hj
        rw [hsum' x hj, hx j hj, hy j hj]
    _ = b i := by rw [hsum z hi, hz i hi]

variable {M : Csc ℝ} {π ι dest : ℕ → ℕ}

/-- Solving succeeds.  Each entry of the solution is an entry of the solution of
the permuted system. -/
theorem Factored.exists_solve? (h : Factored F c ε) (hF : Belongs F M π ι dest) {b : Array ℝ}
    (hb : b.size = M.ncols) : ∃ x, F.solve? b = some (x, F) ∧ x.size = M.ncols ∧
      ∀ i < F.dim, (∑ k ∈ range F.dim, F.permuted.symGet i k * x.getD (π k) 0) +
        ε i * x.getD (π i) 0 = b.getD (π i) 0 := by
  obtain ⟨z, hz, hzsize, hforward⟩ := h.exists_forward hF.symbolic (size_gathered F π b)
  have hysize : (Array.zipWith (fun x d => x / d) z F.diag).size = F.dim := by
    rw [Array.size_zipWith, hzsize]
    exact min_self _
  obtain ⟨u, hu, husize, hbackward⟩ := h.exists_backward hF.symbolic hysize
  obtain ⟨x, hx, hxsize, hval⟩ := hF.exists_solve?_of_passes hb hz hu husize
  refine ⟨x, hx, hxsize, fun i hi => ?_⟩
  have hdiv (j : ℕ) (hj : j < F.dim) : F.diag.getD j 0 *
      (Array.zipWith (fun x d => x / d) z F.diag).getD j 0 = z.getD j 0 := by
    have hjz : j < z.size := hzsize.symm ▸ hj
    have hjd : j < F.diag.size := hj
    have hquot : (Array.zipWith (fun x d => x / d) z F.diag).getD j 0 =
        z.getD j 0 / F.diag.getD j 0 := by
      simp [hjz, hjd]
    rw [hquot]
    exact mul_div_cancel₀ _ (h.exact.pos j hj).ne'
  have hsolve := h.sum_symGet_eq (x := fun k => u.getD k 0) hforward hdiv hbackward hi
  rw [hval i hi]
  refine Eq.trans ?_ (hsolve.trans (by simp [gathered, Array.getD, hi]))
  congr 1
  exact Finset.sum_congr rfl fun k hk => by rw [hval k (mem_range.mp hk)]

/-- The solution solves the system of the symmetric matrix, with the changes of the
pivots on its diagonal. -/
theorem Factored.exists_solution (h : Factored F c ε) (hF : Belongs F M π ι dest) (hM : M.Valid)
    (hsq : M.nrows = M.ncols) (htri : M.IsTriu) {b : Array ℝ} (hb : b.size = M.nrows) :
    ∃ x, F.solve? b = some (x, F) ∧ x.size = M.nrows ∧ ∀ r < M.nrows,
      (∑ k ∈ range M.nrows, M.symGet r k * x.getD k 0) + ε (ι r) * x.getD r 0 = b.getD r 0 := by
  obtain ⟨x, hx, hxsize, hsolve⟩ := h.exists_solve? hF (hb.trans hsq)
  have hdim := hF.dim_eq
  refine ⟨x, hx, hxsize.trans hsq.symm, fun r hr => ?_⟩
  rw [hsq] at hr ⊢
  have hrow := hsolve (ι r) (hdim ▸ hF.inverts.inv_lt r hr)
  rw [hF.inverts.right r hr, hdim] at hrow
  have hentry : ∀ k ∈ range M.ncols, F.permuted.symGet (ι r) k * x.getD (π k) 0 =
      M.symGet r (π k) * x.getD (π k) 0 := by
    intro k hk
    rw [hF.permuted.symGet_eq hM hsq htri hF.inverts (hF.inverts.inv_lt r hr) (mem_range.mp hk),
      hF.inverts.right r hr]
  rw [Finset.sum_congr rfl hentry] at hrow
  have hreindex : ∑ k ∈ range M.ncols, M.symGet r (π k) * x.getD (π k) 0 =
      ∑ k ∈ range M.ncols, M.symGet r k * x.getD k 0 := by
    refine Finset.sum_nbij' π ι (fun k hk => ?_) (fun k hk => ?_) (fun k hk => ?_) (fun k hk => ?_)
      fun k _ => rfl
    · exact mem_range.mpr (hF.inverts.lt k (mem_range.mp hk))
    · exact mem_range.mpr (hF.inverts.inv_lt k (mem_range.mp hk))
    · exact hF.inverts.left k (mem_range.mp hk)
    · exact hF.inverts.right k (mem_range.mp hk)
  rwa [hreindex] at hrow

/-- Without regularization the factors solve the system of the symmetric
matrix. -/
theorem Factored.solve_eq (h : Factored F c ε) (hF : Belongs F M π ι dest) (hM : M.Valid)
    (hsq : M.nrows = M.ncols) (htri : M.IsTriu) (hreg : F.regularization = none) {b : Array ℝ}
    (hb : b.size = M.nrows) : (F.solve b).size = M.nrows ∧
      M.symMatrix.mulVec (Vec.coords M.nrows (F.solve b)) = Vec.coords M.nrows b := by
  obtain ⟨x, hx, hxsize, hsolve⟩ := h.exists_solution hF hM hsq htri hb
  rw [solve, hx, Option.map_some, Option.getD_some]
  refine ⟨hxsize, funext fun r => ?_⟩
  have hr : ι r < F.dim := hF.dim_eq ▸ hF.inverts.inv_lt r (hsq ▸ r.isLt)
  have hrow := hsolve r r.isLt
  rw [h.exact.eq_zero hreg hr, zero_mul, add_zero, Finset.sum_range] at hrow
  simpa [Matrix.mulVec, dotProduct, Csc.symMatrix, Vec.coords] using hrow

end

/-! ## Matrices with one entry -/

section

variable [Machine] {v d : ℝ}

/-- The object of the matrix with the entry `v`.  Its node is marked with `mark`,
its pivot is `d`, and `count` pivots have been replaced. -/
def single (v : ℝ) (reg : Option (Regularization ℝ)) (mark : ℕ) (d : ℝ) (count : ℕ) : Ldl ℝ where
  y := #[0]
  mark := #[mark]
  stack := #[0]
  filled := #[0]
  rowIdx := #[]
  values := #[]
  diag := #[d]
  regularized := count
  perm := #[0]
  permuted := .single v
  dest := #[0]
  parent := #[none]
  colPtr := #[0, 0]
  regularization := reg

/-- The entry is the pivot, if it is not replaced. -/
theorem refactor?_single (reg : Option (Regularization ℝ)) (mark count : ℕ) (d₀ : ℝ)
    {replaced : Bool} (hpivot : repair reg v = (d, replaced)) (hd : 0 < d) :
    (single v reg mark d₀ count).refactor? =
      some (single v reg 0 d (if replaced then 1 else 0), none) := by
  have hcollect : collect? (single v reg mark d₀ count) 0 (single v reg mark d₀ count).work =
      some (⟨#[0 + v], #[0], #[0], #[0], #[], #[], #[d₀], 0⟩, []) := by cbv
  have haccepted : refusal? d = none := by simp [refusal?, hd]
  have hrow : row? (single v reg mark d₀ count) 0 (single v reg mark d₀ count).work =
      some (⟨#[0], #[0], #[0], #[0], #[], #[], #[d], if replaced then 1 else 0⟩, none) := by
    rw [row?, hcollect]
    simp [update?, single, hpivot, haccepted]
  have hrange : List.range (single v reg mark d₀ count).dim = [0] := rfl
  rw [refactor?, hrange]
  simp [rows?, hrow]
  rfl

theorem factor_single (reg : Option (Regularization ℝ)) {replaced : Bool}
    (hpivot : repair reg v = (d, replaced)) (hd : 0 < d) :
    factor (.single v) reg = .ok (single v reg 0 d (if replaced then 1 else 0)) := by
  have htri : (Csc.single v).isTriu? = some true := by cbv
  have horder : order (.single v) = .ok #[0] := by cbv
  have hpermute : permuteTriu? (.single v) #[0] = some (.single v, #[0]) := by cbv
  have hanalyse : analyse? (.single v) = some (#[none], #[0, 0]) := by cbv
  have hstart : start? (.single v) #[0] reg = some (single v reg 1 0 0) := by
    simp only [start?, hpermute, hanalyse, Option.bind_eq_bind, Option.bind_some]
    rfl
  have hfactors : ofOrder (.single v) #[0] reg =
      .ok (single v reg 0 d (if replaced then 1 else 0)) := by
    rw [ofOrder_eq hstart, refactor?_single reg 1 0 0 hpivot hd]
  rw [factor, guard_eq_ok_iff, bind_eq_ok_iff]
  refine ⟨by simp [Csc.single], true, Fault.ofOption_eq_ok_iff.mpr htri, ?_⟩
  rw [guard_eq_ok_iff, bind_eq_ok_iff]
  exact ⟨by simp, _, horder, hfactors⟩

theorem solve_single (reg : Option (Regularization ℝ)) (mark count : ℕ) (b : ℝ) :
    (single v reg mark d count).solve #[b] = #[b / d] := by cbv

end

end Conic.Ldl
