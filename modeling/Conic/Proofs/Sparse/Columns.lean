import Conic.Proofs.Ldl.Permute
import Conic.Proofs.Sparse.Dense

/-!
# Matrices from columns

`Csc.ofColumns` lays out any list of columns as a matrix, and its columns are
those of the list (`Csc.column_ofColumns`).  The columns of a matrix in another
order are laid out like that (`Csc.permuteColumns?_eq`).
-/

namespace Conic.Csc

variable {α : Type}

/-- The matrix with the given columns, each a list of rows and values. -/
def ofColumns (m : ℕ) (cols : List (List (ℕ × α))) : Csc α where
  nrows := m
  ncols := cols.length
  colPtr := Ldl.runningSums (cols.map List.length)
  rowIdx := (cols.flatten.map Prod.fst).toArray
  values := (cols.flatten.map Prod.snd).toArray

section

variable {m : ℕ} {cols : List (List (ℕ × α))}

theorem first_ofColumns {k : ℕ} (hk : k ≤ cols.length) :
    (ofColumns m cols).first k = ((cols.map List.length).take k).sum :=
  (Ldl.holds_runningSums (cols.map List.length)).getD (by simpa using Nat.lt_succ_of_le hk) 0

theorem divided_ofColumns (m : ℕ) (cols : List (List (ℕ × α))) : (ofColumns m cols).Divided where
  size_colPtr := by
    have hsize := (Ldl.holds_runningSums (cols.map List.length)).size
    rwa [List.length_map] at hsize
  size_rowIdx := by simp only [nnz, ofColumns, List.size_toArray, List.length_map]
  first_zero := by rw [first_ofColumns (Nat.zero_le _), List.take_zero, List.sum_nil]
  first_ncols := by
    refine (first_ofColumns le_rfl).trans ?_
    rw [← List.length_map List.length, List.take_length, ← List.length_flatten]
    simp only [nnz, ofColumns, List.size_toArray, List.length_map]
  mono j hj := by
    have hj : j < cols.length := hj
    rw [first_ofColumns hj, first_ofColumns hj.le, List.take_add_one, List.sum_append]
    exact Nat.le_add_right _ _

theorem column_ofColumns {k : ℕ} (hk : k < cols.length) :
    (ofColumns m cols).column k = cols[k] := by
  have hpiece := List.drop_take_succ_flatten_eq_getElem cols k hk
  rw [List.drop_take] at hpiece
  rw [(divided_ofColumns m cols).column_eq hk, first_ofColumns hk, first_ofColumns hk.le,
    Array.toList_zip]
  simp only [ofColumns, List.extract_toArray, List.extract_eq_take_drop]
  rw [← List.map_drop, ← List.map_drop, ← List.map_take (f := Prod.fst),
    ← List.map_take (f := Prod.snd), hpiece]
  exact (List.zip_of_prod rfl rfl).symm

/-- Columns whose rows increase make a matrix. -/
theorem wellFormed_ofColumns (h : ∀ col ∈ cols, (col.map Prod.fst).Pairwise (· < ·) ∧
    ∀ e ∈ col, e.1 < m) : (ofColumns m cols).WellFormed where
  toDivided := divided_ofColumns m cols
  row_lt := by
    intro r hr
    simp only [ofColumns, List.mem_map, List.mem_flatten] at hr
    obtain ⟨e, ⟨col, hcol, he⟩, rfl⟩ := hr
    exact (h col hcol).2 e he
  sorted := by
    intro k hk
    rw [column_ofColumns hk]
    exact (h _ (List.getElem_mem _)).1

end

theorem foldl_append_eq {β γ : Type} (f : γ → Array β) (l : List γ) (acc : Array β) :
    (l.foldl (fun acc x => acc ++ f x) acc).toList =
      acc.toList ++ l.flatMap fun x => (f x).toList := by
  induction l generalizing acc with
  | nil => simp
  | cons x l ih =>
    rw [List.foldl_cons, ih, List.flatMap_cons, Array.toList_append, List.append_assoc]

/-- Columns can be brought into another order. -/
theorem permuteColumns?_eq {A : Csc α} (hA : A.Divided) {perm : List ℕ}
    (h : ∀ j ∈ perm, j < A.ncols) :
    A.permuteColumns? perm = some (ofColumns A.nrows (perm.map A.column)) := by
  have hcols : (perm.mapM fun src => do pure (← A.rows? src, ← A.vals? src)) =
      some (perm.map fun j => (A.rowIdx.extract (A.first j) (A.first (j + 1)),
        A.values.extract (A.first j) (A.first (j + 1)))) :=
    Loop.mapM_eq_some _ fun j hj => by simp [hA.rows?_eq (h j hj), hA.vals?_eq (h j hj)]
  have hlength : (perm.map fun j => (A.values.extract (A.first j) (A.first (j + 1))).size) =
      (perm.map A.column).map List.length := by
    rw [List.map_map]
    refine List.map_congr_left fun j hj => ?_
    rw [Function.comp_apply, ← List.length_map Prod.snd, hA.map_snd_column (h j hj),
      Array.length_toList]
  have hrows : (perm.flatMap fun j => (A.rowIdx.extract (A.first j) (A.first (j + 1))).toList) =
      (perm.map A.column).flatten.map Prod.fst := by
    rw [List.map_flatten, List.map_map, ← List.flatMap_def]
    exact List.flatMap_congr fun j hj => (hA.map_fst_column (h j hj)).symm
  have hvals : (perm.flatMap fun j => (A.values.extract (A.first j) (A.first (j + 1))).toList) =
      (perm.map A.column).flatten.map Prod.snd := by
    rw [List.map_flatten, List.map_map, ← List.flatMap_def]
    exact List.flatMap_congr fun j hj => (hA.map_snd_column (h j hj)).symm
  rw [permuteColumns?, hcols, ofColumns, ← hlength, ← hrows, ← hvals, Ldl.runningSums]
  simp only [Option.bind_eq_bind, Option.bind_some, Option.pure_def, Option.some.injEq, mk.injEq,
    List.length_map, List.foldl_map, true_and]
  refine ⟨?_, ?_⟩
  · rw [← Array.toList_inj, foldl_append_eq]
    rfl
  · rw [← Array.toList_inj, foldl_append_eq]
    rfl

end Conic.Csc
