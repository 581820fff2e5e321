import Conic.Proofs.Ldl.Agreement

/-!
# The places of the entries

`Ldl.permuteTriu?` answers with the permuted triangle and with the place in it of every
entry.  An object keeps the places and puts all values there that are loaded later, without
looking at the order or at the rows again.

`Ldl.MovesEntries` says what the places have to be.  Every position is the place of one
entry.  The row and the column of the entry there are the positions of its own ones in the
order, the smaller one first.  The statement reads these positions off the order.  It does
not speak of the inverse that is built for the loops, which gives the same positions
(`Inverts.idxOf_eq`).

Loading values once is the same as permuting them, and so is loading values any number of
times (`Ldl.permuteTriu?_loads`).  A load of all values leaves nothing of those before it
(`Ldl.foldl_overwrite_concat`).  `Ldl.movesEntries_of_perm` says all of this of every square
triangle and every order.
-/

namespace Conic

/-- The entry `idx` of a matrix stands in row `i` and column `j` and has the value `v`. -/
structure Csc.EntryAt {α : Type} (A : Csc α) (idx i j : ℕ) (v : α) : Prop where
  col_lt : j < A.ncols
  mem_span : idx ∈ A.span j
  row : A.rowIdx[idx]? = some i
  value : A.values[idx]? = some v

namespace Ldl

/-- The entries of the triangle `M` stand in the triangle `P` of the order `perm`, each of them
at its place. -/
structure MovesEntries {α : Type} (M P : Csc α) (perm places : Array ℕ) : Prop where
  nrows_eq : P.nrows = M.ncols
  ncols_eq : P.ncols = M.ncols
  valid : P.Valid
  isTriu : P.IsTriu
  nnz_eq : P.nnz = M.nnz
  /-- Every position is the place of exactly one entry. -/
  perm_places : places.toList.Perm (List.range P.nnz)
  /-- An entry keeps its value.  Its row and its column become their positions in the order, with
  the smaller one as the row. -/
  entry : ∀ idx i j v, M.EntryAt idx i j v → ∃ k, places[idx]? = some k ∧
    P.EntryAt k (min (perm.toList.idxOf i) (perm.toList.idxOf j))
      (max (perm.toList.idxOf i) (perm.toList.idxOf j)) v

/-! ## Places in terms of the order -/

section

variable {α : Type} [Zero α] {M P : Csc α} {perm places : Array ℕ} {π ι dest : ℕ → ℕ}

/-- An entry of `M` stands at its place, in the row and the column that the inverse gives. -/
theorem Permuted.entryAt (hP : Permuted M P ι dest) (hM : M.Divided) {idx i j : ℕ} {v : α}
    (h : M.EntryAt idx i j v) : P.EntryAt (dest idx) (min (ι i) (ι j)) (max (ι i) (ι j)) v := by
  have hp : (j, idx) ∈ M.cells := Csc.mem_cells.mpr ⟨h.col_lt, h.mem_span⟩
  obtain ⟨hc, hk⟩ := Csc.mem_cells.mp (hP.mem_cells hp)
  obtain rfl : M.row idx = i :=
    Option.some.inj ((hM.row_eq h.col_lt h.mem_span).symm.trans h.row)
  obtain rfl : M.value idx = v :=
    Option.some.inj ((hM.value_eq h.col_lt h.mem_span).symm.trans h.value)
  refine ⟨hc, hk, ?_, ?_⟩
  · rw [hP.divided.row_eq hc hk, hP.row _ hp]
    rfl
  · rw [hP.divided.value_eq hc hk, hP.value _ hp]

theorem Permuted.perm_places (hP : Permuted M P ι dest) (hM : M.Divided)
    (hplaces : Holds places M.nnz dest) : places.toList.Perm (List.range P.nnz) := by
  have hcells : places.toList = M.cells.map fun p => dest p.2 := by
    rw [hplaces.toList, ← hM.map_snd_cells, List.map_map]
    rfl
  exact hcells ▸ hP.perm_dest

theorem Permuted.movesEntries (hP : Permuted M P ι dest) (hM : M.Valid)
    (hsq : M.nrows = M.ncols) (hplaces : Holds places M.nnz dest) (hπ : Holds perm M.ncols π)
    (hinverts : Inverts M.ncols π ι) (hperm : perm.toList.Perm (List.range M.ncols)) :
    MovesEntries M P perm places := by
  refine ⟨hP.nrows_eq, hP.ncols_eq, hP.valid, hP.isTriu, hP.nnz_eq hM.toDivided,
    hP.perm_places hM.toDivided hplaces, fun idx i j v h => ⟨dest idx, ?_, ?_⟩⟩
  · exact hplaces.get idx ((Csc.mem_span.mp h.mem_span).2.trans_le (hM.first_succ_le_nnz h.col_lt))
  · have hi : i < M.ncols := by
      have hlt := hM.row_lt_of_mem_span h.col_lt h.mem_span
      rwa [Option.some.inj ((hM.row_eq h.col_lt h.mem_span).symm.trans h.row), hsq] at hlt
    rw [hinverts.idxOf_eq hπ hperm hi, hinverts.idxOf_eq hπ hperm h.col_lt]
    exact hP.entryAt hM.toDivided h

end

/-! ## Loading values again and again -/

section

variable {α : Type} [Scalar α] {M : Csc α} {perm : Array ℕ}

/-- However often values are loaded into an object with the permuted triangle, it holds what
permuting the current ones gives. -/
theorem permuteTriu?_loads (hM : M.Valid) (hsq : M.nrows = M.ncols)
    (hperm : Ordering.isOrder M.ncols perm.toList = true) {F : Ldl α}
    (h : permuteTriu? M perm = some (F.permuted, F.dest)) (loads : List (Array α)) :
    permuteTriu? (loads.foldl overwrite M) perm =
      some ((loads.foldl updateValues F).permuted, F.dest) := by
  induction loads generalizing F M with
  | nil => exact h
  | cons values loads ih =>
    exact ih (valid_overwrite hM values) hsq hperm (permuteTriu?_overwrite hM hsq hperm h values)

omit [Scalar α] in
/-- Loading values changes values only. -/
theorem exists_foldl_overwrite (M : Csc α) (loads : List (Array α)) :
    ∃ vs, vs.size = M.nnz ∧ loads.foldl overwrite M = { M with values := vs } := by
  induction loads generalizing M with
  | nil => exact ⟨M.values, rfl, rfl⟩
  | cons values loads ih =>
    obtain ⟨vs, hsize, hvs⟩ := ih (overwrite M values)
    exact ⟨vs, hsize.trans (nnz_overwrite M values), hvs⟩

omit [Scalar α] in
/-- Loading all values leaves none of those that were loaded before. -/
theorem foldl_overwrite_concat (M : Csc α) (loads : List (Array α)) {values : Array α}
    (h : values.size = M.nnz) :
    (loads ++ [values]).foldl overwrite M = { M with values := values } := by
  obtain ⟨vs, hsize, hvs⟩ := exists_foldl_overwrite M loads
  rw [List.foldl_concat, hvs]
  exact overwrite_of_size_eq (h.trans hsize.symm)

/-- A square triangle can be permuted in every order, and each entry moves to its place.  An
object with the permuted triangle and the places holds what permuting gives, whatever values
are loaded into it. -/
theorem movesEntries_of_perm (hM : M.Divided) (hsq : M.nrows = M.ncols) (htri : M.IsTriu)
    (hperm : perm.toList.Perm (List.range M.ncols)) :
    ∃ P places, permuteTriu? M perm = some (P, places) ∧ MovesEntries M P perm places ∧
      ∀ F : Ldl α, F.permuted = P → F.dest = places → ∀ loads : List (Array α),
        permuteTriu? (loads.foldl overwrite M) perm =
          some ((loads.foldl updateValues F).permuted, places) ∧
        ∀ values, values.size = M.nnz → permuteTriu? { M with values := values } perm =
          some (((loads.foldl updateValues F).updateValues values).permuted, places) := by
  have hvalid := hM.valid_of_isTriu htri hsq
  have horder := isOrder_iff_perm_range.mpr hperm
  obtain ⟨P, places, π, ι, dest, hpermute, hπ, hinverts, hplaces, hP⟩ :=
    exists_permuteTriu? hvalid hsq horder
  refine ⟨P, places, hpermute, hP.movesEntries hvalid hsq hplaces hπ hinverts hperm, ?_⟩
  rintro F rfl rfl loads
  refine ⟨permuteTriu?_loads hvalid hsq horder hpermute loads, fun values hvalues => ?_⟩
  have hall := permuteTriu?_loads hvalid hsq horder hpermute (loads ++ [values])
  rwa [foldl_overwrite_concat M loads hvalues, List.foldl_concat] at hall

/-- Row 2 comes first in the order.  So the two entries at its diagonal go to the first column,
and the entry at row 0 and column 2 changes sides. -/
theorem movesEntries_scrambled :
    let P : Csc Float := ⟨3, 3, #[0, 2, 4, 6], #[0, 0, 1, 0, 2, 1], #[4, 1, 4, 1, 4, 1]⟩
    let places := #[2, 4, 5, 0, 3, 1]
    (scrambled.Divided ∧ scrambled.nrows = scrambled.ncols ∧ scrambled.IsTriu ∧
      [2, 0, 1].Perm (List.range scrambled.ncols)) ∧
    permuteTriu? scrambled #[2, 0, 1] = some (P, places) ∧
    MovesEntries scrambled P #[2, 0, 1] places ∧
    ∀ F : Ldl Float, F.permuted = P → F.dest = places → ∀ loads : List (Array Float),
      permuteTriu? (loads.foldl overwrite scrambled) #[2, 0, 1] =
        some ((loads.foldl updateValues F).permuted, places) ∧
      ∀ values, values.size = scrambled.nnz →
        permuteTriu? { scrambled with values := values } #[2, 0, 1] =
          some (((loads.foldl updateValues F).updateValues values).permuted, places) := by
  intro P places
  have hM : scrambled.Divided := ⟨rfl, rfl, rfl, rfl, by decide⟩
  have htri : scrambled.IsTriu := hM.isTriu?_eq_true_iff.mp (by cbv)
  have hperm : [2, 0, 1].Perm (List.range scrambled.ncols) := by decide
  have hpermute : permuteTriu? scrambled #[2, 0, 1] = some (P, places) := by cbv
  obtain ⟨P', places', hpermute', hmoves⟩ := movesEntries_of_perm hM rfl htri hperm
  obtain ⟨rfl, rfl⟩ := Prod.mk.inj (Option.some.inj (hpermute.symm.trans hpermute'))
  exact ⟨⟨hM, rfl, htri, hperm⟩, hpermute, hmoves⟩

end

end Ldl

end Conic
