import Conic.Proofs.Ldl.Permute
import Conic.Proofs.Sparse.Dense
import Conic.Proofs.Sparse.Lookup

/-!
# The pattern of the Schur complement

The pattern is built from squares of rows.  Every column of it is strictly
increasing and ends on or above the diagonal (`Schur.IsPattern`), it has its
diagonal entry, and for two rows of a square it has the entry in the upper
triangle at these rows (`Schur.mem_pattern`).

The matrix `Schur.ofPattern` is a well-formed upper triangle.  An entry of the
pattern is stored where `Schur.locate` finds it, and different entries are
stored at different places (`Schur.locate_inj`).
-/

namespace Conic.Schur

/-- The columns of an upper triangle of dimension `m`: each of them is strictly
increasing and ends with its diagonal entry. -/
structure IsPattern (m : ℕ) (columns : Array (List ℕ)) : Prop where
  /-- There are as many columns as rows. -/
  size : columns.size = m
  /-- The rows of a column increase. -/
  increasing : ∀ col ∈ columns.toList, col.Pairwise (· < ·)
  /-- No row is below the diagonal. -/
  le : ∀ c (h : c < columns.size), ∀ r ∈ columns[c], r ≤ c
  /-- The diagonal is there. -/
  diag : ∀ c (h : c < columns.size), c ∈ columns[c]

/-- A square of rows of a matrix with `m` rows. -/
def IsSquare (m : ℕ) (rows : List ℕ) : Prop := rows.Pairwise (· < ·) ∧ ∀ r ∈ rows, r < m

theorem isPattern_start (m : ℕ) : IsPattern m (((List.range m).map fun r => [r]).toArray) where
  size := by simp
  increasing := by simp
  le := by simp
  diag := by simp

/-- Widening one column by rows above it keeps a pattern. -/
theorem IsPattern.modify {m : ℕ} {columns : Array (List ℕ)} (h : IsPattern m columns) {r : ℕ}
    {new : List ℕ} (hnew : ∀ x ∈ new, x ≤ r) :
    IsPattern m (columns.modify r fun col => sorted (col ++ new)) where
  size := by simpa using h.size
  increasing col hcol := by
    obtain ⟨c, hc, rfl⟩ := List.getElem_of_mem hcol
    rw [Array.getElem_toList, Array.getElem_modify]
    split
    · exact pairwise_sorted _
    · exact h.increasing _ (Array.getElem_mem_toList _)
  le c hc x hx := by
    have hc' : c < columns.size := by simpa using hc
    rw [Array.getElem_modify] at hx
    split at hx
    next heq =>
      subst heq
      rcases List.mem_append.mp (mem_sorted.mp hx) with hx | hx
      · exact h.le _ hc' x hx
      · exact hnew x hx
    next => exact h.le c hc' x hx
  diag c hc := by
    have hc' : c < columns.size := by simpa using hc
    rw [Array.getElem_modify]
    split
    · exact mem_sorted.mpr (List.mem_append_left _ (h.diag c hc'))
    · exact h.diag c hc'

theorem mem_modify {columns : Array (List ℕ)} {r x c : ℕ} {new : List ℕ} (hc : c < columns.size) :
    x ∈ (columns.modify r fun col => sorted (col ++ new)).getD c [] ↔
      x ∈ columns.getD c [] ∨ (r = c ∧ x ∈ new) := by
  have hget : (columns.modify r fun col => sorted (col ++ new)).getD c [] =
      if r = c then sorted (columns.getD c [] ++ new) else columns.getD c [] := by
    simp [Array.getD, hc, Array.getElem_modify]
  rw [hget]
  split
  next heq => simp [heq]
  next hne => simp [hne]

/-- Rows of a strictly increasing list up to a position are at most the row
there. -/
theorem le_of_mem_take {rows : List ℕ} (h : rows.Pairwise (· < ·)) {q : ℕ} (hq : q < rows.length)
    {x : ℕ} (hx : x ∈ rows.take (q + 1)) : x ≤ rows[q] := by
  obtain ⟨p, hp, rfl⟩ := List.getElem_of_mem hx
  rw [List.length_take] at hp
  rw [List.getElem_take]
  have hpq : p ≤ q := by omega
  rcases hpq.eq_or_lt with rfl | hpq
  · exact le_rfl
  · exact (List.pairwise_iff_getElem.mp h p q (by omega) hq hpq).le

theorem mem_zipIdx_iff {rows : List ℕ} {r : ℕ × ℕ} :
    r ∈ rows.zipIdx ↔ ∃ h : r.2 < rows.length, rows[r.2] = r.1 := by
  obtain ⟨x, i⟩ := r
  rw [List.mk_mem_zipIdx_iff_getElem?, List.getElem?_eq_some_iff]

/-- Adding a square to a pattern. -/
theorem addSquare_spec {m : ℕ} {columns : Array (List ℕ)} (h : IsPattern m columns)
    {rows : List ℕ} (hrows : IsSquare m rows) : IsPattern m (addSquare columns rows) ∧
      ∀ c < m, ∀ x, x ∈ (addSquare columns rows).getD c [] ↔
        x ∈ columns.getD c [] ∨ (c ∈ rows ∧ x ∈ rows ∧ x ≤ c) := by
  unfold addSquare
  have hloop := Loop.foldl_induction (l := rows.zipIdx) (s := columns)
    (f := fun pattern r => pattern.modify r.1 fun col => sorted (col ++ rows.take (r.2 + 1)))
    (fun done pattern => IsPattern m pattern ∧ ∀ c < m, ∀ x, x ∈ pattern.getD c [] ↔
      x ∈ columns.getD c [] ∨ ∃ r ∈ done, r.1 = c ∧ x ∈ rows.take (r.2 + 1))
    ⟨h, by simp⟩ fun done r rest heq pattern ⟨hpattern, hmem⟩ => by
      obtain ⟨hr, hr'⟩ := mem_zipIdx_iff.mp (heq ▸ by simp : r ∈ rows.zipIdx)
      refine ⟨hpattern.modify fun x hx => hr' ▸ le_of_mem_take hrows.1 hr hx, fun c hc x => ?_⟩
      rw [mem_modify (hpattern.size.symm ▸ hc), hmem c hc x]
      simp only [List.mem_append, List.mem_singleton, or_and_right, exists_or, exists_eq_left,
        or_assoc]
  refine ⟨hloop.1, fun c hc x => (hloop.2 c hc x).trans (or_congr_right ?_)⟩
  constructor
  · rintro ⟨r, hr, rfl, hx⟩
    obtain ⟨hlt, heq⟩ := mem_zipIdx_iff.mp hr
    exact ⟨heq ▸ List.getElem_mem hlt, List.mem_of_mem_take hx, heq ▸ le_of_mem_take hrows.1 hlt hx⟩
  · rintro ⟨hc, hx, hle⟩
    obtain ⟨q, hq, rfl⟩ := List.getElem_of_mem hc
    obtain ⟨p, hp, rfl⟩ := List.getElem_of_mem hx
    refine ⟨(rows[q], q), mem_zipIdx_iff.mpr ⟨hq, rfl⟩, rfl, ?_⟩
    have hpq : p ≤ q := by
      by_contra hlt
      exact absurd (List.pairwise_iff_getElem.mp hrows.1 q p hq hp (not_le.mp hlt)) (not_lt.mpr hle)
    exact List.mem_take_iff_getElem.mpr ⟨p, by omega, rfl⟩

/-- The pattern of some squares: the diagonal and all squares. -/
theorem pattern_spec {m : ℕ} {squares : List (List ℕ)}
    (hsquares : ∀ rows ∈ squares, IsSquare m rows) :
    IsPattern m (pattern m squares) ∧ ∀ c < m, ∀ x, x ∈ (pattern m squares).getD c [] ↔
      x = c ∨ ∃ rows ∈ squares, c ∈ rows ∧ x ∈ rows ∧ x ≤ c := by
  unfold pattern
  refine Loop.foldl_induction (f := addSquare) (fun done columns => IsPattern m columns ∧
    ∀ c < m, ∀ x, x ∈ columns.getD c [] ↔
      x = c ∨ ∃ rows ∈ done, c ∈ rows ∧ x ∈ rows ∧ x ≤ c) ?_ ?_
  · refine ⟨isPattern_start m, fun c hc x => ?_⟩
    simp [Array.getD, hc]
  · rintro done rows rest heq columns ⟨hcolumns, hmem⟩
    obtain ⟨hadd, hmem'⟩ := addSquare_spec hcolumns (hsquares rows (heq ▸ by simp))
    refine ⟨hadd, fun c hc x => ?_⟩
    rw [hmem' c hc x, hmem c hc x]
    simp only [List.mem_append, List.mem_singleton, or_and_right, exists_or, exists_eq_left,
      or_assoc]

/-! ## The matrix of a pattern -/

/-- An entry of a list of lists, by its position in all of them together. -/
theorem getElem?_flatten {β : Type} {l : List (List β)} {c t : ℕ} (hc : c < l.length)
    (ht : t < l[c].length) :
    l.flatten[((l.map List.length).take c).sum + t]? = some l[c][t] := by
  induction l generalizing c with
  | nil => simp at hc
  | cons l l ih =>
    cases c with
    | zero =>
      simp only [List.getElem_cons_zero] at ht
      simp [List.getElem?_append_left, ht]
    | succ c =>
      have hc' : c < l.length := by simpa using hc
      simp only [List.getElem_cons_succ] at ht
      have ih := ih hc' ht
      rw [List.map_cons, List.take_succ_cons, List.sum_cons, List.flatten_cons,
        List.getElem?_append_right (by omega)]
      simpa [Nat.add_assoc] using ih

variable {α : Type} {m : ℕ} {columns : Array (List ℕ)} {values : Array α}

/-- The matrix of a pattern with the given values. -/
def withValues (m : ℕ) (columns : Array (List ℕ)) (values : Array α) : Csc α where
  nrows := m
  ncols := m
  colPtr := Ldl.runningSums (columns.toList.map List.length)
  rowIdx := columns.toList.flatten.toArray
  values := values

theorem first_withValues {c : ℕ} (hc : c ≤ columns.size) :
    (withValues m columns values).first c = ((columns.toList.map List.length).take c).sum :=
  (Ldl.holds_runningSums (columns.toList.map List.length)).getD (by simp; omega) 0

theorem first_succ_withValues {c : ℕ} (hc : c < columns.size) :
    (withValues m columns values).first (c + 1) =
      (withValues m columns values).first c + columns[c].length := by
  rw [first_withValues hc, first_withValues hc.le, List.take_add_one, List.sum_append]
  simp [hc]

namespace IsPattern

variable (h : IsPattern m columns) (hvalues : values.size = columns.toList.flatten.length)

include h hvalues

theorem divided : (withValues m columns values).Divided where
  size_colPtr := by
    have hsize := (Ldl.holds_runningSums (columns.toList.map List.length)).size
    simpa [withValues, h.size] using hsize
  size_rowIdx := by
    simp [Csc.nnz, withValues, hvalues]
  first_zero := by rw [first_withValues (Nat.zero_le _), List.take_zero, List.sum_nil]
  first_ncols := by
    have hm : (withValues m columns values).ncols = columns.size := h.size.symm
    rw [hm, first_withValues le_rfl, List.take_of_length_le (by simp), ← List.length_flatten]
    exact hvalues.symm
  mono c hc := by
    rw [first_succ_withValues (h.size.symm ▸ hc)]
    exact Nat.le_add_right _ _

omit hvalues in
theorem row_eq {c t : ℕ} (hc : c < m) (ht : t < (columns.getD c []).length) :
    (withValues m columns values).row ((withValues m columns values).first c + t) =
      (columns.getD c [])[t] := by
  have hc' : c < columns.size := h.size.symm ▸ hc
  have hcol : columns.getD c [] = columns[c] := by simp [Array.getD, hc']
  have hget := getElem?_flatten (l := columns.toList) (c := c) (t := t) (by simpa using hc')
    (by simpa [hcol] using ht)
  rw [Csc.row, first_withValues hc'.le, Array.getD_eq_getD_getElem?]
  simp only [withValues, List.getElem?_toArray, hget, Option.getD_some, Array.getElem_toList, hcol]

omit hvalues in
/-- The rows of a column are those of the pattern. -/
theorem map_row_span {c : ℕ} (hc : c < m) :
    ((withValues m columns values).span c).map (withValues m columns values).row =
      columns.getD c [] := by
  have hc' : c < columns.size := h.size.symm ▸ hc
  have hlen : ((withValues m columns values).span c).length = (columns.getD c []).length := by
    rw [Csc.span, List.length_range', first_succ_withValues hc', Nat.add_sub_cancel_left]
    simp [Array.getD, hc']
  apply List.ext_getElem (by rw [List.length_map, hlen])
  intro t ht ht'
  rw [List.getElem_map, ← (h.row_eq hc ht' : (withValues m columns values).row _ = _)]
  simp [Csc.span]

omit hvalues in
theorem pairwise_getD {c : ℕ} (hc : c < m) : (columns.getD c []).Pairwise (· < ·) := by
  have hc' : c < columns.size := h.size.symm ▸ hc
  simpa [Array.getD, hc'] using h.increasing _ (Array.getElem_mem_toList hc')

omit hvalues in
theorem le_of_mem {c r : ℕ} (hc : c < m) (hr : r ∈ columns.getD c []) : r ≤ c := by
  have hc' : c < columns.size := h.size.symm ▸ hc
  exact h.le c hc' r (by simpa [Array.getD, hc'] using hr)

theorem wellFormed : (withValues m columns values).WellFormed := by
  have hdiv := h.divided hvalues
  have hrows (c : ℕ) (hc : c < m) :
      ((withValues m columns values).column c).map Prod.fst = columns.getD c [] := by
    rw [hdiv.map_fst_column hc, hdiv.toList_rows hc]
    exact h.map_row_span hc
  refine { toDivided := hdiv, row_lt := ?_, sorted := fun c hc => ?_ }
  · refine (hdiv.forall_row_iff _).mpr fun c hc r hr => ?_
    rw [hrows c hc] at hr
    exact (h.le_of_mem hc hr).trans_lt hc
  · rw [hrows c hc]
    exact h.pairwise_getD hc

theorem isTriu : (withValues m columns values).IsTriu := by
  refine (h.divided hvalues).isTriu_iff.mpr fun c hc idx hidx => ?_
  have hspan : ((withValues m columns values).span c).map (withValues m columns values).row = _ :=
    h.map_row_span hc
  exact h.le_of_mem hc (hspan ▸ List.mem_map_of_mem hidx)

/-- An entry of the pattern is located in its column. -/
theorem locate_spec {r c : ℕ} (hc : c < m) (hr : r ∈ columns.getD c []) :
    locate (withValues m columns values) r c ∈ (withValues m columns values).span c ∧
      (withValues m columns values).row (locate (withValues m columns values) r c) = r := by
  have hdiv := h.divided hvalues
  have hlist := hdiv.toList_rows hc
  rw [h.map_row_span hc] at hlist
  have hfirst : (withValues m columns values).first (c + 1) = _ :=
    first_succ_withValues (h.size.symm ▸ hc)
  obtain ⟨t, ht, rfl⟩ := List.getElem_of_mem hr
  have ht' : t < ((withValues m columns values).rowIdx.extract
      ((withValues m columns values).first c)
      ((withValues m columns values).first (c + 1))).size := by
    rwa [← Array.length_toList, hlist]
  have hplace := Search.place_eq_found (hlist ▸ h.pairwise_getD hc) ht'
  have hget : ((withValues m columns values).rowIdx.extract
      ((withValues m columns values).first c)
      ((withValues m columns values).first (c + 1)))[t] = (columns.getD c [])[t] := by
    rw [← Array.getElem_toList]
    simp only [hlist]
  have hlocate : locate (withValues m columns values) (columns.getD c [])[t] c =
      (withValues m columns values).first c + t := by
    rw [locate, hdiv.rows?_eq hc, Option.getD_some, ← hget, hplace]
    rfl
  rw [hlocate]
  refine ⟨Csc.mem_span.mpr ⟨Nat.le_add_right _ _, ?_⟩, h.row_eq hc ht⟩
  have hc' : c < columns.size := h.size.symm ▸ hc
  have hcol : columns.getD c [] = columns[c] := by simp [Array.getD, hc']
  rw [hfirst, ← hcol]
  exact Nat.add_lt_add_left ht _

theorem locate_lt {r c : ℕ} (hc : c < m) (hr : r ∈ columns.getD c []) :
    locate (withValues m columns values) r c < values.size :=
  (Csc.mem_span.mp (h.locate_spec hvalues hc hr).1).2.trans_le
    ((h.divided hvalues).first_succ_le_nnz hc)

/-- Different entries of the pattern are stored at different places. -/
theorem locate_inj {c c' r r' : ℕ} (hc : c < m) (hc' : c' < m) (hr : r ∈ columns.getD c [])
    (hr' : r' ∈ columns.getD c' []) (heq : locate (withValues m columns values) r c =
      locate (withValues m columns values) r' c') : r = r' ∧ c = c' := by
  obtain ⟨hspan, hrow⟩ := h.locate_spec hvalues hc hr
  obtain ⟨hspan', hrow'⟩ := h.locate_spec hvalues hc' hr'
  rw [heq] at hspan hrow
  exact ⟨hrow.symm.trans hrow',
    (h.divided hvalues).col_unique hc hc' (Csc.mem_span.mp hspan) (Csc.mem_span.mp hspan')⟩

end IsPattern

/-! ## Its entries -/

section

variable {values : Array ℝ} (h : IsPattern m columns)
  (hvalues : values.size = columns.toList.flatten.length)

include h hvalues

/-- An entry of the pattern has the value at its place. -/
theorem IsPattern.get_eq {r c : ℕ} (hc : c < m) (hr : r ∈ columns.getD c []) :
    (withValues m columns values).get r c =
      values.getD (locate (withValues m columns values) r c) 0 := by
  have hdiv := h.divided hvalues
  obtain ⟨hspan, hrow⟩ := h.locate_spec hvalues hc hr
  have hmem : (r, (withValues m columns values).value (locate (withValues m columns values) r c)) ∈
      (withValues m columns values).column c := by
    rw [hdiv.column_eq_map hc]
    exact List.mem_map.mpr ⟨_, hspan, by rw [hrow]⟩
  have hrows : (((withValues m columns values).column c).map Prod.fst).Nodup := by
    rw [hdiv.map_fst_column hc, hdiv.toList_rows hc, h.map_row_span hc]
    exact (h.pairwise_getD hc).imp fun hlt => hlt.ne
  exact Vec.coefficient_eq_of_mem hrows hmem

/-- There is nothing besides the pattern. -/
theorem IsPattern.get_eq_zero {r c : ℕ} (hc : c < m) (hr : r ∉ columns.getD c []) :
    (withValues m columns values).get r c = 0 := by
  have hdiv := h.divided hvalues
  refine Vec.coefficient_eq_zero fun e he heq => hr ?_
  rw [← heq, ← (h.map_row_span hc : ((withValues m columns values).span c).map _ = _),
    ← hdiv.toList_rows hc, ← hdiv.map_fst_column hc]
  exact List.mem_map_of_mem he

end

end Conic.Schur
