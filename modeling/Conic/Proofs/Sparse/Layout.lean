import Conic.Proofs.Loops
import Conic.Sparse.Format

/-!
# The layout of a sparse matrix

`Csc.Divided` says that the pointers divide the entries into columns, so that
each of them can be read.  `Csc.Valid` also asks that every row is a row of the
matrix.  The rows of a column may come in any order and may repeat.
`Csc.WellFormed` asks for strictly increasing rows as well, and this is what
`Csc.checkFormat` decides (`Csc.checkFormat_eq_ok_iff`).

Every product and every factorisation reads a matrix through `Csc.column`.
The lemmas here say that reading a column succeeds and what it gives.
-/

namespace Conic.Csc

variable {α : Type}

/-- The first entry of a column. -/
def first (A : Csc α) (j : ℕ) : ℕ := A.colPtr.getD j 0

/-- The pointers divide the entries into columns. -/
structure Divided (A : Csc α) : Prop where
  /-- There is a pointer for the start of each column, and one for the end. -/
  size_colPtr : A.colPtr.size = A.ncols + 1
  /-- Every entry has a row. -/
  size_rowIdx : A.rowIdx.size = A.nnz
  /-- The first column starts at the first entry. -/
  first_zero : A.first 0 = 0
  /-- The last column ends behind the last entry. -/
  first_ncols : A.first A.ncols = A.nnz
  /-- A column does not end before it starts. -/
  mono : ∀ j < A.ncols, A.first j ≤ A.first (j + 1)

/-- The entries are divided into columns, and every row is in range. -/
structure Valid (A : Csc α) : Prop extends Divided A where
  /-- Every row is a row of the matrix. -/
  row_lt : ∀ r ∈ A.rowIdx.toList, r < A.nrows

/-- The rows of every column increase strictly. -/
structure WellFormed (A : Csc α) : Prop extends Valid A where
  /-- The rows of a column increase. -/
  sorted : ∀ j < A.ncols, ((A.column j).map Prod.fst).Pairwise (· < ·)

/-! ## Pointers -/

namespace Divided

variable {A : Csc α} (hA : A.Divided)

include hA

theorem first_le_first {i j : ℕ} (hij : i ≤ j) (hj : j ≤ A.ncols) : A.first i ≤ A.first j := by
  induction j, hij using Nat.le_induction with
  | base => exact le_rfl
  | succ j hij ih => exact (ih (by omega)).trans (hA.mono j (by omega))

theorem first_le_nnz {j : ℕ} (hj : j ≤ A.ncols) : A.first j ≤ A.nnz :=
  hA.first_ncols ▸ hA.first_le_first hj le_rfl

theorem first_succ_le_nnz {j : ℕ} (hj : j < A.ncols) : A.first (j + 1) ≤ A.values.size :=
  hA.first_le_nnz hj

theorem first_succ_le_size {j : ℕ} (hj : j < A.ncols) : A.first (j + 1) ≤ A.rowIdx.size :=
  hA.size_rowIdx ▸ hA.first_succ_le_nnz hj

theorem colPtr_eq {j : ℕ} (hj : j ≤ A.ncols) : A.colPtr[j]? = some (A.first j) := by
  have h : j < A.colPtr.size := by
    rw [hA.size_colPtr]
    omega
  simp [first, Array.getD, h]

/-- The columns do not overlap. -/
theorem col_unique {i j k : ℕ} (hi : i < A.ncols) (hj : j < A.ncols)
    (hik : A.first i ≤ k ∧ k < A.first (i + 1)) (hjk : A.first j ≤ k ∧ k < A.first (j + 1)) :
    i = j := by
  rcases lt_trichotomy i j with h | h | h
  · have := hA.first_le_first (i := i + 1) h hj.le
    omega
  · exact h
  · have := hA.first_le_first (i := j + 1) h hi.le
    omega

/-! ## Reading a column -/

theorem rows?_eq {j : ℕ} (hj : j < A.ncols) :
    A.rows? j = some (A.rowIdx.extract (A.first j) (A.first (j + 1))) := by
  have hj' : j + 1 ≤ A.ncols := hj
  simp [rows?, hA.colPtr_eq hj.le, hA.colPtr_eq hj',
    slice?_of_le (hA.mono j hj) (hA.first_succ_le_size hj)]

theorem vals?_eq {j : ℕ} (hj : j < A.ncols) :
    A.vals? j = some (A.values.extract (A.first j) (A.first (j + 1))) := by
  have hj' : j + 1 ≤ A.ncols := hj
  simp [vals?, hA.colPtr_eq hj.le, hA.colPtr_eq hj',
    slice?_of_le (hA.mono j hj) (hA.first_succ_le_nnz hj)]

theorem column_eq {j : ℕ} (hj : j < A.ncols) :
    A.column j = ((A.rowIdx.extract (A.first j) (A.first (j + 1))).zip
      (A.values.extract (A.first j) (A.first (j + 1)))).toList := by
  simp [column, column?, hA.rows?_eq hj, hA.vals?_eq hj]

theorem column?_eq {j : ℕ} (hj : j < A.ncols) : A.column? j = some (A.column j) := by
  simp [column, column?, hA.rows?_eq hj, hA.vals?_eq hj]

theorem length_column {j : ℕ} (hj : j < A.ncols) :
    (A.column j).length = A.first (j + 1) - A.first j := by
  have hb := hA.first_succ_le_nnz hj
  have hr := hA.first_succ_le_size hj
  rw [hA.column_eq hj]
  simp only [Array.length_toList, Array.size_zip, Array.size_extract]
  omega

/-- The entry at a position of a column, by its index in storage. -/
theorem getElem_column {j t : ℕ} (hj : j < A.ncols) (ht : A.first j + t < A.first (j + 1))
    (hrow : A.first j + t < A.rowIdx.size) (hvalue : A.first j + t < A.values.size) :
    (A.column j)[t]? = some (A.rowIdx[A.first j + t], A.values[A.first j + t]) := by
  have hb := hA.first_succ_le_nnz hj
  have hr := hA.first_succ_le_size hj
  rw [hA.column_eq hj, Array.getElem?_toList, Array.getElem?_eq_getElem (by
    simp only [Array.size_zip, Array.size_extract]
    omega)]
  simp

/-- The rows of a column are the rows read from storage. -/
theorem map_fst_column {j : ℕ} (hj : j < A.ncols) :
    (A.column j).map Prod.fst = (A.rowIdx.extract (A.first j) (A.first (j + 1))).toList := by
  have hb := hA.first_succ_le_nnz hj
  have hr := hA.first_succ_le_size hj
  rw [hA.column_eq hj, Array.toList_zip, List.map_fst_zip]
  simp only [Array.length_toList, Array.size_extract]
  omega

theorem map_snd_column {j : ℕ} (hj : j < A.ncols) :
    (A.column j).map Prod.snd = (A.values.extract (A.first j) (A.first (j + 1))).toList := by
  have hb := hA.first_succ_le_nnz hj
  have hr := hA.first_succ_le_size hj
  rw [hA.column_eq hj, Array.toList_zip, List.map_snd_zip]
  simp only [Array.length_toList, Array.size_extract]
  omega

/-- Every entry belongs to a column. -/
theorem exists_column {idx : ℕ} (h : idx < A.nnz) :
    ∃ j < A.ncols, A.first j ≤ idx ∧ idx < A.first (j + 1) := by
  have hfind : ∀ k ≤ A.ncols, idx < A.first k →
      ∃ j < k, A.first j ≤ idx ∧ idx < A.first (j + 1) := by
    intro k
    induction k with
    | zero =>
      intro _ hk
      rw [hA.first_zero] at hk
      omega
    | succ k ih =>
      intro hk hidx
      by_cases hlt : idx < A.first k
      · obtain ⟨j, hj, hidx⟩ := ih (by omega) hlt
        exact ⟨j, by omega, hidx⟩
      · exact ⟨k, by omega, by omega, hidx⟩
  exact hfind A.ncols le_rfl (hA.first_ncols ▸ h)

/-- The rows of all columns together are all rows. -/
theorem forall_row_iff (P : ℕ → Prop) :
    (∀ r ∈ A.rowIdx.toList, P r) ↔ ∀ j < A.ncols, ∀ r ∈ (A.column j).map Prod.fst, P r := by
  constructor
  · intro h j hj r hr
    rw [hA.map_fst_column hj, Array.mem_toList_iff, Array.mem_extract_iff_getElem] at hr
    obtain ⟨t, _, ht⟩ := hr
    exact ht ▸ h _ (Array.getElem_mem_toList _)
  · intro h r hr
    obtain ⟨idx, hidx, rfl⟩ := List.getElem_of_mem hr
    rw [Array.length_toList] at hidx
    obtain ⟨j, hj, hle, hlt⟩ := hA.exists_column (hA.size_rowIdx ▸ hidx)
    refine h j hj _ ?_
    rw [hA.map_fst_column hj, Array.mem_toList_iff, Array.mem_extract_iff_getElem]
    have hsize := hA.first_succ_le_size hj
    refine ⟨idx - A.first j, by omega, ?_⟩
    rw [Array.getElem_toList]
    congr 1
    omega

end Divided

/-! ## Entries by their index -/

/-- The row of the entry at an index. -/
def row (A : Csc α) (idx : ℕ) : ℕ := A.rowIdx.getD idx 0

/-- The value of the entry at an index. -/
def value [Zero α] (A : Csc α) (idx : ℕ) : α := A.values.getD idx 0

/-- The indices of the entries of a column. -/
def span (A : Csc α) (j : ℕ) : List ℕ := List.range' (A.first j) (A.first (j + 1) - A.first j)

/-- All entries in the order of storage, each a column and an index. -/
def cells (A : Csc α) : List (ℕ × ℕ) :=
  (List.range A.ncols).flatMap fun j => (A.span j).map (j, ·)

theorem mem_span {A : Csc α} {j idx : ℕ} :
    idx ∈ A.span j ↔ A.first j ≤ idx ∧ idx < A.first (j + 1) := by
  rw [span, List.mem_range'_1]
  omega

theorem mem_cells {A : Csc α} {p : ℕ × ℕ} : p ∈ A.cells ↔ p.1 < A.ncols ∧ p.2 ∈ A.span p.1 := by
  obtain ⟨j, idx⟩ := p
  simp only [cells, List.mem_flatMap, List.mem_range, List.mem_map, Prod.mk.injEq]
  constructor
  · rintro ⟨j', hj, idx', hidx, rfl, rfl⟩
    exact ⟨hj, hidx⟩
  · rintro ⟨hj, hidx⟩
    exact ⟨j, hj, idx, hidx, rfl, rfl⟩

namespace Divided

variable {A : Csc α} (hA : A.Divided)

include hA

theorem row_eq {j idx : ℕ} (hj : j < A.ncols) (h : idx ∈ A.span j) :
    A.rowIdx[idx]? = some (A.row idx) := by
  have hidx : idx < A.rowIdx.size := (mem_span.mp h).2.trans_le (hA.first_succ_le_size hj)
  simp [row, Array.getD, hidx]

theorem value_eq [Zero α] {j idx : ℕ} (hj : j < A.ncols) (h : idx ∈ A.span j) :
    A.values[idx]? = some (A.value idx) := by
  have hidx : idx < A.values.size := (mem_span.mp h).2.trans_le (hA.first_succ_le_nnz hj)
  simp [value, Array.getD, hidx]

/-- A column, entry by entry. -/
theorem column_eq_map [Zero α] {j : ℕ} (hj : j < A.ncols) :
    A.column j = (A.span j).map fun idx => (A.row idx, A.value idx) := by
  apply List.ext_getElem?
  intro t
  by_cases ht : A.first j + t < A.first (j + 1)
  · have hr := (A.first j + t).lt_of_lt_of_le ht (hA.first_succ_le_size hj)
    have hv := (A.first j + t).lt_of_lt_of_le ht (hA.first_succ_le_nnz hj)
    have ht' : t < A.first (j + 1) - A.first j := by omega
    rw [hA.getElem_column hj ht hr hv]
    simp [span, row, value, Array.getD, hr, hv, ht']
  · rw [List.getElem?_eq_none (by rw [hA.length_column hj]; omega),
      List.getElem?_eq_none (by simp [span]; omega)]

theorem toList_rows {j : ℕ} (hj : j < A.ncols) :
    (A.rowIdx.extract (A.first j) (A.first (j + 1))).toList = (A.span j).map A.row := by
  have hsize := hA.first_succ_le_size hj
  apply List.ext_getElem?
  intro t
  by_cases ht : A.first j + t < A.first (j + 1)
  · have hr := (A.first j + t).lt_of_lt_of_le ht hsize
    have ht' : t < A.first (j + 1) - A.first j := by omega
    rw [Array.getElem?_toList, Array.getElem?_extract]
    simp [span, row, Array.getD, hr, ht', Nat.min_eq_left hsize]
  · rw [List.getElem?_eq_none (by simp; omega), List.getElem?_eq_none (by simp [span]; omega)]

/-- The cells are all entries, in the order of storage. -/
theorem map_snd_cells : A.cells.map Prod.snd = List.range A.nnz := by
  have hspans : ∀ k ≤ A.ncols,
      ((List.range k).flatMap fun j => (A.span j).map (j, ·)).map Prod.snd =
        List.range (A.first k) := by
    intro k
    induction k with
    | zero => simp [hA.first_zero]
    | succ k ih =>
      intro hk
      have hmono := hA.mono k (by omega)
      rw [List.range_succ, List.flatMap_append, List.map_append, ih (by omega)]
      simp only [List.flatMap_cons, List.flatMap_nil, List.append_nil, List.map_map]
      have hsnd : Prod.snd ∘ (fun idx : ℕ => (k, idx)) = id := rfl
      rw [hsnd, List.map_id, span, List.range_eq_range', List.range_eq_range']
      have happend := List.range'_append_1 (s := 0) (m := A.first k) (n := A.first (k + 1) - A.first k)
      rw [Nat.zero_add] at happend
      rw [happend, Nat.add_sub_cancel' hmono]
  exact (hspans A.ncols le_rfl).trans (by rw [hA.first_ncols])

theorem nodup_cells : A.cells.Nodup :=
  List.Nodup.of_map Prod.snd (hA.map_snd_cells ▸ List.nodup_range)

theorem length_cells : A.cells.length = A.nnz := by
  simpa using congrArg List.length hA.map_snd_cells

/-- Cells of one index are one cell. -/
theorem cell_eq {p q : ℕ × ℕ} (hp : p ∈ A.cells) (hq : q ∈ A.cells) (h : p.2 = q.2) : p = q :=
  List.inj_on_of_nodup_map (hA.map_snd_cells ▸ List.nodup_range) hp hq h

end Divided

theorem Valid.row_lt_of_mem_span {A : Csc α} (hA : A.Valid) {j idx : ℕ} (hj : j < A.ncols)
    (h : idx ∈ A.span j) : A.row idx < A.nrows := by
  have hidx : idx < A.rowIdx.size := (mem_span.mp h).2.trans_le (hA.first_succ_le_size hj)
  refine hA.row_lt _ ?_
  simp [row, Array.getD, hidx]

theorem Valid.row_lt_of_mem_column {A : Csc α} (hA : A.Valid) {j : ℕ} (hj : j < A.ncols)
    {e : ℕ × α} (he : e ∈ A.column j) : e.1 < A.nrows :=
  (hA.forall_row_iff _).mp hA.row_lt j hj e.1 (List.mem_map_of_mem he)

/-! ## Upper triangles -/

/-- No entry is stored below the diagonal. -/
def IsTriu (A : Csc α) : Prop := ∀ j < A.ncols, ∀ e ∈ A.column j, e.1 ≤ j

theorem Divided.isTriu_iff {A : Csc α} (hA : A.Divided) :
    A.IsTriu ↔ ∀ j < A.ncols, ∀ idx ∈ A.span j, A.row idx ≤ j := by
  refine forall₂_congr fun j hj => ?_
  have hrows : (∀ r ∈ (A.column j).map Prod.fst, r ≤ j) ↔ ∀ r ∈ (A.span j).map A.row, r ≤ j := by
    rw [hA.map_fst_column hj, hA.toList_rows hj]
  rwa [List.forall_mem_map, List.forall_mem_map] at hrows

/-- The rows of a square upper triangle are in range. -/
theorem Divided.valid_of_isTriu {A : Csc α} (hA : A.Divided) (htri : A.IsTriu)
    (hsq : A.nrows = A.ncols) : A.Valid := by
  refine ⟨hA, (hA.forall_row_iff _).mpr fun j hj r hr => ?_⟩
  obtain ⟨e, he, rfl⟩ := List.mem_map.mp hr
  exact hsq ▸ (htri j hj e he).trans_lt hj

/-- A matrix stays valid with as many other values. -/
theorem Valid.withValues {A : Csc α} (hA : A.Valid) {values : Array α}
    (h : values.size = A.values.size) : ({ A with values := values } : Csc α).Valid :=
  { size_colPtr := hA.size_colPtr
    size_rowIdx := hA.size_rowIdx.trans h.symm
    first_zero := hA.first_zero
    first_ncols := hA.first_ncols.trans h.symm
    mono := hA.mono
    row_lt := hA.row_lt }

theorem IsTriu.withValues {A : Csc α} (hA : A.Valid) (htri : A.IsTriu) {values : Array α}
    (h : values.size = A.values.size) : ({ A with values := values } : Csc α).IsTriu :=
  (hA.withValues h).isTriu_iff.mpr (hA.isTriu_iff.mp htri)

theorem allColumns?_eq {p : ℕ → Option Bool} {q : ℕ → Bool} {count : ℕ} :
    ∀ {j : ℕ}, (∀ i < count, p (j + i) = some (q (j + i))) →
      allColumns? p count j = some (decide (∀ i < count, q (j + i) = true)) := by
  induction count with
  | zero => simp [allColumns?]
  | succ count ih =>
    intro j h
    have hj : p j = some (q j) := h 0 (Nat.succ_pos _)
    have hrest := ih (j := j + 1) fun i hi => by
      have := h (i + 1) (Nat.succ_lt_succ hi)
      rwa [show j + (i + 1) = j + 1 + i by omega] at this
    have hsplit : (∀ i < count + 1, q (j + i) = true) ↔
        q j = true ∧ ∀ i < count, q (j + 1 + i) = true := by
      rw [Nat.forall_lt_succ_left]
      simp only [Nat.add_zero, Nat.add_assoc, Nat.add_comm 1]
    rw [allColumns?, hj]
    by_cases hq : q j = true
    · simp only [hq, hrest, hsplit, true_and]
    · simp only [Bool.not_eq_true] at hq
      simp only [hq, hsplit, Bool.false_eq_true, false_and, decide_false]

/-- Asking whether a matrix is an upper triangle gets the right answer. -/
theorem Divided.isTriu?_eq_true_iff {A : Csc α} (hA : A.Divided) :
    A.isTriu? = some true ↔ A.IsTriu := by
  have hcolumn (j : ℕ) (hj : j < A.ncols) : (A.rows? j).map (fun rows => rows.all (· ≤ j)) =
      some (decide (∀ e ∈ A.column j, e.1 ≤ j)) := by
    rw [hA.rows?_eq hj, Option.map_some, Option.some.injEq, Bool.eq_iff_iff, decide_eq_true_iff,
      ← Array.all_toList, List.all_eq_true, ← hA.map_fst_column hj]
    simp
  rw [isTriu?, allColumns?_eq (q := fun j => decide (∀ e ∈ A.column j, e.1 ≤ j)) fun j hj => by
    rw [Nat.zero_add]
    exact hcolumn j hj]
  simp [IsTriu]

end Conic.Csc

namespace Conic

/-! ## What the format check decides -/

theorem chained_iff (r : ℕ → ℕ → Bool) :
    ∀ l, chained r l = true ↔ l.IsChain fun a b => r a b = true
  | [] => by simp [chained]
  | [_] => by simp [chained]
  | a :: b :: l => by rw [chained, Bool.and_eq_true, chained_iff r (b :: l), List.isChain_cons_cons]

theorem chained_lt_iff (l : List ℕ) :
    chained (fun a b => decide (a < b)) l = true ↔ l.Pairwise (· < ·) := by
  rw [chained_iff, ← List.isChain_iff_pairwise]
  simp only [decide_eq_true_eq]

theorem chained_le_iff (l : List ℕ) :
    chained (fun a b => decide (a ≤ b)) l = true ↔ l.Pairwise (· ≤ ·) := by
  rw [chained_iff, ← List.isChain_iff_pairwise]
  simp only [decide_eq_true_eq]

/-- Of increasing numbers only the last needs to be compared with a bound. -/
theorem all_getLast?_lt_iff {l : List ℕ} (h : l.Pairwise (· < ·)) (m : ℕ) :
    l.getLast?.all (· < m) = true ↔ ∀ r ∈ l, r < m := by
  rcases l.eq_nil_or_concat with rfl | ⟨l, b, rfl⟩
  · simp
  · rw [List.concat_eq_append] at h ⊢
    simp only [List.getLast?_concat, Option.all_some, decide_eq_true_eq, List.mem_append,
      List.mem_singleton]
    constructor
    · rintro hb r (hr | rfl)
      · exact ((List.pairwise_append.mp h).2.2 r hr b (by simp)).trans hb
      · exact hb
    · exact fun hall => hall b (.inr rfl)

namespace Csc

variable {α : Type} {A : Csc α}

theorem dimensionsAgree_iff : A.dimensionsAgree = true ↔
    A.colPtr.size = A.ncols + 1 ∧ A.rowIdx.size = A.nnz ∧ A.first 0 = 0 ∧
      A.first A.ncols = A.nnz := by
  simp only [dimensionsAgree, Bool.and_eq_true, beq_iff_eq, and_assoc]
  refine and_congr_right fun hsize => and_congr_right fun _ => ?_
  simp [first, Array.getD, Array.back?, hsize]

theorem pairwise_colPtr_iff (h : A.colPtr.size = A.ncols + 1) :
    A.colPtr.toList.Pairwise (· ≤ ·) ↔ ∀ j < A.ncols, A.first j ≤ A.first (j + 1) := by
  rw [← List.isChain_iff_pairwise, List.isChain_iff_getElem]
  simp only [Array.length_toList, Array.getElem_toList, h]
  constructor
  · intro hmono j hj
    have hle := hmono j (by omega)
    simpa [first, Array.getD, h, hj, Nat.lt_succ_of_lt hj] using hle
  · intro hmono j hj
    have hj : j < A.ncols := by omega
    have hle := hmono j hj
    simpa [first, Array.getD, h, hj, Nat.lt_succ_of_lt hj] using hle

theorem rowsInOrder_iff {rows : Array ℕ} : A.rowsInOrder rows = true ↔
    rows.toList.Pairwise (· < ·) ∧ ∀ r ∈ rows.toList, r < A.nrows := by
  rw [rowsInOrder, Bool.and_eq_true, chained_lt_iff, ← Array.getLast?_toList]
  exact and_congr_right fun hs => all_getLast?_lt_iff hs A.nrows

/-- What the format check asks of one column. -/
def checkColumn (A : Csc α) (j : ℕ) (_ : Unit) : Except (Fault FormatError) (ForInStep Unit) := do
  let rows ← Fault.ofOption (A.rows? j)
  if !A.rowsInOrder rows then throw (.cause .badRowval)
  pure (.yield ())

theorem checkColumn_ne_done (j : ℕ) : A.checkColumn j () ≠ .ok (.done ()) := by
  unfold checkColumn
  intro h
  obtain ⟨rows, -, h⟩ := bind_eq_ok_iff.mp h
  cases (guard_eq_ok_iff.mp h).2

theorem checkColumn_eq_ok_iff (hA : A.Divided) {j : ℕ} (hj : j < A.ncols) :
    A.checkColumn j () = .ok (.yield ()) ↔ ((A.column j).map Prod.fst).Pairwise (· < ·) ∧
      ∀ r ∈ (A.column j).map Prod.fst, r < A.nrows := by
  have hrows : (Fault.ofOption (A.rows? j) : Except (Fault FormatError) _) =
      .ok (A.rowIdx.extract (A.first j) (A.first (j + 1))) :=
    Fault.ofOption_eq_ok_iff.mpr (hA.rows?_eq hj)
  unfold checkColumn
  rw [hrows, hA.map_fst_column hj, ← rowsInOrder_iff]
  refine guard_eq_ok_iff.trans ?_
  simp [pure, Except.pure]

/-- The format check accepts exactly the well-formed matrices. -/
theorem checkFormat_eq_ok_iff : A.checkFormat = .ok () ↔ A.WellFormed := by
  have hloop : A.checkFormat = .ok () ↔ A.dimensionsAgree = true ∧
      chained (fun a b => decide (a ≤ b)) A.colPtr.toList = true ∧
      forIn (List.range A.ncols) () A.checkColumn = .ok () := by
    unfold checkFormat
    simp only [guard_eq_ok_iff, bind_eq_ok_iff]
    refine and_congr (by simp) (and_congr (by simp) ?_)
    exact ⟨fun ⟨_, h, _⟩ => h, fun h => ⟨(), h, rfl⟩⟩
  rw [hloop, dimensionsAgree_iff, chained_le_iff, forIn_eq_ok_iff checkColumn_ne_done]
  constructor
  · rintro ⟨⟨hcol, hrow, h₀, hn⟩, hmono, hcolumns⟩
    have hA : A.Divided := ⟨hcol, hrow, h₀, hn, (pairwise_colPtr_iff hcol).mp hmono⟩
    have hcolumn (j : ℕ) (hj : j < A.ncols) :=
      (checkColumn_eq_ok_iff hA hj).mp (hcolumns j (List.mem_range.mpr hj))
    exact {
      toDivided := hA
      row_lt := (hA.forall_row_iff _).mpr fun j hj => (hcolumn j hj).2
      sorted := fun j hj => (hcolumn j hj).1 }
  · intro hA
    refine ⟨⟨hA.size_colPtr, hA.size_rowIdx, hA.first_zero, hA.first_ncols⟩,
      (pairwise_colPtr_iff hA.size_colPtr).mpr hA.mono, fun j hj => ?_⟩
    have hj : j < A.ncols := List.mem_range.mp hj
    exact (checkColumn_eq_ok_iff hA.toDivided hj).mpr
      ⟨hA.sorted j hj, (hA.forall_row_iff _).mp hA.row_lt j hj⟩

end Csc

end Conic
