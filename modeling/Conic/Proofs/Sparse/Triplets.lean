import Conic.Proofs.Sparse.Columns
import Conic.Proofs.Sparse.Lookup
import Conic.Sparse.Triplets

/-!
# Matrices from triplets

Triplets make a matrix if all of them lie inside it (`Csc.exists_ofTriplets_iff`).
The matrix has an entry where there is a triplet, and its value is the sum of the
values there, from left to right (`Csc.mem_column_of_ofTriplets`).  So triplets of
different positions may change places (`Csc.ofTriplets_sums`).

The sum is followed in three steps.  Sorting is stable, so it keeps the values of a
position in their order (`Triplet.valuesAt_mergeSort`).  In a sorted list the
triplets of a position are neighbours, and they are replaced by their sum
(`Triplet.valuesAt_collapse`).  What is left has one triplet for each position, and
each column of the matrix is a part of it (`Csc.ofSorted_eq`).
-/

namespace Conic

variable {α : Type}

/-- The sum of a list from left to right, from its first member on. -/
def leftSum [Add α] : List α → Option α
  | [] => none
  | a :: rest => some (rest.foldl (· + ·) a)

namespace Triplet

/-! ## Positions -/

/-- The position of `s` comes before that of `t`. -/
def Before (s t : Triplet α) : Prop := s.col < t.col ∨ s.col = t.col ∧ s.row < t.row

theorem precedes_iff {s t : Triplet α} :
    s.precedes t = true ↔ s.col < t.col ∨ s.col = t.col ∧ s.row ≤ t.row := decide_eq_true_iff

theorem precedes_trans (s t u : Triplet α) (hst : s.precedes t = true)
    (htu : t.precedes u = true) : s.precedes u = true := by
  rw [precedes_iff] at *
  omega

theorem precedes_total (s t : Triplet α) : (s.precedes t || t.precedes s) = true := by
  rw [Bool.or_eq_true, precedes_iff, precedes_iff]
  omega

theorem samePlace_iff {s t : Triplet α} :
    s.samePlace t = true ↔ s.row = t.row ∧ s.col = t.col := by
  simp [samePlace]

/-- The values at a position, in the order of the list. -/
def valuesAt (i j : ℕ) (ts : List (Triplet α)) : List α :=
  (ts.filter fun t => t.row = i ∧ t.col = j).map value

section

variable {i j : ℕ} {t : Triplet α} {ts : List (Triplet α)}

theorem valuesAt_cons_of_at (h : t.row = i ∧ t.col = j) :
    valuesAt i j (t :: ts) = t.value :: valuesAt i j ts := by
  rw [valuesAt, List.filter_cons_of_pos (by simpa using h), List.map_cons, valuesAt]

theorem valuesAt_cons_of_not (h : ¬ (t.row = i ∧ t.col = j)) :
    valuesAt i j (t :: ts) = valuesAt i j ts := by
  rw [valuesAt, List.filter_cons_of_neg (by simpa using h), valuesAt]

theorem valuesAt_eq_nil_iff : valuesAt i j ts = [] ↔ ∀ t ∈ ts, ¬ (t.row = i ∧ t.col = j) := by
  simp [valuesAt]

theorem mem_valuesAt {a : α} : a ∈ valuesAt i j ts ↔ ⟨i, j, a⟩ ∈ ts := by
  constructor
  · intro ha
    obtain ⟨⟨row, col, value⟩, hmem, hvalue⟩ := List.mem_map.mp ha
    obtain ⟨ht, hat⟩ := List.mem_filter.mp hmem
    obtain ⟨hrow, hcol⟩ := of_decide_eq_true hat
    cases hrow
    cases hcol
    cases hvalue
    exact ht
  · intro ht
    exact List.mem_map_of_mem (List.mem_filter.mpr ⟨ht, by simp⟩)

end

/-! ## Sorting -/

theorem pairwise_mergeSort (ts : List (Triplet α)) :
    (ts.mergeSort precedes).Pairwise fun s t => s.precedes t = true :=
  List.pairwise_mergeSort precedes_trans precedes_total ts

/-- Sorting is stable: the values at a position stay in their order. -/
theorem valuesAt_mergeSort (i j : ℕ) (ts : List (Triplet α)) :
    valuesAt i j (ts.mergeSort precedes) = valuesAt i j ts := by
  set at? : Triplet α → Bool := fun t => t.row = i ∧ t.col = j
  have hpairwise : (ts.filter at?).Pairwise fun s t => s.precedes t = true := by
    refine List.pairwise_of_forall_mem_list fun s hs t ht => precedes_iff.mpr ?_
    obtain ⟨-, hs⟩ := List.mem_filter.mp hs
    obtain ⟨-, ht⟩ := List.mem_filter.mp ht
    obtain ⟨hs, hs'⟩ := of_decide_eq_true hs
    obtain ⟨ht, ht'⟩ := of_decide_eq_true ht
    omega
  have hsublist := (List.sublist_mergeSort precedes_trans precedes_total hpairwise
    List.filter_sublist).filter at?
  simp only [List.filter_filter, Bool.and_self] at hsublist
  have hlength := ((List.mergeSort_perm ts precedes).filter at?).length_eq
  rw [valuesAt, valuesAt, hsublist.eq_of_length hlength.symm]

/-! ## Adding up neighbours -/

section

variable [Add α]

theorem valuesAt_go (i j : ℕ) {t : Triplet α} {rest : List (Triplet α)}
    (h : (t :: rest).Pairwise fun s t => s.precedes t = true) :
    valuesAt i j (collapse.go t rest) = (leftSum (valuesAt i j (t :: rest))).toList := by
  induction rest generalizing t with
  | nil =>
    rw [collapse.go]
    by_cases hat : t.row = i ∧ t.col = j
    · rw [valuesAt_cons_of_at hat]
      rfl
    · rw [valuesAt_cons_of_not hat]
      rfl
  | cons u rest ih =>
    obtain ⟨ht, hrest⟩ := List.pairwise_cons.mp h
    rw [collapse.go]
    split
    next hsame =>
      obtain ⟨hrow, hcol⟩ := samePlace_iff.mp hsame
      have hadded : ({ t with value := t.value + u.value } :: rest).Pairwise
          fun s t => s.precedes t = true :=
        List.pairwise_cons.mpr ⟨fun v hv => ht v (List.mem_cons_of_mem u hv), hrest.of_cons⟩
      rw [ih hadded]
      by_cases hat : t.row = i ∧ t.col = j
      · have hat' : u.row = i ∧ u.col = j := ⟨hrow ▸ hat.1, hcol ▸ hat.2⟩
        rw [valuesAt_cons_of_at (t := { t with value := t.value + u.value }) hat,
          valuesAt_cons_of_at hat, valuesAt_cons_of_at hat']
        rfl
      · have hat' : ¬ (u.row = i ∧ u.col = j) := hrow ▸ hcol ▸ hat
        rw [valuesAt_cons_of_not (t := { t with value := t.value + u.value }) hat,
          valuesAt_cons_of_not hat, valuesAt_cons_of_not hat']
    next hother =>
      by_cases hat : t.row = i ∧ t.col = j
      · -- the list is sorted, so nothing at the position follows
        have hnone : valuesAt i j (u :: rest) = [] := by
          refine valuesAt_eq_nil_iff.mpr fun v hv hv' => hother (samePlace_iff.mpr ?_)
          have htu := precedes_iff.mp (ht u (by simp))
          have huv : u.col < v.col ∨ u.col = v.col ∧ u.row ≤ v.row := by
            rcases List.mem_cons.mp hv with rfl | hv
            · exact .inr ⟨rfl, le_rfl⟩
            · exact precedes_iff.mp ((List.pairwise_cons.mp hrest).1 v hv)
          omega
        rw [valuesAt_cons_of_at hat, ih hrest, valuesAt_cons_of_at hat, hnone]
        rfl
      · rw [valuesAt_cons_of_not hat, ih hrest, valuesAt_cons_of_not hat]

/-- The values at a position of a sorted list are replaced by their sum. -/
theorem valuesAt_collapse (i j : ℕ) {ts : List (Triplet α)}
    (h : ts.Pairwise fun s t => s.precedes t = true) :
    valuesAt i j (collapse ts) = (leftSum (valuesAt i j ts)).toList := by
  cases ts with
  | nil => rfl
  | cons t rest => exact valuesAt_go i j h

theorem pairwise_go {t : Triplet α} {rest : List (Triplet α)}
    (h : (t :: rest).Pairwise fun s t => s.precedes t = true) :
    (collapse.go t rest).Pairwise Before ∧ ∀ u ∈ collapse.go t rest, t.precedes u = true := by
  induction rest generalizing t with
  | nil =>
    rw [collapse.go]
    refine ⟨List.pairwise_singleton _ _, fun u hu => ?_⟩
    rw [List.mem_singleton.mp hu, precedes_iff]
    exact .inr ⟨rfl, le_rfl⟩
  | cons u rest ih =>
    obtain ⟨ht, hrest⟩ := List.pairwise_cons.mp h
    rw [collapse.go]
    split
    next =>
      exact ih (t := { t with value := t.value + u.value })
        (List.pairwise_cons.mpr ⟨fun v hv => ht v (List.mem_cons_of_mem u hv), hrest.of_cons⟩)
    next hother =>
      obtain ⟨hpairwise, hfirst⟩ := ih hrest
      have htu := precedes_iff.mp (ht u (by simp))
      have hne : ¬ (t.row = u.row ∧ t.col = u.col) := fun h => hother (samePlace_iff.mpr h)
      have hbefore (v : Triplet α) (hv : v ∈ collapse.go u rest) : t.Before v := by
        have huv := precedes_iff.mp (hfirst v hv)
        rw [Before]
        omega
      refine ⟨List.pairwise_cons.mpr ⟨hbefore, hpairwise⟩, fun v hv => precedes_iff.mpr ?_⟩
      rcases List.mem_cons.mp hv with rfl | hv
      · exact .inr ⟨rfl, le_rfl⟩
      · exact (hbefore v hv).imp_right (And.imp_right le_of_lt)

/-- One triplet is left for each position. -/
theorem pairwise_collapse {ts : List (Triplet α)}
    (h : ts.Pairwise fun s t => s.precedes t = true) : (collapse ts).Pairwise Before := by
  cases ts with
  | nil => exact .nil
  | cons t rest => exact (pairwise_go h).1

theorem exists_of_mem_collapse {ts : List (Triplet α)}
    (h : ts.Pairwise fun s t => s.precedes t = true) {t : Triplet α} (ht : t ∈ collapse ts) :
    ∃ u ∈ ts, u.row = t.row ∧ u.col = t.col := by
  have hvalues : valuesAt t.row t.col (collapse ts) ≠ [] :=
    fun hnil => valuesAt_eq_nil_iff.mp hnil t ht ⟨rfl, rfl⟩
  rw [valuesAt_collapse _ _ h] at hvalues
  by_contra hnone
  push Not at hnone
  refine hvalues ?_
  rw [valuesAt_eq_nil_iff.mpr fun u hu hat => hnone u hu hat.1 hat.2]
  rfl

end

/-! ## Columns -/

/-- The entries of a column. -/
def columnOf (j : ℕ) (ts : List (Triplet α)) : List (ℕ × α) :=
  (ts.filter fun t => t.col = j).map fun t => (t.row, t.value)

theorem mem_columnOf {i j : ℕ} {a : α} {ts : List (Triplet α)} :
    (i, a) ∈ columnOf j ts ↔ a ∈ valuesAt i j ts := by
  simp only [columnOf, valuesAt, List.mem_map, List.mem_filter, Prod.mk.injEq, decide_eq_true_eq]
  grind

theorem filter_col_lt_succ {ts : List (Triplet α)} (h : ts.Pairwise Before) (k : ℕ) :
    ts.filter (fun t => t.col < k + 1) =
      ts.filter (fun t => t.col < k) ++ ts.filter fun t => t.col = k := by
  induction ts with
  | nil => rfl
  | cons t ts ih =>
    obtain ⟨ht, hts⟩ := List.pairwise_cons.mp h
    have hle (u : Triplet α) (hu : u ∈ ts) : t.col ≤ u.col := by
      have := ht u hu
      rw [Before] at this
      omega
    rcases lt_trichotomy t.col k with hlt | heq | hgt
    · rw [List.filter_cons_of_pos (by simpa using hlt.le), List.filter_cons_of_pos (by simpa),
        List.filter_cons_of_neg (by simpa using hlt.ne), ih hts, List.cons_append]
    · have hnone : ts.filter (fun t => decide (t.col < k)) = [] := by simpa [← heq] using hle
      rw [List.filter_cons_of_pos (by simpa using heq.le),
        List.filter_cons_of_neg (by simpa using heq.ge), List.filter_cons_of_pos (by simpa),
        ih hts, hnone, List.nil_append, List.nil_append]
    · rw [List.filter_cons_of_neg (by simpa using hgt),
        List.filter_cons_of_neg (by simpa using hgt.le),
        List.filter_cons_of_neg (by simpa using hgt.ne'), ih hts]

theorem flatMap_filter_col {ts : List (Triplet α)} (h : ts.Pairwise Before) (k : ℕ) :
    (List.range k).flatMap (fun j => ts.filter fun t => t.col = j) =
      ts.filter fun t => t.col < k := by
  induction k with
  | zero => simp
  | succ k ih =>
    rw [List.range_succ, List.flatMap_append, ih, List.flatMap_singleton, filter_col_lt_succ h]

/-! ## Other orders of a list -/

/-- The lists have the same values at each position, in the same order.  What stands at
different positions may have changed places. -/
def Rearranged (ts ts' : List (Triplet α)) : Prop := ∀ i j, valuesAt i j ts = valuesAt i j ts'

namespace Rearranged

variable {ts ts' : List (Triplet α)}

theorem mem_iff (h : Rearranged ts ts') (t : Triplet α) : t ∈ ts ↔ t ∈ ts' := by
  rw [← mem_valuesAt (i := t.row) (j := t.col), h t.row t.col, mem_valuesAt]

/-- With one triplet for each position there is nothing to rearrange. -/
theorem eq_of_pairwise (h : Rearranged ts ts') (hts : ts.Pairwise Before)
    (hts' : ts'.Pairwise Before) : ts = ts' := by
  have hirrefl : Std.Irrefl (Before (α := α)) := ⟨fun t ht => by
    rw [Before] at ht
    omega⟩
  have hasymm : Std.Asymm (Before (α := α)) := ⟨fun s t hst hts => by
    rw [Before] at hst hts
    omega⟩
  exact hts.eq_of_mem_iff hts' h.mem_iff

theorem collapse_eq [Add α] (h : Rearranged ts ts') :
    collapse (ts.mergeSort precedes) = collapse (ts'.mergeSort precedes) := by
  have hcollapsed : Rearranged (collapse (ts.mergeSort precedes))
      (collapse (ts'.mergeSort precedes)) := fun i j => by
    rw [valuesAt_collapse i j (pairwise_mergeSort ts),
      valuesAt_collapse i j (pairwise_mergeSort ts'), valuesAt_mergeSort, valuesAt_mergeSort,
      h i j]
  exact hcollapsed.eq_of_pairwise (pairwise_collapse (pairwise_mergeSort ts))
    (pairwise_collapse (pairwise_mergeSort ts'))

end Rearranged

end Triplet

namespace Csc

open Triplet

/-- Sorted triplets, one for each position, are laid out column by column. -/
theorem ofSorted_eq {m n : ℕ} {ts : List (Triplet α)} (h : ts.Pairwise Before)
    (hcol : ∀ t ∈ ts, t.col < n) :
    ofSorted m n ts = ofColumns m ((List.range n).map fun j => columnOf j ts) := by
  have hall : ts = (List.range n).flatMap fun j => ts.filter fun t => t.col = j := by
    rw [flatMap_filter_col h, List.filter_eq_self.mpr fun t ht => decide_eq_true (hcol t ht)]
  have hflatten : ((List.range n).map fun j => columnOf j ts).flatten =
      ts.map fun t => (t.row, t.value) := by
    conv_rhs => rw [hall]
    rw [List.map_flatMap, List.flatMap_def]
    rfl
  have hptr : ((List.range (n + 1)).map fun j => ts.countP (·.col < j)).toArray =
      Ldl.runningSums (((List.range n).map fun j => columnOf j ts).map List.length) := by
    have hsums := Ldl.holds_runningSums
      (((List.range n).map fun j => columnOf j ts).map List.length)
    rw [List.length_map, List.length_map, List.length_range] at hsums
    refine (Holds.of_toList rfl).ext (hsums.congr fun k hk => ?_)
    rw [List.map_map, ← List.map_take, List.take_range, Nat.min_eq_left (Nat.le_of_lt_succ hk),
      List.countP_eq_length_filter, ← flatMap_filter_col h, List.length_flatMap]
    simp only [columnOf, Function.comp_def, List.length_map]
  rw [ofSorted, ofColumns, hptr, hflatten]
  simp only [List.length_map, List.length_range, List.map_map, Function.comp_def]

/-- The value that is stored at a position. -/
theorem entry?_eq {A : Csc α} (hA : A.WellFormed) (i : ℕ) {j : ℕ} (hj : j < A.ncols) :
    A.entry? i j = some (((A.column j).find? fun e => e.1 = i).map Prod.snd) := by
  set rows := A.rowIdx.extract (A.first j) (A.first (j + 1))
  set vals := A.values.extract (A.first j) (A.first (j + 1))
  have hcolumn : A.column j = (rows.zip vals).toList := hA.column_eq hj
  have hsize : vals.size = rows.size := by
    have hend := hA.first_succ_le_nnz hj
    have hend' := hA.first_succ_le_size hj
    simp only [rows, vals, Array.size_extract]
    omega
  have hsorted : rows.toList.Pairwise (· < ·) := by
    rw [← hA.map_fst_column hj]
    exact hA.sorted j hj
  unfold entry?
  rw [hA.rows?_eq hj, hA.vals?_eq hj]
  simp only [Option.bind_eq_bind, Option.bind_some]
  by_cases hmem : i ∈ rows
  · obtain ⟨k, hk, rfl⟩ := Array.mem_iff_getElem.mp hmem
    have hk' : k < vals.size := hsize ▸ hk
    have hfind : (A.column j).find? (fun e => e.1 = rows[k]) = some (rows[k], vals[k]) := by
      rw [hcolumn, List.find?_eq_some_iff_getElem]
      refine ⟨by simp, k, by simp [hk, hk'], by simp, fun l hl => ?_⟩
      have hlt := List.pairwise_iff_getElem.mp hsorted l k (by simpa using hl.trans hk)
        (by simpa using hk) hl
      simpa using hlt.ne
    have hvalue : (A.values.extract (A.first j) (A.first (j + 1)))[k]? = some vals[k] :=
      Array.getElem?_eq_getElem hk'
    rw [Search.place_eq_found hsorted hk, hfind]
    simp [hvalue]
  · have hfind : (A.column j).find? (fun e => e.1 = i) = none := by
      rw [hcolumn, Array.toList_zip, List.find?_eq_none]
      intro e he heq
      have hrow : e.1 ∈ rows := Array.mem_toList_iff.mp (List.of_mem_zip he).1
      exact hmem (of_decide_eq_true heq ▸ hrow)
    rw [hfind]
    split
    next k hk => exact absurd (Array.mem_of_getElem? (Search.getElem?_of_place_eq_found hk)) hmem
    next => rfl

variable [Add α] {m n : ℕ} {ts : List (Triplet α)}

/-- Triplets make a matrix if all of them lie inside it. -/
theorem exists_ofTriplets_iff :
    (∃ A, ofTriplets m n ts = .ok A) ↔ ∀ t ∈ ts, t.row < m ∧ t.col < n := by
  have hinside : ts.any (isOutside m n) = false ↔ ∀ t ∈ ts, t.row < m ∧ t.col < n := by
    simp [isOutside]
  rw [ofTriplets, ← hinside]
  cases ts.any (isOutside m n) <;> simp

/-- The matrix of triplets is the one that has the collapsed triplets as columns. -/
theorem eq_of_ofTriplets {A : Csc α} (h : ofTriplets m n ts = .ok A) :
    A = ofColumns m ((List.range n).map fun j =>
      columnOf j (collapse (ts.mergeSort precedes))) := by
  have hinside := exists_ofTriplets_iff.mp ⟨A, h⟩
  have hsorted := pairwise_mergeSort ts
  have hcol (t : Triplet α) (ht : t ∈ collapse (ts.mergeSort precedes)) : t.col < n := by
    obtain ⟨u, hu, -, hcol⟩ := exists_of_mem_collapse hsorted ht
    exact hcol ▸ (hinside u (List.mem_mergeSort.mp hu)).2
  rw [ofTriplets] at h
  split at h
  · cases h
  · exact (Except.ok.inj h).symm.trans (ofSorted_eq (pairwise_collapse hsorted) hcol)

/-- The matrix of triplets is well-formed. -/
theorem wellFormed_of_ofTriplets {A : Csc α} (h : ofTriplets m n ts = .ok A) :
    A.WellFormed ∧ A.nrows = m ∧ A.ncols = n := by
  have hinside := exists_ofTriplets_iff.mp ⟨A, h⟩
  have hsorted := pairwise_mergeSort ts
  rw [eq_of_ofTriplets h]
  refine ⟨wellFormed_ofColumns fun col hcol => ?_, rfl, by simp [ofColumns]⟩
  obtain ⟨j, -, rfl⟩ := List.mem_map.mp hcol
  refine ⟨?_, fun e he => ?_⟩
  · have hcolumn : ((collapse (ts.mergeSort precedes)).filter fun t => t.col = j).Pairwise
        fun s t => s.row < t.row := by
      refine ((pairwise_collapse hsorted).filter _).imp_of_mem fun {s t} hs ht hst => ?_
      have hs := of_decide_eq_true (List.mem_filter.mp hs).2
      have ht := of_decide_eq_true (List.mem_filter.mp ht).2
      rw [Before] at hst
      omega
    rw [columnOf, List.map_map]
    exact List.pairwise_map.mpr hcolumn
  · obtain ⟨t, ht, rfl⟩ := List.mem_map.mp he
    obtain ⟨u, hu, hrow, -⟩ := exists_of_mem_collapse hsorted (List.mem_of_mem_filter ht)
    exact hrow ▸ (hinside u (List.mem_mergeSort.mp hu)).1

theorem column_of_ofTriplets {A : Csc α} (h : ofTriplets m n ts = .ok A) {j : ℕ} (hj : j < n) :
    A.column j = columnOf j (collapse (ts.mergeSort precedes)) := by
  rw [eq_of_ofTriplets h, column_ofColumns (by simpa using hj), List.getElem_map,
    List.getElem_range]

/-- The entries of the matrix of triplets are the sums of the values at their positions, in the
order of the list. -/
theorem mem_column_of_ofTriplets {A : Csc α} (h : ofTriplets m n ts = .ok A) {i j : ℕ} {a : α}
    (hj : j < n) : (i, a) ∈ A.column j ↔ leftSum (valuesAt i j ts) = some a := by
  rw [column_of_ofTriplets h hj, mem_columnOf, valuesAt_collapse i j (pairwise_mergeSort ts),
    valuesAt_mergeSort, Option.mem_toList]

/-- The matrix of triplets has an entry where there is a triplet.  Its value is the sum of the
values there, in the order of the list. -/
theorem entry?_of_ofTriplets {A : Csc α} (h : ofTriplets m n ts = .ok A) (i : ℕ) {j : ℕ}
    (hj : j < n) : A.entry? i j = some (leftSum (valuesAt i j ts)) := by
  obtain ⟨hA, -, hncols⟩ := wellFormed_of_ofTriplets h
  have hfind : ((A.column j).find? fun e => e.1 = i).map Prod.snd =
      (valuesAt i j (collapse (ts.mergeSort precedes))).head? := by
    rw [column_of_ofTriplets h hj, columnOf, List.find?_map, Option.map_map, List.find?_filter,
      valuesAt, List.head?_map, List.head?_filter]
    simp only [Function.comp_def, Bool.decide_and, Bool.decide_eq_true, Bool.and_comm]
  rw [entry?_eq hA i (hncols ▸ hj), hfind, valuesAt_collapse i j (pairwise_mergeSort ts),
    Option.head?_toList, valuesAt_mergeSort]

/-- The matrix has the size `m` by `n` and the sums of the triplets as its entries. -/
structure SumsOf (m n : ℕ) (ts : List (Triplet α)) (A : Csc α) : Prop where
  /-- The number of rows. -/
  nrows : A.nrows = m
  /-- The number of columns. -/
  ncols : A.ncols = n
  /-- The format check accepts the matrix. -/
  checked : A.checkFormat = .ok ()
  /-- There is an entry where there is a triplet. -/
  present : ∀ i, ∀ j < n,
    i ∈ (A.column j).map Prod.fst ↔ ∃ t ∈ ts, t.row = i ∧ t.col = j
  /-- An entry is the sum of the values at its position, in the order of the list. -/
  value : ∀ i, ∀ j < n, ∀ a, (i, a) ∈ A.column j → leftSum (valuesAt i j ts) = some a

theorem sumsOf_of_ofTriplets {A : Csc α} (h : ofTriplets m n ts = .ok A) : SumsOf m n ts A := by
  obtain ⟨hA, hnrows, hncols⟩ := wellFormed_of_ofTriplets h
  refine ⟨hnrows, hncols, checkFormat_eq_ok_iff.mpr hA, fun i j hj => ?_,
    fun i j hj a => (mem_column_of_ofTriplets h hj).mp⟩
  have hsome : (∃ a, leftSum (valuesAt i j ts) = some a) ↔ valuesAt i j ts ≠ [] := by
    cases valuesAt i j ts <;> simp [leftSum]
  calc i ∈ (A.column j).map Prod.fst
    _ ↔ ∃ a, (i, a) ∈ A.column j := by simp
    _ ↔ ∃ a, leftSum (valuesAt i j ts) = some a :=
      exists_congr fun a => mem_column_of_ofTriplets h hj
    _ ↔ valuesAt i j ts ≠ [] := hsome
    _ ↔ ∃ t ∈ ts, t.row = i ∧ t.col = j := by
      rw [Ne, valuesAt_eq_nil_iff]
      simp

/-- A list of triplets is refused if one of them lies outside the matrix.  Otherwise it makes the
matrix of their sums, and every rearranged list makes the same one.  Only pointers that cannot be
held make a difference to the limited form. -/
theorem ofTriplets_sums (m n : ℕ) (ts : List (Triplet α)) :
    (ofTriplets m n ts = .error .badRowval ↔ ∃ t ∈ ts, m ≤ t.row ∨ n ≤ t.col) ∧
    ((∀ t ∈ ts, t.row < m ∧ t.col < n) → ∃ A, ofTriplets m n ts = .ok A ∧ SumsOf m n ts A) ∧
    (∀ ts', Rearranged ts ts' → ofTriplets m n ts' = ofTriplets m n ts) ∧
    (n < maxLength → ofTriplets? m n ts = Fault.lift (ofTriplets m n ts)) := by
  refine ⟨?_, fun hinside => ?_, fun ts' h => ?_, fun hn => if_pos (.inl hn)⟩
  · have houtside : ts.any (isOutside m n) = true ↔ ∃ t ∈ ts, m ≤ t.row ∨ n ≤ t.col := by
      simp [isOutside]
    rw [ofTriplets, ← houtside]
    cases ts.any (isOutside m n) <;> simp
  · obtain ⟨A, hA⟩ := exists_ofTriplets_iff.mpr hinside
    exact ⟨A, hA, sumsOf_of_ofTriplets hA⟩
  · have houtside : ts'.any (isOutside m n) = ts.any (isOutside m n) := by
      rw [Bool.eq_iff_iff, List.any_eq_true, List.any_eq_true]
      exact exists_congr fun t => and_congr_left' (h.mem_iff t).symm
    rw [ofTriplets, ofTriplets, houtside, h.collapse_eq]

/-- A position that is given twice, and one that changes places with it. -/
theorem ofTriplets_sums_twice :
    (∃ A, ofTriplets 2 2 [⟨1, 1, 5⟩, ⟨0, 0, 1⟩, ⟨1, 1, (7 : ℤ)⟩] = .ok A ∧
      SumsOf 2 2 [⟨1, 1, 5⟩, ⟨0, 0, 1⟩, ⟨1, 1, 7⟩] A) ∧
    ofTriplets 2 2 [⟨1, 1, 5⟩, ⟨1, 1, 7⟩, ⟨0, 0, (1 : ℤ)⟩] =
      ofTriplets 2 2 [⟨1, 1, 5⟩, ⟨0, 0, 1⟩, ⟨1, 1, 7⟩] ∧
    ofTriplets 1 2 [⟨1, 1, 5⟩, ⟨0, 0, 1⟩, ⟨1, 1, (7 : ℤ)⟩] = .error .badRowval ∧
    ofTriplets? 2 2 [⟨1, 1, 5⟩, ⟨0, 0, 1⟩, ⟨1, 1, (7 : ℤ)⟩] =
      Fault.lift (ofTriplets 2 2 [⟨1, 1, 5⟩, ⟨0, 0, 1⟩, ⟨1, 1, 7⟩]) := by
  obtain ⟨-, hinside, hrearranged, hlimited⟩ :=
    ofTriplets_sums 2 2 [⟨1, 1, 5⟩, ⟨0, 0, 1⟩, ⟨1, 1, (7 : ℤ)⟩]
  refine ⟨hinside (by simp), hrearranged _ fun i j => ?_, ?_, hlimited (by decide)⟩
  · by_cases h : (1 = i ∧ 1 = j) <;> by_cases h' : (0 = i ∧ 0 = j) <;>
      simp [valuesAt, List.filter_cons, h, h']
    omega
  · exact (ofTriplets_sums 1 2 _).1.mpr ⟨⟨1, 1, 5⟩, by simp, .inl le_rfl⟩

end Csc

end Conic
