import Conic.Proofs.Ldl.Pattern

/-!
# The rows of the factor

The numeric part of a factorisation is a loop over rows.  Row `k` eliminates
the columns of its pattern one after the other, and every one of them gets one
entry more.

`Ldl.Stores` reads the arrays of a factorisation as lists of entries, one for
each column.  In these terms one elimination is `Ldl.eliminated`, a function of
the scattered row, the columns and the pivot, in which nothing can fail.  The
checked loop of the program computes the same (`Ldl.exists_eliminate?`), since
every column has room for the rows that it fills.

`Ldl.Rows` is what holds before row `k`: the columns have exactly the rows below
`k` that they fill, and the scattered row is zero.  The arithmetic plays no part
in it.
-/

namespace Conic.Ldl

variable {α : Type}

/-! ## Columns in storage -/

/-- The entries of a column stand in storage from position `a` on. -/
def StoredAt (rowIdx : Array ℕ) (values : Array α) (a : ℕ) (col : List (ℕ × α)) : Prop :=
  ∀ t (h : t < col.length), rowIdx[a + t]? = some col[t].1 ∧ values[a + t]? = some col[t].2

theorem StoredAt.tail {rowIdx : Array ℕ} {values : Array α} {a : ℕ} {e : ℕ × α}
    {col : List (ℕ × α)} (h : StoredAt rowIdx values a (e :: col)) :
    StoredAt rowIdx values (a + 1) col := by
  intro t ht
  have := h (t + 1) (Nat.succ_lt_succ ht)
  rwa [show a + (t + 1) = a + 1 + t by omega] at this

variable [Scalar α]

/-- A multiple of a column subtracted from a row, entry by entry. -/
def subtracted (t : α) (col : List (ℕ × α)) (y : Array α) : Array α :=
  col.foldl (fun y e => y.modify e.1 (· - e.2 * t)) y

@[simp] theorem size_subtracted (t : α) (col : List (ℕ × α)) (y : Array α) :
    (subtracted t col y).size = y.size := by
  unfold subtracted
  induction col generalizing y with
  | nil => rfl
  | cons e col ih =>
    rw [List.foldl_cons, ih]
    simp

/-- Subtracting a column in storage succeeds. -/
theorem foldlM_subtract? {rowIdx : Array ℕ} {values : Array α} (t : α) {col : List (ℕ × α)} {a : ℕ}
    {y : Array α} (h : StoredAt rowIdx values a col) (hrow : ∀ e ∈ col, e.1 < y.size) :
    (List.range' a col.length).foldlM (subtract? rowIdx values t) y =
      some (subtracted t col y) := by
  induction col generalizing a y with
  | nil => rfl
  | cons e col ih =>
    obtain ⟨hr, hv⟩ := h 0 (by simp)
    have hstep : subtract? rowIdx values t y a = some (y.modify e.1 (· - e.2 * t)) := by
      simp only [Nat.add_zero, List.getElem_cons_zero] at hr hv
      simp only [subtract?, hr, hv, Option.bind_eq_bind, Option.bind_some,
        update?_of_lt _ (hrow e (by simp))]
    rw [List.length_cons, List.range'_succ, List.foldlM_cons, hstep, Option.bind_eq_bind,
      Option.bind_some, ih h.tail fun e' he' => by simpa using hrow e' (by simp [he'])]
    rfl

/-- The arrays of a factorisation hold the columns `c`, each from its start
on. -/
structure Stores (start : ℕ → ℕ) (n : ℕ) (w : Work α) (c : ℕ → List (ℕ × α)) : Prop where
  /-- The number of entries of each column. -/
  filled : Holds w.filled n fun i => (c i).length
  /-- The entries of each column. -/
  entries : ∀ i < n, StoredAt w.rowIdx w.values (start i) (c i)
  size_rowIdx : w.rowIdx.size = start n
  size_values : w.values.size = start n
  /-- The rows, also those behind the columns. -/
  rowIdx_lt : ∀ i ∈ w.rowIdx, i < n

omit [Scalar α] in
theorem Stores.of_eq {start : ℕ → ℕ} {n : ℕ} {w w' : Work α} {c : ℕ → List (ℕ × α)}
    (h : Stores start n w c) (hfilled : w'.filled = w.filled) (hrows : w'.rowIdx = w.rowIdx)
    (hvalues : w'.values = w.values) : Stores start n w' c := by
  refine ⟨hfilled ▸ h.filled, ?_, hrows ▸ h.size_rowIdx, hvalues ▸ h.size_values,
    hrows ▸ h.rowIdx_lt⟩
  rw [hrows, hvalues]
  exact h.entries

/-! ## One elimination -/

/-- The elimination of column `i` in row `k`: the scattered row, the columns and
the pivot after it. -/
def eliminated (k : ℕ) (d : ℕ → α) (s : Array α × (ℕ → List (ℕ × α)) × α) (i : ℕ) :
    Array α × (ℕ → List (ℕ × α)) × α :=
  let yi := s.1.getD i 0
  let entry := yi / d i
  (subtracted yi (s.2.1 i) (s.1.modify i fun _ => 0),
    Function.update s.2.1 i (s.2.1 i ++ [(k, entry)]), s.2.2 - entry * yi)

omit [Scalar α] in
/-- Appending to a column that has room leaves the others where they are. -/
theorem StoredAt.append {rowIdx rowIdx' : Array ℕ} {values values' : Array α} {start : ℕ → ℕ}
    {n : ℕ} (hmono : ∀ i j, i ≤ j → start i ≤ start j) {c : ℕ → List (ℕ × α)}
    (hfit : ∀ j < n, start j + (c j).length ≤ start (j + 1)) {i : ℕ}
    (hroom : start i + (c i).length < start (i + 1)) {e : ℕ × α}
    (hrows : update? rowIdx (start i + (c i).length) (fun _ => e.1) = some rowIdx')
    (hvalues : update? values (start i + (c i).length) (fun _ => e.2) = some values') {j : ℕ}
    (hj : j < n) (h : StoredAt rowIdx values (start j) (c j)) :
    StoredAt rowIdx' values' (start j) (Function.update c i (c i ++ [e]) j) := by
  intro t ht
  rw [getElem?_of_update?_eq_some hrows, getElem?_of_update?_eq_some hvalues]
  by_cases hji : j = i
  · subst hji
    simp only [Function.update_self, List.length_append, List.length_singleton] at ht ⊢
    rcases Nat.lt_succ_iff_lt_or_eq.mp ht with ht | rfl
    · have hne : ¬ start j + (c j).length = start j + t := by omega
      simpa only [if_neg hne, List.getElem_append_left ht] using h t ht
    · have hr : start j + (c j).length < rowIdx.size := lt_size_of_update?_eq_some hrows
      have hv : start j + (c j).length < values.size := lt_size_of_update?_eq_some hvalues
      simp [hr, hv]
  · simp only [Function.update_of_ne hji] at ht ⊢
    have hne : ¬ start i + (c i).length = start j + t := by
      have hfit := hfit j hj
      rcases lt_or_gt_of_ne hji with hlt | hlt
      · have := hmono (j + 1) i hlt
        omega
      · have := hmono (i + 1) j hlt
        omega
    simpa only [if_neg hne] using h t ht

variable {F : Ldl α} {start : ℕ → ℕ} {n k : ℕ}

/-- Eliminating a column that has room succeeds. -/
theorem exists_eliminate? (hcolPtr : Holds F.colPtr (n + 1) start)
    (hmono : ∀ i j, i ≤ j → start i ≤ start j) {w : Work α} {c : ℕ → List (ℕ × α)}
    (hw : Stores start n w c) (hfit : ∀ j < n, start j + (c j).length ≤ start (j + 1)) {i : ℕ}
    (hi : i < n) (hk : k < n) (hroom : start i + (c i).length < start (i + 1)) (hy : w.y.size = n)
    (hrow : ∀ e ∈ c i, e.1 < n) {d : ℕ → α} (hd : Holds w.diag n d) (dk : α) :
    ∃ w', eliminate? F k (w, dk) i = some (w', (eliminated k d (w.y, c, dk) i).2.2) ∧
      w'.y = (eliminated k d (w.y, c, dk) i).1 ∧
      Stores start n w' (eliminated k d (w.y, c, dk) i).2.1 ∧ w'.mark = w.mark ∧
      w'.stack = w.stack ∧ w'.diag = w.diag ∧ w'.regularized = w.regularized := by
  have hyi : w.y[i]? = some (w.y.getD i 0) := by simp [Array.getD, hy, hi]
  set yi := w.y.getD i 0 with hyidef
  have hzero := update?_of_lt (v := w.y) (fun _ => 0) (hy.symm ▸ hi)
  have hsub := foldlM_subtract? yi (hw.entries i hi) (y := w.y.modify i fun _ => 0)
    (by simpa [hy] using hrow)
  have hpos : start i + (c i).length < start n := hroom.trans_le (hmono _ _ hi)
  obtain ⟨rows, hrows⟩ := exists_update? (fun _ => k) (hw.size_rowIdx.symm ▸ hpos)
  obtain ⟨values, hvalues⟩ := exists_update? (fun _ => yi / d i) (hw.size_values.symm ▸ hpos)
  obtain ⟨filled, hfilled, hfilled'⟩ := hw.filled.update hi (· + 1)
  refine ⟨{ w with
    y := subtracted yi (c i) (w.y.modify i fun _ => 0), rowIdx := rows, values := values,
    filled := filled }, ?_, rfl, ?_, rfl, rfl, rfl, rfl⟩
  · simp only [eliminate?, hyi, hzero, hcolPtr.get i (by omega), hw.filled.get i hi, hsub,
      hd.get i hi, hrows, hvalues, hfilled, Option.bind_eq_bind, Option.bind_some, Option.pure_def,
      eliminated, ← hyidef]
  · refine ⟨hfilled'.congr fun j _ => ?_, fun j hj => ?_,
      (size_of_update?_eq_some hrows).trans hw.size_rowIdx,
      (size_of_update?_eq_some hvalues).trans hw.size_values, fun r hr => ?_⟩
    · simp only [eliminated]
      by_cases hji : j = i
      · subst hji
        simp
      · simp [Function.update_of_ne hji]
    · exact (hw.entries j hj).append hmono hfit hroom hrows hvalues hj
    · obtain ⟨p, hp⟩ := Array.mem_iff_getElem?.mp hr
      rw [getElem?_of_update?_eq_some hrows] at hp
      split at hp
      · obtain ⟨_, -, rfl⟩ := Option.map_eq_some_iff.mp hp
        exact hk
      · exact hw.rowIdx_lt r (Array.mem_iff_getElem?.mpr ⟨p, hp⟩)

/-! ## All eliminations of a row -/

@[simp] theorem size_foldl_eliminated (d : ℕ → α) (pattern : List ℕ)
    (s : Array α × (ℕ → List (ℕ × α)) × α) :
    (pattern.foldl (eliminated k d) s).1.size = s.1.size := by
  induction pattern generalizing s with
  | nil => rfl
  | cons i pattern ih =>
    rw [List.foldl_cons, ih]
    simp [eliminated]

/-- Every column of the pattern gets one entry, in row `k`. -/
theorem exists_foldl_eliminated (d : ℕ → α) {pattern : List ℕ} (hnodup : pattern.Nodup)
    (s : Array α × (ℕ → List (ℕ × α)) × α) (j : ℕ) :
    ∃ v, (pattern.foldl (eliminated k d) s).2.1 j =
      if j ∈ pattern then s.2.1 j ++ [(k, v)] else s.2.1 j := by
  induction pattern generalizing s with
  | nil => exact ⟨0, rfl⟩
  | cons i pattern ih =>
    obtain ⟨hi, hnodup⟩ := List.nodup_cons.mp hnodup
    obtain ⟨v, hv⟩ := ih hnodup (eliminated k d s i)
    rw [List.foldl_cons]
    by_cases hji : j = i
    · subst hji
      refine ⟨s.1.getD j 0 / d j, ?_⟩
      rw [hv, if_neg hi, if_pos (by simp)]
      simp only [eliminated, Function.update_self]
    · refine ⟨v, ?_⟩
      rw [hv]
      simp only [eliminated, Function.update_of_ne hji, List.mem_cons, hji, false_or]

theorem getElem?_subtracted_of_ne (t : α) {col : List (ℕ × α)} {j : ℕ} (h : ∀ e ∈ col, e.1 ≠ j)
    (y : Array α) : (subtracted t col y)[j]? = y[j]? := by
  unfold subtracted
  induction col generalizing y with
  | nil => rfl
  | cons e col ih =>
    rw [List.foldl_cons, ih fun e' he' => h e' (by simp [he']), Array.getElem?_modify,
      if_neg (h e (by simp))]

variable {E : ℕ → ℕ → Prop} {c : ℕ → List (ℕ × α)} {pattern : List ℕ}

/-- The rows of the columns while row `k` is computed. -/
theorem map_fst_foldl_eliminated (d : ℕ → α) {done : List ℕ} (hnodup : done.Nodup)
    (hc : ∀ i, (c i).map Prod.fst = rowsBelow E k i) (y : Array α) (dk : α) (j : ℕ) :
    ((done.foldl (eliminated k d) (y, c, dk)).2.1 j).map Prod.fst =
      if j ∈ done then rowsBelow E k j ++ [k] else rowsBelow E k j := by
  obtain ⟨v, hv⟩ := exists_foldl_eliminated (k := k) d hnodup (y, c, dk) j
  rw [hv]
  split <;> simp [hc]

omit [Scalar α] in
/-- The columns of the pattern still have room for row `k`. -/
theorem length_le_of_map_fst (hk : k < n) {done : List ℕ} (hfill : ∀ j ∈ done, Fill E j k)
    (hc : ∀ j, (c j).map Prod.fst = if j ∈ done then rowsBelow E k j ++ [k] else rowsBelow E k j)
    (j : ℕ) : (c j).length ≤ (rowsBelow E n j).length := by
  have hlen := congrArg List.length (hc j)
  rw [List.length_map] at hlen
  by_cases hj : j ∈ done
  · have hlt := length_rowsBelow_lt (hfill j hj) hk
    rw [if_pos hj, List.length_append, List.length_singleton] at hlen
    omega
  · rw [if_neg hj] at hlen
    exact hlen ▸ length_rowsBelow_mono hk.le j

/-- A column that is still to be eliminated in row `k` is not full. -/
theorem length_foldl_eliminated_lt (hk : k < n) (d : ℕ → α)
    (hpattern : RowPattern E (fun i => Fill E i k) pattern)
    (hc : ∀ i, (c i).map Prod.fst = rowsBelow E k i) {done rest : List ℕ} {i : ℕ}
    (heq : pattern = done ++ i :: rest) (y : Array α) (dk : α) :
    ((done.foldl (eliminated k d) (y, c, dk)).2.1 i).length < (rowsBelow E n i).length := by
  have hi : Fill E i k := (hpattern.mem i).mp (heq ▸ by simp)
  have hnodup := hpattern.nodup
  rw [heq, List.nodup_append] at hnodup
  have hnew : i ∉ done := fun hmem => hnodup.2.2 i hmem i (by simp) rfl
  have hlen := congrArg List.length (map_fst_foldl_eliminated (k := k) d hnodup.1 hc y dk i)
  rw [List.length_map, if_neg hnew] at hlen
  exact hlen ▸ length_rowsBelow_lt hi hk

/-- The scattered row is zero again once its pattern has been eliminated. -/
theorem foldl_eliminated_eq_zero (d : ℕ → α) (hpattern : RowPattern E (fun i => Fill E i k) pattern)
    (hc : ∀ i, (c i).map Prod.fst = rowsBelow E k i) {y : Array α} (hy : y.size = n)
    (hzero : ∀ j < n, j ∉ pattern → y[j]? = some 0) (dk : α) {j : ℕ} (hj : j < n) :
    (pattern.foldl (eliminated k d) (y, c, dk)).1[j]? = some 0 := by
  -- a column that has been eliminated is not touched again
  have hstep := Loop.foldl_induction (f := eliminated k d) (l := pattern) (s := (y, c, dk))
    (fun done s => s.1.size = n ∧ (∀ i, (s.2.1 i).map Prod.fst =
        if i ∈ done then rowsBelow E k i ++ [k] else rowsBelow E k i) ∧
      ∀ j < n, (j ∈ pattern → j ∈ done) → s.1[j]? = some 0)
    ⟨hy, by simpa using hc, fun j hj hnot => hzero j hj fun hmem => by simpa using hnot hmem⟩
    fun done i rest heq s ⟨hsize, hrows, hzero⟩ => by
      have hi : Fill E i k := (hpattern.mem i).mp (heq ▸ by simp)
      have hnodup := hpattern.nodup
      have horder := hpattern.order
      rw [heq, List.nodup_append] at hnodup
      rw [heq, List.pairwise_append] at horder
      have hnew : i ∉ done := fun hmem => hnodup.2.2 i hmem i (by simp) rfl
      have hcol : ∀ e ∈ s.2.1 i, Fill E i e.1 ∧ e.1 < k := by
        intro e he
        have hmem := List.mem_map_of_mem (f := Prod.fst) he
        rw [hrows i, if_neg hnew, mem_rowsBelow] at hmem
        exact hmem.symm
      refine ⟨by simpa [eliminated] using hsize, fun i' => ?_, fun j hj hdone => ?_⟩
      · by_cases hii : i' = i
        · subst hii
          simp [eliminated, hrows, hnew]
        · simpa [eliminated, Function.update_of_ne hii, hii] using hrows i'
      · have hne : ∀ e ∈ s.2.1 i, e.1 ≠ j := by
          rintro e he rfl
          obtain ⟨hfill, hlt⟩ := hcol e he
          have hmem : e.1 ∈ pattern := (hpattern.mem _).mpr (.join hfill hi hlt)
          rcases List.mem_append.mp (hdone hmem) with hdone | hdone
          · exact horder.2.2 e.1 hdone i (by simp) hfill
          · exact hfill.lt.ne (List.mem_singleton.mp hdone).symm
        simp only [eliminated, getElem?_subtracted_of_ne _ hne]
        rw [Array.getElem?_modify]
        by_cases hij : i = j
        · subst hij
          simp [hsize, hj]
        · rw [if_neg hij]
          refine hzero j hj fun hmem => ?_
          have := hdone hmem
          simpa [Ne.symm hij] using this
  exact hstep.2.2 j hj id

/-! ## Rows -/

/-- What holds before row `k` is computed. -/
structure Rows (F : Ldl α) (k : ℕ) (w : Work α) (c : ℕ → List (ℕ × α)) : Prop where
  /-- The columns in storage. -/
  stores : Stores (columnStart (Stored F.permuted) F.dim) F.dim w c
  /-- The columns have the rows below `k` that they fill. -/
  rows : ∀ i, (c i).map Prod.fst = rowsBelow (Stored F.permuted) k i
  y : w.y = Vec.zeros F.dim
  /-- Nothing is marked for a later row. -/
  mark : Unmarked F.dim k w.mark
  size_stack : w.stack.size = F.dim
  size_diag : w.diag.size = F.dim

/-- The outcome of the eliminations of row `k`, in the order of a pattern. -/
def rowOf (F : Ldl α) (k : ℕ) (pattern : List ℕ) (d : ℕ → α) (c : ℕ → List (ℕ × α)) :
    Array α × (ℕ → List (ℕ × α)) × α :=
  let y := scattered (F.permuted.column k) (Vec.zeros F.dim)
  pattern.foldl (eliminated k d) (y.modify k fun _ => 0, c, y.getD k 0)

/-- The columns `done` have been eliminated in row `k`, from the state `s₀` on. -/
structure Partway (F : Ldl α) (k : ℕ) (d : ℕ → α) (c : ℕ → List (ℕ × α)) (s₀ : Work α × α)
    (done : List ℕ) (s : Work α × α) : Prop where
  pivot : s.2 = (done.foldl (eliminated k d) (s₀.1.y, c, s₀.2)).2.2
  y : s.1.y = (done.foldl (eliminated k d) (s₀.1.y, c, s₀.2)).1
  stores : Stores (columnStart (Stored F.permuted) F.dim) F.dim s.1
    (done.foldl (eliminated k d) (s₀.1.y, c, s₀.2)).2.1
  mark : s.1.mark = s₀.1.mark
  stack : s.1.stack = s₀.1.stack
  diag : s.1.diag = s₀.1.diag
  regularized : s.1.regularized = s₀.1.regularized

/-- The next elimination succeeds.  It finds room in its column. -/
theorem Partway.exists_eliminate? (hF : F.Symbolic) (hk : k < F.dim)
    (hrows : ∀ i, (c i).map Prod.fst = rowsBelow (Stored F.permuted) k i)
    (hpattern : RowPattern (Stored F.permuted) (fun i => Fill (Stored F.permuted) i k) pattern)
    {s₀ s : Work α × α} (hy : s₀.1.y.size = F.dim) {d : ℕ → α} (hd : Holds s₀.1.diag F.dim d)
    {done rest : List ℕ} {i : ℕ} (heq : pattern = done ++ i :: rest)
    (h : Partway F k d c s₀ done s) :
    ∃ s', eliminate? F k s i = some s' ∧ Partway F k d c s₀ (done ++ [i]) s' := by
  obtain ⟨w, dk⟩ := s
  have hi : Fill (Stored F.permuted) i k := (hpattern.mem i).mp (heq ▸ by simp)
  have hroom := length_foldl_eliminated_lt hk d hpattern hrows heq s₀.1.y s₀.2
  have hnodup := hpattern.nodup
  rw [heq, List.nodup_append] at hnodup
  have hnew : i ∉ done := fun hmem => hnodup.2.2 i hmem i (by simp) rfl
  have hfst := map_fst_foldl_eliminated (k := k) d hnodup.1 hrows s₀.1.y s₀.2
  have hlen := length_le_of_map_fst hk
    (fun j hj => (hpattern.mem j).mp (heq ▸ List.mem_append_left _ hj)) hfst
  obtain ⟨hpivot, hy', hstores, hmark, hstack, hdiag, hreg⟩ := h
  set t := done.foldl (eliminated k d) (s₀.1.y, c, s₀.2) with ht
  obtain ⟨w', hstep, hy'', hstores', hmark', hstack', hdiag', hreg'⟩ :=
    Ldl.exists_eliminate? (k := k) hF.colPtr (fun i j hij => columnStart_mono _ hij) hstores
      (fun j _ => by
        rw [columnStart_succ]
        exact Nat.add_le_add_left (hlen j) _)
      (hi.lt.trans hk) hk (by
        rw [columnStart_succ]
        exact Nat.add_lt_add_left hroom _)
      (by rw [hy', ht, size_foldl_eliminated, hy])
      (fun e he => by
        have hmem := List.mem_map_of_mem (f := Prod.fst) he
        rw [hfst i, if_neg hnew, mem_rowsBelow] at hmem
        exact hmem.1.trans hk)
      (hdiag.symm ▸ hd) dk
  have hpair : (w.y, t.2.1, dk) = t := by
    rw [show w.y = t.1 from hy', show dk = t.2.2 from hpivot]
  rw [hpair] at hstep hy'' hstores'
  refine ⟨_, hstep, ?_, ?_, ?_, hmark'.trans hmark, hstack'.trans hstack, hdiag'.trans hdiag,
    hreg'.trans hreg⟩ <;> rw [List.foldl_append, List.foldl_cons, List.foldl_nil, ← ht]
  · exact hy''
  · exact hstores'

/-- The first eliminations of a row succeed. -/
theorem exists_partway (hF : F.Symbolic) (hk : k < F.dim)
    (hrows : ∀ i, (c i).map Prod.fst = rowsBelow (Stored F.permuted) k i)
    (hpattern : RowPattern (Stored F.permuted) (fun i => Fill (Stored F.permuted) i k) pattern)
    (s₀ : Work α × α) (hstores : Stores (columnStart (Stored F.permuted) F.dim) F.dim s₀.1 c)
    (hy : s₀.1.y.size = F.dim) {d : ℕ → α} (hd : Holds s₀.1.diag F.dim d) {done rest : List ℕ}
    (heq : pattern = done ++ rest) :
    ∃ s, done.foldlM (eliminate? F k) s₀ = some s ∧ Partway F k d c s₀ done s := by
  refine Loop.exists_foldlM (f := eliminate? F k) (Partway F k d c s₀)
    ⟨rfl, rfl, hstores, rfl, rfl, rfl, rfl⟩ fun done' i rest' heq' s h => ?_
  exact h.exists_eliminate? hF hk hrows hpattern hy hd
    (show pattern = done' ++ i :: (rest' ++ rest) by simp [heq, heq'])

end Conic.Ldl
