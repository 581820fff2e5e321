import Conic.Ldl.Numeric
import Conic.Proofs.Arrays
import Conic.Proofs.Sparse.Layout

/-!
# The permuted triangle

`Ldl.permuteTriu?` sorts the entries of a triangle into the columns of the
permuted one by counting.  `Ldl.Permuted` says what comes out: every entry has
a place of its own, in the right column and with the right row, and carries its
value.  No other entry is there.

The loop keeps `Ldl.Placing`: the entries put in place so far stand in the
beginning of their columns, one behind the other.  Two entries never get the
same place, since the columns do not overlap and the next free position of a
column only grows.

Other values go to the same places.  So they can be loaded into the permuted
triangle, and the result is what permuting them gives
(`permuteTriu?_overwrite`).

The relation does not say in which order the entries of a column stand.
Nothing that is built on the permuted triangle depends on that order, except
for the rounding of sums.
-/

namespace Conic.Ldl

/-! ## Orders and their inverses -/

/-- `π` and `ι` are inverse to each other on the numbers below `n`. -/
structure Inverts (n : ℕ) (π ι : ℕ → ℕ) : Prop where
  lt : ∀ k < n, π k < n
  inv_lt : ∀ i < n, ι i < n
  left : ∀ k < n, ι (π k) = k
  right : ∀ i < n, π (ι i) = i

/-- An order of `n` rows is a permutation of the numbers below `n`. -/
theorem isOrder_iff_perm_range {n : ℕ} {l : List ℕ} :
    Ordering.isOrder n l = true ↔ l.Perm (List.range n) := by
  simp only [Ordering.isOrder, Bool.and_eq_true, beq_iff_eq, List.all_eq_true,
    List.contains_iff_mem]
  constructor
  · rintro ⟨hlen, hmem⟩
    have hsub : (List.range n).Subperm l := List.subperm_of_subset List.nodup_range hmem
    exact (hsub.perm_of_length_le (by simp [hlen])).symm
  · intro h
    exact ⟨by simpa using h.length_eq, fun i hi => h.symm.subset hi⟩

/-- Inverting an order succeeds and gives its inverse. -/
theorem exists_inverse? {n : ℕ} {perm : Array ℕ} (h : Ordering.isOrder n perm.toList = true) :
    ∃ inv π ι, inverse? n perm = some inv ∧ Holds perm n π ∧ Holds inv n ι ∧ Inverts n π ι := by
  have hperm := isOrder_iff_perm_range.mp h
  have hsize : perm.size = n := by simpa using hperm.length_eq
  have hnodup : perm.toList.Nodup := hperm.nodup_iff.mpr List.nodup_range
  have hπ := Holds.of_getD perm 0
  rw [hsize] at hπ
  set π : ℕ → ℕ := fun i => perm.getD i 0 with hπdef
  have hmem (k : ℕ) (hk : k < n) : π k ∈ perm.toList := by
    rw [hπ.toList]
    exact List.mem_map_of_mem (List.mem_range.mpr hk)
  have hlt (k : ℕ) (hk : k < n) : π k < n := List.mem_range.mp (hperm.subset (hmem k hk))
  have hinj (k l : ℕ) (hk : k < n) (hl : l < n) (hkl : π k = π l) : k = l := by
    rw [hπ.toList] at hnodup
    exact List.inj_on_of_nodup_map hnodup (List.mem_range.mpr hk) (List.mem_range.mpr hl) hkl
  have hzip : perm.toList.zipIdx = (List.range n).map fun k => (π k, k) := by
    rw [hπ.toList, List.zipIdx_map]
    apply List.ext_getElem?
    intro i
    by_cases hi : i < n <;> simp [hi]
  obtain ⟨inv, hinv, hsize', hleft, -⟩ := Loop.exists_foldlM_store (n := n) (d := π) id
    (a := Array.replicate n 0) (by simpa using hlt) fun k hk l hl => hinj k l hk hl
  have hι := Holds.of_getD inv 0
  rw [hsize', Array.size_replicate] at hι
  set ι : ℕ → ℕ := fun i => inv.getD i 0 with hιdef
  have hleft (k : ℕ) (hk : k < n) : ι (π k) = k :=
    Option.some.inj ((hι.get _ (hlt k hk)).symm.trans (hleft k hk))
  refine ⟨inv, π, ι, by rw [inverse?, hzip, List.foldlM_map]; exact hinv, hπ, hι, ?_⟩
  have hsurj (i : ℕ) (hi : i < n) : ∃ k < n, π k = i := by
    have hi' : i ∈ perm.toList := hperm.symm.subset (List.mem_range.mpr hi)
    rw [hπ.toList] at hi'
    obtain ⟨k, hk, hki⟩ := List.mem_map.mp hi'
    exact ⟨k, List.mem_range.mp hk, hki⟩
  refine ⟨hlt, fun i hi => ?_, hleft, fun i hi => ?_⟩
  · obtain ⟨k, hk, rfl⟩ := hsurj i hi
    rwa [hleft k hk]
  · obtain ⟨k, hk, rfl⟩ := hsurj i hi
    rw [hleft k hk]

/-- The inverse of an order gives the position of every row. -/
theorem Inverts.idxOf_eq {n : ℕ} {perm : Array ℕ} {π ι : ℕ → ℕ} (h : Inverts n π ι)
    (hπ : Holds perm n π) (hperm : perm.toList.Perm (List.range n)) {i : ℕ} (hi : i < n) :
    perm.toList.idxOf i = ι i := by
  have hnodup : perm.toList.Nodup := hperm.nodup_iff.mpr List.nodup_range
  have hlt : ι i < perm.toList.length := by
    rw [Array.length_toList, hπ.size]
    exact h.inv_lt i hi
  have hget : perm.toList[ι i] = i := by
    rw [Array.getElem_toList, hπ.getElem, h.right i hi]
  calc perm.toList.idxOf i = perm.toList.idxOf perm.toList[ι i] := by rw [hget]
    _ = ι i := hnodup.idxOf_getElem _ hlt

/-! ## Running sums -/

/-- The running sums are the sums of the first counts. -/
theorem holds_runningSums (counts : List ℕ) :
    Holds (runningSums counts) (counts.length + 1) fun c => (counts.take c).sum := by
  induction counts using List.reverseRecOn with
  | nil => exact ⟨rfl, fun i hi => by simp [runningSums, Nat.lt_one_iff.mp hi]⟩
  | append_singleton counts c ih =>
    have hpush : runningSums (counts ++ [c]) = (runningSums counts).push (counts.sum + c) := by
      have hlast := ih.get counts.length (by omega)
      rw [List.take_length] at hlast
      have hback : (runningSums counts).back?.getD 0 = counts.sum := by
        rw [Array.back?, ih.size, Nat.add_sub_cancel, hlast, Option.getD_some]
      rw [← hback]
      simp [runningSums]
    rw [hpush]
    refine ⟨by simp [ih.size], fun i hi => ?_⟩
    rw [List.length_append, List.length_singleton] at hi
    rw [Array.getElem?_push, ih.size]
    rcases Nat.lt_succ_iff_lt_or_eq.mp hi with hi | rfl
    · rw [if_neg hi.ne, ih.get i hi, List.take_append_of_le_length (by omega)]
    · rw [if_pos rfl, List.take_of_length_le (by simp)]
      simp

/-! ## Where the entries go -/

section

variable {α : Type}

/-- Where a cell of a triangle goes: the row and the column. -/
def target (M : Csc α) (ι : ℕ → ℕ) (p : ℕ × ℕ) : ℕ × ℕ :=
  (min (ι (M.row p.2)) (ι p.1), max (ι (M.row p.2)) (ι p.1))

/-- The number of cells that go to a column. -/
def share (M : Csc α) (ι : ℕ → ℕ) (cells : List (ℕ × ℕ)) (c : ℕ) : ℕ :=
  cells.countP fun p => (target M ι p).2 = c

/-- The first position of a column of the permuted triangle. -/
def offset (M : Csc α) (ι : ℕ → ℕ) (c : ℕ) : ℕ := ((List.range c).map (share M ι M.cells)).sum

/-- `P` holds the entries of `M`, each moved to its target, and the entry of
`M` at an index stands at `dest` of that index. -/
structure Permuted [Zero α] (M P : Csc α) (ι dest : ℕ → ℕ) : Prop where
  nrows_eq : P.nrows = M.ncols
  ncols_eq : P.ncols = M.ncols
  /-- The entries are divided into columns. -/
  divided : P.Divided
  /-- The cells are those of `M`, in another order. -/
  cells : P.cells.Perm (M.cells.map fun p => ((target M ι p).2, dest p.2))
  /-- The row at the place of an entry. -/
  row : ∀ p ∈ M.cells, P.row (dest p.2) = (target M ι p).1
  /-- The value at the place of an entry. -/
  value : ∀ p ∈ M.cells, P.value (dest p.2) = M.value p.2

/-- Counts by a key that is below `n` add up to the length. -/
theorem sum_countP_eq_length {γ : Type} (key : γ → ℕ) {n : ℕ} {l : List γ}
    (h : ∀ x ∈ l, key x < n) :
    ((List.range n).map fun c => l.countP fun x => key x = c).sum = l.length := by
  induction l with
  | nil => simp
  | cons x l ih =>
    have hx : ((List.range n).map fun c => if key x = c then 1 else 0).sum = 1 := by
      show ∑ c ∈ Finset.range n, (if key x = c then 1 else 0) = 1
      rw [Finset.sum_ite_eq, if_pos (Finset.mem_range.mpr (h x (by simp)))]
    simp only [List.countP_cons, List.sum_map_add, List.length_cons, decide_eq_true_eq]
    rw [ih fun y hy => h y (by simp [hy]), hx]

variable {M : Csc α} {ι : ℕ → ℕ}

theorem share_concat (done : List (ℕ × ℕ)) (p : ℕ × ℕ) (c : ℕ) :
    share M ι (done ++ [p]) c = share M ι done c + if (target M ι p).2 = c then 1 else 0 := by
  simp [share, List.countP_append, List.countP_singleton]

theorem share_le {done rest : List (ℕ × ℕ)} (h : M.cells = done ++ rest) (c : ℕ) :
    share M ι done c ≤ share M ι M.cells c := by
  rw [h, share, share, List.countP_append]
  exact Nat.le_add_right _ _

theorem offset_succ (c : ℕ) : offset M ι (c + 1) = offset M ι c + share M ι M.cells c := by
  simp [offset, List.range_succ]

theorem offset_mono {c c' : ℕ} (h : c ≤ c') : offset M ι c ≤ offset M ι c' := by
  induction c', h using Nat.le_induction with
  | base => exact le_rfl
  | succ c' _ ih => exact ih.trans (offset_succ (M := M) (ι := ι) c' ▸ Nat.le_add_right _ _)

/-- The columns do not overlap. -/
theorem offset_unique {c c' k : ℕ} (h : offset M ι c ≤ k ∧ k < offset M ι (c + 1))
    (h' : offset M ι c' ≤ k ∧ k < offset M ι (c' + 1)) : c = c' := by
  rcases lt_trichotomy c c' with hlt | heq | hlt
  · exact absurd (h.2.trans_le (offset_mono hlt)) (not_lt.mpr h'.1)
  · exact heq
  · exact absurd (h'.2.trans_le (offset_mono hlt)) (not_lt.mpr h.1)

theorem target_lt {n : ℕ} (hinv : ∀ i < n, ι i < n) {p : ℕ × ℕ} (hrow : M.row p.2 < n)
    (hcol : p.1 < n) : (target M ι p).1 ≤ (target M ι p).2 ∧ (target M ι p).2 < n :=
  ⟨min_le_max, max_lt (hinv _ hrow) (hinv _ hcol)⟩

theorem target?_eq {n : ℕ} {inv : Array ℕ} (hι : Holds inv n ι) {p : ℕ × ℕ} (hrow : M.row p.2 < n)
    (hcol : p.1 < n) : target? inv (M.row p.2) p.1 = some (target M ι p) := by
  simp [target?, hι.get _ hrow, hι.get _ hcol, target]

/-! ## The loops -/

theorem span?_eq (hM : M.Divided) {j : ℕ} (hj : j < M.ncols) : span? M j = some (M.span j) := by
  have hj' : j + 1 ≤ M.ncols := hj
  simp [span?, hM.colPtr_eq hj.le, hM.colPtr_eq hj', Csc.span]

/-- The row of every cell is below the number of columns. -/
theorem row_lt_of_mem_cells (hM : M.Valid) (hsq : M.nrows = M.ncols) {p : ℕ × ℕ}
    (hp : p ∈ M.cells) : M.row p.2 < M.ncols := by
  obtain ⟨hj, hidx⟩ := Csc.mem_cells.mp hp
  exact hsq ▸ hM.row_lt_of_mem_span hj hidx

/-- Counting the entries of each column of the permuted triangle succeeds. -/
theorem exists_counts (hM : M.Valid) (hsq : M.nrows = M.ncols) (hinv : ∀ i < M.ncols, ι i < M.ncols)
    {inv : Array ℕ} (hι : Holds inv M.ncols ι) :
    ∃ counts, (List.range M.ncols).foldlM (fun counts j => do
        (← M.rows? j).toList.foldlM (fun counts i => do
          update? counts (← target? inv i j).2 (· + 1)) counts) (Array.replicate M.ncols 0) =
        some counts ∧ Holds counts M.ncols (share M ι M.cells) := by
  have hloop : ∀ counts, (List.range M.ncols).foldlM (fun counts j => do
      (← M.rows? j).toList.foldlM (fun counts i => do
        update? counts (← target? inv i j).2 (· + 1)) counts) counts =
      M.cells.foldlM (fun counts p => update? counts (target M ι p).2 (· + 1)) counts := by
    intro counts
    rw [Csc.cells, Loop.foldlM_flatMap]
    refine Loop.foldlM_congr (fun j hj counts => ?_) counts
    have hj : j < M.ncols := List.mem_range.mp hj
    rw [hM.rows?_eq hj, Option.bind_eq_bind, Option.bind_some, hM.toList_rows hj, List.foldlM_map,
      List.foldlM_map]
    refine Loop.foldlM_congr (fun idx hidx counts => ?_) counts
    have hrow : M.row idx < M.ncols := hsq ▸ hM.row_lt_of_mem_span hj hidx
    rw [target?_eq (p := (j, idx)) hι hrow hj, Option.bind_eq_bind, Option.bind_some]
  rw [hloop]
  refine Loop.exists_foldlM (fun done counts => Holds counts M.ncols (share M ι done))
    (Holds.replicate _ 0) fun done p rest heq counts hcounts => ?_
  have hp : p ∈ M.cells := heq ▸ by simp
  obtain ⟨counts', hcounts', h⟩ := hcounts.update
    (target_lt hinv (row_lt_of_mem_cells hM hsq hp) (Csc.mem_cells.mp hp).1).2 (· + 1)
  refine ⟨counts', hcounts', h.congr fun c _ => ?_⟩
  rw [share_concat]
  by_cases hc : (target M ι p).2 = c
  · rw [hc, Function.update_self, if_pos rfl]
  · rw [Function.update_of_ne (Ne.symm hc), if_neg hc, Nat.add_zero]

/-- The permuted triangle while the entries of `done` are in place. -/
structure Placing [Zero α] (M : Csc α) (ι : ℕ → ℕ) (done : List (ℕ × ℕ)) (s : Placement α)
    (dest : ℕ → ℕ) : Prop where
  /-- The entries of a column stand in its beginning. -/
  next : Holds s.next M.ncols fun c => offset M ι c + share M ι done c
  size_rowIdx : s.rowIdx.size = M.nnz
  size_values : s.values.size = M.nnz
  /-- The places of the entries. -/
  places : Holds s.dest M.nnz dest
  /-- An entry stands in the part of its column that is filled. -/
  col : ∀ p ∈ done, offset M ι (target M ι p).2 ≤ dest p.2 ∧
    dest p.2 < offset M ι (target M ι p).2 + share M ι done (target M ι p).2
  /-- No two entries share a place. -/
  inj : ∀ p ∈ done, ∀ q ∈ done, dest p.2 = dest q.2 → p = q
  /-- The row at the place of an entry. -/
  row : ∀ p ∈ done, s.rowIdx[dest p.2]? = some (target M ι p).1
  /-- The value at the place of an entry. -/
  value : ∀ p ∈ done, s.values[dest p.2]? = some (M.value p.2)

/-- All columns together are as long as the entries are many. -/
theorem offset_ncols (hM : M.Valid) (hsq : M.nrows = M.ncols)
    (hinv : ∀ i < M.ncols, ι i < M.ncols) : offset M ι M.ncols = M.nnz := by
  rw [offset, ← hM.length_cells]
  exact sum_countP_eq_length (fun q => (target M ι q).2) fun q hq =>
    (target_lt hinv (row_lt_of_mem_cells hM hsq hq) (Csc.mem_cells.mp hq).1).2

/-- The next free position of a column lies in the column, as long as an entry
of the column is left. -/
theorem next_lt {done rest : List (ℕ × ℕ)} {p : ℕ × ℕ} (h : M.cells = done ++ p :: rest) :
    offset M ι (target M ι p).2 + share M ι done (target M ι p).2 <
      offset M ι ((target M ι p).2 + 1) := by
  have hsplit : M.cells = (done ++ [p]) ++ rest := by simp [h]
  have hle := share_le (ι := ι) hsplit (target M ι p).2
  rw [share_concat, if_pos rfl] at hle
  rw [offset_succ]
  omega

variable [Zero α] {done rest : List (ℕ × ℕ)} {p : ℕ × ℕ} {s : Placement α} {dest : ℕ → ℕ}

/-- The next free position of a column is free. -/
theorem Placing.dest_ne_next (h : Placing M ι done s dest) (hcells : M.cells = done ++ p :: rest)
    {q : ℕ × ℕ} (hq : q ∈ done) :
    dest q.2 ≠ offset M ι (target M ι p).2 + share M ι done (target M ι p).2 := by
  intro heq
  obtain ⟨hlo, hhi⟩ := h.col q hq
  have hle := share_le (ι := ι) hcells (target M ι q).2
  have hsame : (target M ι q).2 = (target M ι p).2 :=
    offset_unique (M := M) (ι := ι) (k := dest q.2) ⟨hlo, by rw [offset_succ]; omega⟩
      ⟨by omega, heq ▸ next_lt hcells⟩
  rw [hsame, heq] at hhi
  exact lt_irrefl _ hhi

/-- What holds of the places so far and of the new one holds of all. -/
theorem forall_mem_concat {P : ℕ × ℕ → Prop} (hdone : ∀ q ∈ done, P q) (hnew : P p) :
    ∀ q ∈ done ++ [p], P q := by
  intro q hq
  rcases List.mem_append.mp hq with hq | hq
  · exact hdone q hq
  · exact List.mem_singleton.mp hq ▸ hnew

/-- Putting one entry in its place keeps the others where they are. -/
theorem Placing.place (h : Placing M ι done s dest) (hM : M.Valid) (hsq : M.nrows = M.ncols)
    (hinv : ∀ i < M.ncols, ι i < M.ncols) {inv : Array ℕ} (hι : Holds inv M.ncols ι)
    (hcells : M.cells = done ++ p :: rest) :
    ∃ s' dest', place? M inv p.1 s p.2 = some s' ∧ Placing M ι (done ++ [p]) s' dest' := by
  have hp : p ∈ M.cells := hcells ▸ by simp
  obtain ⟨hj, hidx⟩ := Csc.mem_cells.mp hp
  have hrow := row_lt_of_mem_cells hM hsq hp
  have hcol := (target_lt hinv hrow hj).2
  have hfree (q : ℕ × ℕ) (hq : q ∈ done) := h.dest_ne_next hcells hq
  have hlt := next_lt (ι := ι) hcells
  have hknnz := hlt.trans_le (offset_ncols hM hsq hinv ▸ offset_mono hcol)
  set c := (target M ι p).2 with hc
  set k := offset M ι c + share M ι done c with hk
  have hpnnz : p.2 < M.nnz := (Csc.mem_span.mp hidx).2.trans_le (hM.first_succ_le_nnz hj)
  obtain ⟨next, hnext, hnext'⟩ := h.next.update hcol (· + 1)
  obtain ⟨rows, hrows⟩ := exists_update? (fun _ => (target M ι p).1) (h.size_rowIdx ▸ hknnz)
  obtain ⟨values, hvalues⟩ := exists_update? (fun _ => M.value p.2) (h.size_values ▸ hknnz)
  obtain ⟨dests, hdests, hdests'⟩ := h.places.update hpnnz fun _ => k
  refine ⟨⟨next, rows, values, dests⟩, Function.update dest p.2 k, ?_, ?_⟩
  · simp only [place?, hM.row_eq hj hidx, hM.value_eq hj hidx, Option.bind_eq_bind,
      Option.bind_some, target?_eq hι hrow hj, h.next.get _ hcol, ← hc, ← hk, hnext, hrows,
      hvalues, hdests, Option.pure_def]
  have hother (q : ℕ × ℕ) (hq : q ∈ done) : Function.update dest p.2 k q.2 = dest q.2 := by
    refine Function.update_of_ne (fun hqp => ?_) _ _
    have hnodup := hM.nodup_cells
    rw [hcells, List.nodup_append] at hnodup
    have hqp := hM.cell_eq (hcells ▸ List.mem_append_left _ hq) hp hqp
    exact hnodup.2.2 q hq p (by simp) hqp
  have hself : Function.update dest p.2 k p.2 = k := Function.update_self ..
  refine ⟨hnext'.congr fun c' _ => ?_, (size_of_update?_eq_some hrows).trans h.size_rowIdx,
    (size_of_update?_eq_some hvalues).trans h.size_values, hdests',
    forall_mem_concat (fun q hq => ?_) ?_,
    forall_mem_concat (fun q hq => forall_mem_concat (fun q' hq' => ?_) ?_)
      (forall_mem_concat (fun q' hq' => ?_) fun _ => rfl),
    forall_mem_concat (fun q hq => ?_) ?_, forall_mem_concat (fun q hq => ?_) ?_⟩
  · -- the column of the entry is longer by one
    rw [share_concat, ← hc]
    by_cases hcc : c = c'
    · rw [← hcc, Function.update_self, if_pos rfl, Nat.add_assoc]
    · rw [Function.update_of_ne (Ne.symm hcc), if_neg hcc, Nat.add_zero]
  · rw [hother q hq, share_concat]
    exact ⟨(h.col q hq).1, (h.col q hq).2.trans_le (by omega)⟩
  · simp only [hself, share_concat, ← hc, if_true]
    omega
  · rw [hother q hq, hother q' hq']
    exact h.inj q hq q' hq'
  · rw [hother q hq, hself]
    exact fun heq => absurd heq (hfree q hq)
  · rw [hother q' hq', hself]
    exact fun heq => absurd heq.symm (hfree q' hq')
  · rw [hother q hq, getElem?_of_update?_eq_some hrows, if_neg (hfree q hq).symm]
    exact h.row q hq
  · rw [hself, getElem?_of_update?_eq_some hrows, if_pos rfl]
    simp [h.size_rowIdx, hknnz]
  · rw [hother q hq, getElem?_of_update?_eq_some hvalues, if_neg (hfree q hq).symm]
    exact h.value q hq
  · rw [hself, getElem?_of_update?_eq_some hvalues, if_pos rfl]
    simp [h.size_values, hknnz]

/-- The entries that are all in place are a permuted triangle. -/
theorem Placing.permuted (h : Placing M ι M.cells s dest) (hM : M.Valid) (hsq : M.nrows = M.ncols)
    (hinv : ∀ i < M.ncols, ι i < M.ncols) {colPtr : Array ℕ}
    (hcol : Holds colPtr (M.ncols + 1) (offset M ι)) :
    Permuted M ⟨M.ncols, M.ncols, colPtr, s.rowIdx, s.values⟩ ι dest := by
  set P : Csc α := ⟨M.ncols, M.ncols, colPtr, s.rowIdx, s.values⟩ with hP
  have hfirst {c : ℕ} (hc : c ≤ M.ncols) : P.first c = offset M ι c :=
    hcol.getD (Nat.lt_succ_of_le hc) 0
  have hdiv : P.Divided := {
    size_colPtr := hcol.size
    size_rowIdx := h.size_rowIdx.trans h.size_values.symm
    first_zero := hfirst (Nat.zero_le _)
    first_ncols := by rw [hfirst le_rfl, offset_ncols hM hsq hinv]; exact h.size_values.symm
    mono := fun c hc => by
      rw [hfirst (le_of_lt hc), hfirst hc]
      exact offset_mono (Nat.le_succ c) }
  have hmem : ∀ p ∈ M.cells, ((target M ι p).2, dest p.2) ∈ P.cells := by
    intro p hp
    have hlt := (target_lt hinv (row_lt_of_mem_cells hM hsq hp) (Csc.mem_cells.mp hp).1).2
    obtain ⟨hlo, hhi⟩ := h.col p hp
    refine Csc.mem_cells.mpr ⟨hlt, Csc.mem_span.mpr ?_⟩
    rw [hfirst hlt.le, hfirst hlt, offset_succ]
    exact ⟨hlo, hhi⟩
  have hperm : P.cells.Perm (M.cells.map fun p => ((target M ι p).2, dest p.2)) := by
    have hnodup : (M.cells.map fun p => ((target M ι p).2, dest p.2)).Nodup :=
      hM.nodup_cells.map_on fun p hp q hq heq => h.inj p hp q hq (Prod.mk.inj heq).2
    have hsub := List.subperm_of_subset hnodup fun q hq => by
      obtain ⟨p, hp, rfl⟩ := List.mem_map.mp hq
      exact hmem p hp
    refine (hsub.perm_of_length_le ?_).symm
    rw [List.length_map, hdiv.length_cells, hM.length_cells]
    exact h.size_values.le
  refine ⟨rfl, rfl, hdiv, hperm, fun p hp => ?_, fun p hp => ?_⟩
  · rw [Csc.row, Array.getD_eq_getD_getElem?, h.row p hp, Option.getD_some]
  · rw [Csc.value, Array.getD_eq_getD_getElem?, h.value p hp, Option.getD_some]

/-- Permuting a square triangle succeeds in every order. -/
theorem exists_permuteTriu? (hM : M.Valid) (hsq : M.nrows = M.ncols) {perm : Array ℕ}
    (hperm : Ordering.isOrder M.ncols perm.toList = true) :
    ∃ P places π ι dest, permuteTriu? M perm = some (P, places) ∧ Holds perm M.ncols π ∧
      Inverts M.ncols π ι ∧ Holds places M.nnz dest ∧ Permuted M P ι dest := by
  obtain ⟨inv, π, ι, hinv, hπ, hι, hinverts⟩ := exists_inverse? hperm
  obtain ⟨counts, hcounts, hshare⟩ := exists_counts hM hsq hinverts.inv_lt hι
  have hcol : Holds (runningSums counts.toList) (M.ncols + 1) (offset M ι) := by
    have hsums := holds_runningSums counts.toList
    rw [hshare.toList, List.length_map, List.length_range] at hsums
    rw [hshare.toList]
    refine hsums.congr fun c hc => ?_
    rw [← List.map_take, List.take_range, Nat.min_eq_left (Nat.le_of_lt_succ hc)]
    rfl
  have hpop : Holds (runningSums counts.toList).pop M.ncols
      fun c => offset M ι c + share M ι [] c := by
    refine ⟨by simp [hcol.size], fun c hc => ?_⟩
    rw [Array.getElem?_pop, hcol.size, if_pos (by omega), hcol.get c (by omega)]
    simp [share]
  have hstart : Placing M ι [] ⟨(runningSums counts.toList).pop, Array.replicate M.nnz 0,
      Array.replicate M.nnz 0, Array.replicate M.nnz 0⟩ fun _ => 0 :=
    ⟨hpop, by simp, by simp, Holds.replicate _ _, by simp, by simp, by simp, by simp⟩
  obtain ⟨s, hs, dest, hplacing⟩ := Loop.exists_foldlM (l := M.cells)
    (f := fun s p => place? M inv p.1 s p.2)
    (fun done s => ∃ dest, Placing M ι done s dest) ⟨_, hstart⟩ (by
      rintro done p rest heq s ⟨dest, h⟩
      obtain ⟨s', dest', hs', h'⟩ := h.place hM hsq hinverts.inv_lt hι heq
      exact ⟨s', hs', dest', h'⟩)
  refine ⟨_, s.dest, π, ι, dest, ?_, hπ, hinverts, hplacing.places,
    hplacing.permuted hM hsq hinverts.inv_lt hcol⟩
  have hloop : ∀ s, (List.range M.ncols).foldlM (fun s j => do
      (← span? M j).foldlM (place? M inv j) s) s =
      M.cells.foldlM (fun s p => place? M inv p.1 s p.2) s := by
    intro s
    rw [Csc.cells, Loop.foldlM_flatMap]
    refine Loop.foldlM_congr (fun j hj s => ?_) s
    rw [span?_eq hM.toDivided (List.mem_range.mp hj), Option.bind_eq_bind, Option.bind_some,
      List.foldlM_map]
  simp only [Option.bind_eq_bind] at hcounts hloop
  simp only [permuteTriu?, Option.bind_eq_bind, hinv, Option.bind_some, hcounts, hloop, hs,
    Option.pure_def]

/-! ## The permuted triangle -/

namespace Permuted

variable {P : Csc α} (hP : Permuted M P ι dest)

include hP

theorem nnz_eq (hM : M.Divided) : P.nnz = M.nnz := by
  have hlen := hP.cells.length_eq
  rwa [List.length_map, hP.divided.length_cells, hM.length_cells] at hlen

/-- Every entry of the permuted triangle is one of `M`. -/
theorem exists_cell {c k : ℕ} (hc : c < M.ncols) (hk : k ∈ P.span c) :
    ∃ p ∈ M.cells, (target M ι p).2 = c ∧ dest p.2 = k := by
  have hmem : (c, k) ∈ P.cells := Csc.mem_cells.mpr ⟨hP.ncols_eq.symm ▸ hc, hk⟩
  obtain ⟨p, hp, heq⟩ := List.mem_map.mp (hP.cells.subset hmem)
  exact ⟨p, hp, (Prod.mk.inj heq).1, (Prod.mk.inj heq).2⟩

/-- Every entry of `M` is one of the permuted triangle. -/
theorem mem_cells {p : ℕ × ℕ} (hp : p ∈ M.cells) : ((target M ι p).2, dest p.2) ∈ P.cells :=
  hP.cells.symm.subset (List.mem_map_of_mem hp)

theorem dest_lt {p : ℕ × ℕ} (hp : p ∈ M.cells) : dest p.2 < P.nnz := by
  obtain ⟨hc, hk⟩ := Csc.mem_cells.mp (hP.mem_cells hp)
  exact (Csc.mem_span.mp hk).2.trans_le (hP.divided.first_succ_le_nnz hc)

/-- The places are all positions, in another order. -/
theorem perm_dest : (M.cells.map fun p => dest p.2).Perm (List.range P.nnz) := by
  have hsnd := hP.cells.map Prod.snd
  rw [hP.divided.map_snd_cells, List.map_map] at hsnd
  exact hsnd.symm

theorem dest_inj {p q : ℕ × ℕ} (hp : p ∈ M.cells) (hq : q ∈ M.cells) (h : dest p.2 = dest q.2) :
    p = q :=
  List.inj_on_of_nodup_map (hP.perm_dest.nodup_iff.mpr List.nodup_range) hp hq h

theorem row_le {c k : ℕ} (hc : c < M.ncols) (hk : k ∈ P.span c) : P.row k ≤ c := by
  obtain ⟨p, hp, rfl, rfl⟩ := hP.exists_cell hc hk
  rw [hP.row p hp]
  exact min_le_max

theorem isTriu : P.IsTriu :=
  hP.divided.isTriu_iff.mpr fun _ hc _ hk => hP.row_le (hP.ncols_eq ▸ hc) hk

theorem valid : P.Valid :=
  hP.divided.valid_of_isTriu hP.isTriu (hP.nrows_eq.trans hP.ncols_eq.symm)

end Permuted

/-! ## Other values -/

omit [Zero α] in
/-- The matrix with other values in the beginning, as far as there are any. -/
def overwrite (M : Csc α) (values : Array α) : Csc α :=
  { M with values := M.values.mapIdx fun i v => values[i]?.getD v }

omit [Zero α] in
@[simp] theorem nnz_overwrite (M : Csc α) (values : Array α) :
    (overwrite M values).nnz = M.nnz := by
  simp [overwrite, Csc.nnz]

omit [Zero α] in
theorem getElem?_overwrite (M : Csc α) (values : Array α) (i : ℕ) :
    (overwrite M values).values[i]? = if i < values.size ∧ i < M.nnz then values[i]?
      else M.values[i]? := by
  simp only [overwrite, Csc.nnz, Array.getElem?_mapIdx]
  by_cases hi : i < M.values.size
  · by_cases hv : i < values.size <;> simp [hi, hv]
  · simp [hi]

omit [Zero α] in
/-- As many values as there are entries replace all of them. -/
theorem overwrite_of_size_eq {values : Array α} (h : values.size = M.nnz) :
    overwrite M values = { M with values := values } := by
  have hvalues : (overwrite M values).values = values := by
    apply Array.ext_getElem?
    intro i
    rw [getElem?_overwrite]
    split
    · rfl
    · rw [Array.getElem?_eq_none (by unfold Csc.nnz at *; omega), Array.getElem?_eq_none (by omega)]
  exact congrArg (fun values => { M with values := values }) hvalues

omit [Zero α] in
theorem valid_overwrite (hM : M.Valid) (values : Array α) : (overwrite M values).Valid :=
  hM.withValues (nnz_overwrite M values)

omit [Zero α] in
theorem isTriu_overwrite (htri : M.IsTriu) (hM : M.Valid) (values : Array α) :
    (overwrite M values).IsTriu :=
  htri.withValues hM (nnz_overwrite M values)

/-- Values stored one after the other at different places. -/
theorem getElem?_foldl_setIfInBounds {β : Type} {n : ℕ} {d : ℕ → ℕ} (v : ℕ → β) {a : Array β}
    (hlt : ∀ i < n, d i < a.size) (hinj : ∀ i < n, ∀ j < n, d i = d j → i = j) :
    ((List.range n).foldl (fun a i => a.setIfInBounds (d i) (v i)) a).size = a.size ∧
      (∀ i < n, ((List.range n).foldl (fun a i => a.setIfInBounds (d i) (v i)) a)[d i]? =
        some (v i)) ∧
      ∀ p, (∀ i < n, d i ≠ p) →
        ((List.range n).foldl (fun a i => a.setIfInBounds (d i) (v i)) a)[p]? = a[p]? := by
  induction n with
  | zero => simp
  | succ n ih =>
    obtain ⟨hsize, hget, hother⟩ := ih (fun i hi => hlt i (by omega)) fun i hi j hj =>
      hinj i (by omega) j (by omega)
    rw [List.range_succ, List.foldl_append, List.foldl_cons, List.foldl_nil]
    refine ⟨by simpa using hsize, fun i hi => ?_, fun p hp => ?_⟩
    · rw [Array.getElem?_setIfInBounds]
      rcases Nat.lt_succ_iff_lt_or_eq.mp hi with hi' | rfl
      · rw [if_neg fun heq => hi'.ne' (hinj n (by omega) i hi heq)]
        exact hget i hi'
      · rw [if_pos rfl, hsize, if_pos (hlt i hi)]
    · rw [Array.getElem?_setIfInBounds, if_neg (hp n (Nat.lt_succ_self n))]
      exact hother p fun i hi => hp i (Nat.lt_succ_of_lt hi)

/-- Loading values puts each of them in the place of its entry. -/
theorem Permuted.load {P : Csc α} (hP : Permuted M P ι dest) (hM : M.Divided) {places : Array ℕ}
    (hplaces : Holds places M.nnz dest) (values : Array α) :
    Permuted (overwrite M values)
      { P with values :=
          (places.zip values).foldl (fun vs p => vs.setIfInBounds p.1 p.2) P.values } ι dest := by
  have hidx {i : ℕ} (hi : i < M.nnz) : ∃ p ∈ M.cells, p.2 = i := by
    have hmem : i ∈ M.cells.map Prod.snd := hM.map_snd_cells ▸ List.mem_range.mpr hi
    obtain ⟨p, hp, hpi⟩ := List.mem_map.mp hmem
    exact ⟨p, hp, hpi⟩
  have hinj (i j : ℕ) (hi : i < M.nnz) (hj : j < M.nnz) (heq : dest i = dest j) : i = j := by
    obtain ⟨p, hp, rfl⟩ := hidx hi
    obtain ⟨q, hq, rfl⟩ := hidx hj
    rw [hP.dest_inj hp hq heq]
  set m := min M.nnz values.size with hm
  have hlist : (places.zip values).toList =
      (List.range m).map fun i => (dest i, values.getD i 0) := by
    rw [Array.toList_zip, hplaces.toList, (Holds.of_getD values 0).toList]
    apply List.ext_getElem (by simp [hm])
    intro i hi hi'
    simp
  obtain ⟨hsize, hget, hother⟩ := getElem?_foldl_setIfInBounds (n := m) (d := dest)
    (fun i => values.getD i 0) (a := P.values)
    (fun i hi => by
      obtain ⟨p, hp, rfl⟩ := hidx (show i < M.nnz by omega)
      exact hP.dest_lt hp)
    (fun i hi j hj => hinj i j (by omega) (by omega))
  rw [← Array.foldl_toList, hlist, List.foldl_map]
  set loaded := (List.range m).foldl
    (fun xs i => xs.setIfInBounds (dest i) (values.getD i 0)) P.values with hloaded
  have hdiv : ({ P with values := loaded } : Csc α).Divided :=
    ⟨hP.divided.size_colPtr, hP.divided.size_rowIdx.trans hsize.symm, hP.divided.first_zero,
      hP.divided.first_ncols.trans hsize.symm, hP.divided.mono⟩
  refine ⟨hP.nrows_eq, hP.ncols_eq, hdiv, hP.cells, hP.row, fun p hp => ?_⟩
  have hp' : p.2 < M.nnz := by
    obtain ⟨hj, hidx⟩ := Csc.mem_cells.mp hp
    exact (Csc.mem_span.mp hidx).2.trans_le (hM.first_succ_le_nnz hj)
  rw [Csc.value, Csc.value, Array.getD_eq_getD_getElem?, Array.getD_eq_getD_getElem?,
    getElem?_overwrite]
  by_cases hpm : p.2 < values.size
  · rw [if_pos ⟨hpm, hp'⟩, hget p.2 (by omega)]
    simp [hpm]
  · rw [if_neg fun h => hpm h.1, hother (dest p.2) fun i hi heq => by
      have := hinj i p.2 (by omega) hp' heq
      omega, ← Array.getD_eq_getD_getElem?, ← Array.getD_eq_getD_getElem?]
    exact hP.value p hp

/-- Two placements that differ in the values only. -/
structure SamePlaces (s t : Placement α) : Prop where
  next : t.next = s.next
  rowIdx : t.rowIdx = s.rowIdx
  dest : t.dest = s.dest
  /-- There are as many values. -/
  size_values : t.values.size = s.values.size

omit [Zero α] in
/-- Where an entry goes does not depend on the values. -/
theorem SamePlaces.exists_place? {inv : Array ℕ} {j idx : ℕ} {s s' t : Placement α}
    (hst : SamePlaces s t) (values : Array α) (h : place? M inv j s idx = some s') :
    ∃ t', place? (overwrite M values) inv j t idx = some t' ∧ SamePlaces s' t' := by
  simp only [place?, Option.bind_eq_bind, Option.bind_eq_some_iff, Option.pure_def,
    Option.some.injEq] at h
  obtain ⟨row, hrow, rc, hrc, k, hk, v, hv, next, hnext, rows, hrows, vs, hvs, dest, hdest, rfl⟩ :=
    h
  have hidx : idx < (overwrite M values).values.size := by
    rw [show (overwrite M values).values.size = M.values.size from nnz_overwrite M values]
    exact (Array.getElem?_eq_some_iff.mp hv).1
  have hkt : k < t.values.size := hst.size_values ▸ lt_size_of_update?_eq_some hvs
  obtain ⟨vs', hvs'⟩ := exists_update? (fun _ => (overwrite M values).values[idx]) hkt
  have hrow' : (overwrite M values).rowIdx[idx]? = some row := hrow
  refine ⟨⟨next, rows, vs', dest⟩, ?_, rfl, rfl, rfl, ?_⟩
  · simp only [place?, hrow', Array.getElem?_eq_getElem hidx, hst.next, hst.rowIdx, hst.dest, hrc,
      hk, hnext, hrows, hvs', hdest, Option.bind_eq_bind, Option.bind_some, Option.pure_def]
  · exact (size_of_update?_eq_some hvs').trans
      (hst.size_values.trans (size_of_update?_eq_some hvs).symm)

/-- Other values are permuted the same way. -/
theorem exists_permuteTriu?_overwrite {P : Csc α} {perm places : Array ℕ}
    (h : permuteTriu? M perm = some (P, places)) (values : Array α) :
    ∃ vs, permuteTriu? (overwrite M values) perm = some ({ P with values := vs }, places) := by
  simp only [permuteTriu?, Option.bind_eq_bind, Option.bind_eq_some_iff, Option.pure_def,
    Option.some.injEq, Prod.mk.injEq] at h
  obtain ⟨inv, hinv, counts, hcounts, s, hs, rfl, rfl⟩ := h
  obtain ⟨t, ht, hst⟩ := Loop.exists_foldlM_of_rel
    (g := fun s j => (span? M j).bind fun l => l.foldlM (place? (overwrite M values) inv j) s)
    SamePlaces ⟨rfl, rfl, rfl, rfl⟩ (fun j _ s t s' hst hs' => by
      obtain ⟨l, hl, hs'⟩ := Option.bind_eq_some_iff.mp hs'
      obtain ⟨t', ht', hst'⟩ := Loop.exists_foldlM_of_rel
        (g := place? (overwrite M values) inv j) SamePlaces hst
        (fun idx _ s t s' hst hs' => hst.exists_place? values hs') hs'
      exact ⟨t', by rw [hl, Option.bind_some, ht'], hst'⟩) hs
  refine ⟨t.values, ?_⟩
  simp only [permuteTriu?, Option.bind_eq_bind, Option.bind_eq_some_iff, Option.pure_def,
    Option.some.injEq, Prod.mk.injEq, nnz_overwrite]
  refine ⟨inv, hinv, counts, hcounts, t, ht, ?_, hst.dest⟩
  rw [hst.rowIdx]
  rfl

/-- The values of a permuted triangle are determined by the places of the
entries. -/
theorem Permuted.values_eq {P P' : Csc α} {ι' dest' : ℕ → ℕ} (hP : Permuted M P ι dest)
    (hP' : Permuted M P' ι' dest') (hM : M.Divided) (hdest : ∀ i < M.nnz, dest' i = dest i) :
    P'.values = P.values := by
  have hvalues := Holds.of_getD P.values 0
  have hvalues' := Holds.of_getD P'.values 0
  rw [show P.values.size = M.nnz from hP.nnz_eq hM] at hvalues
  rw [show P'.values.size = M.nnz from hP'.nnz_eq hM] at hvalues'
  refine (hvalues'.congr fun k hk => ?_).ext hvalues
  -- every position is the place of an entry
  have hmem : k ∈ P.cells.map Prod.snd := by
    rw [hP.divided.map_snd_cells, hP.nnz_eq hM]
    exact List.mem_range.mpr hk
  obtain ⟨q, hq, rfl⟩ := List.mem_map.mp hmem
  obtain ⟨p, hp, rfl⟩ := List.mem_map.mp (hP.cells.subset hq)
  have hp' : p.2 < M.nnz := by
    obtain ⟨hj, hidx⟩ := Csc.mem_cells.mp hp
    exact (Csc.mem_span.mp hidx).2.trans_le (hM.first_succ_le_nnz hj)
  have hvalue := hP'.value p hp
  rw [hdest p.2 hp'] at hvalue
  exact hvalue.trans (hP.value p hp).symm

/-- Permuting other values gives what loading them gives. -/
theorem permuteTriu?_overwrite (hM : M.Valid) (hsq : M.nrows = M.ncols) {P : Csc α}
    {perm places : Array ℕ} (hperm : Ordering.isOrder M.ncols perm.toList = true)
    (h : permuteTriu? M perm = some (P, places)) (values : Array α) :
    permuteTriu? (overwrite M values) perm = some
      ({ P with values :=
          (places.zip values).foldl (fun vs p => vs.setIfInBounds p.1 p.2) P.values }, places) := by
  obtain ⟨P₁, places₁, _, ι, dest, hpermute, -, -, hplaces, hP⟩ :=
    exists_permuteTriu? hM hsq hperm
  obtain ⟨rfl, rfl⟩ := Prod.mk.inj (Option.some.inj (h.symm.trans hpermute))
  have hM' := valid_overwrite hM values
  obtain ⟨P₂, places₂, _, ι', dest', hpermute', -, -, hplaces', hP'⟩ :=
    exists_permuteTriu? hM' hsq hperm
  obtain ⟨vs, hvs⟩ := exists_permuteTriu?_overwrite h values
  obtain ⟨rfl, rfl⟩ := Prod.mk.inj (Option.some.inj (hvs.symm.trans hpermute'))
  -- both have the entries at the same places, so they have the same values
  have hvalues : vs =
      (places.zip values).foldl (fun vs p => vs.setIfInBounds p.1 p.2) P.values :=
    (hP.load hM.toDivided hplaces values).values_eq hP' hM'.toDivided fun i hi =>
      hplaces'.eq_of_lt (nnz_overwrite M values ▸ hplaces) hi
  rw [hpermute', hvalues]

end

end Conic.Ldl
