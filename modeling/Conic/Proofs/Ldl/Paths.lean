import Mathlib
import Conic.Proofs.Ldl.Agreement

/-!
# Fill and paths

The triangle of a symmetric matrix is a graph.  Its nodes are the rows, and two
rows are neighbours if the triangle has an entry for them.

The fill of a triangle is given by paths in its graph: the factor has an entry at
`(k, i)` if a path leads from `i` to `k` through rows before `i`
(`Ldl.fill_iff_fillPath`).  One direction follows the eliminations that make the
entry.  Two paths from an eliminated row are joined to one.  The other direction
takes the rows between the ends away, the last one first.  Either a path does
without the row `b`, or it consists of two paths from `b` (`Ldl.PathBelow.split`).

So `Ldl.analyse?` counts paths, and the parent of a row is the first row to which a
path leads (`Ldl.exists_countsPaths`).  With each column of the triangle it goes from
one `Ldl.treeBefore?` to the next, and counts the column where a path leads to it.  A
factorisation lists the rows to which paths lead (`Ldl.Symbolic.listsPaths`).
`Ldl.analysis_follows_paths` says this of every triangle, and of an object after any
calls.
-/

namespace Conic.Ldl

open SimpleGraph

variable {E : ℕ → ℕ → Prop} {i j k b : ℕ}

/-! ## Paths -/

/-- The graph of the symmetric matrix of a triangle.  Two different rows are neighbours if
the triangle has an entry for them. -/
def graph (E : ℕ → ℕ → Prop) : SimpleGraph ℕ := fromRel E

/-- A path leads from row `i` to row `k`, and all rows on it, except for its ends, come
before `b`. -/
def PathBelow (E : ℕ → ℕ → Prop) (b i k : ℕ) : Prop :=
  ∃ p : (graph E).Walk i k, p.IsPath ∧ ∀ v ∈ p.support, v ≠ i → v ≠ k → v < b

/-- A path leads from row `i` to the later row `k` through rows before `i`. -/
def FillPath (E : ℕ → ℕ → Prop) (i k : ℕ) : Prop := i < k ∧ PathBelow E i i k

namespace PathBelow

/-- A walk may meet a row twice.  Without the detours it is a path. -/
theorem of_walk (p : (graph E).Walk i k) (h : ∀ v ∈ p.support, v ≠ i → v ≠ k → v < b) :
    PathBelow E b i k := by
  classical
  exact ⟨p.bypass, p.bypass_isPath, fun v hv => h v (p.support_bypass_subset_support hv)⟩

theorem symm (h : PathBelow E b i k) : PathBelow E b k i := by
  obtain ⟨p, hp, hbelow⟩ := h
  refine ⟨p.reverse, hp.reverse, fun v hv hvk hvi => hbelow v ?_ hvi hvk⟩
  simpa using hv

/-- Two paths meet in a row. -/
theorem join (hij : PathBelow E i i j) (hik : PathBelow E i i k) (h : i < j) :
    PathBelow E j j k := by
  obtain ⟨p, -, hp⟩ := hij
  obtain ⟨q, -, hq⟩ := hik
  refine of_walk (p.reverse.append q) fun v hv hvj hvk => ?_
  by_cases hvi : v = i
  · exact hvi ▸ h
  · rw [Walk.mem_support_append_iff, Walk.support_reverse, List.mem_reverse] at hv
    rcases hv with hv | hv
    · exact (hp v hv hvi hvj).trans h
    · exact (hq v hv hvi hvk).trans h

/-- A path through `b` and rows before it starts with a path from there. -/
theorem arm {p : (graph E).Walk i k} (hp : p.IsPath)
    (hbelow : ∀ v ∈ p.support, v ≠ i → v ≠ k → v < b + 1) (hb : b ∈ p.support) (hbk : b ≠ k) :
    PathBelow E b b i := by
  refine symm ⟨p.takeUntil b hb, hp.takeUntil hb, fun v hv hvi hvb => ?_⟩
  have hvk : v ≠ k := by
    rintro rfl
    exact Walk.endpoint_notMem_support_takeUntil hp hb hbk.symm hv
  have := hbelow v (p.support_takeUntil_subset_support hb hv) hvi hvk
  omega

/-- Either the path does not need `b`, or it consists of two paths from there. -/
theorem split (h : PathBelow E (b + 1) i k) (hi : b < i) (hk : b < k) :
    PathBelow E b i k ∨ PathBelow E b b i ∧ PathBelow E b b k := by
  obtain ⟨p, hp, hbelow⟩ := h
  by_cases hb : b ∈ p.support
  · refine .inr ⟨arm hp hbelow hb hk.ne, arm hp.reverse (fun v hv hvk hvi => ?_) ?_ hi.ne⟩
    · exact hbelow v (by simpa using hv) hvi hvk
    · simpa using hb
  · refine .inl ⟨p, hp, fun v hv hvi hvk => ?_⟩
    have hvb : v ≠ b := fun heq => hb (heq ▸ hv)
    have := hbelow v hv hvi hvk
    omega

/-- A path without other rows is an edge. -/
theorem adj (h : PathBelow E 0 i k) (hik : i ≠ k) : (graph E).Adj i k := by
  obtain ⟨p, hp, hbelow⟩ := h
  cases p with
  | nil => exact absurd rfl hik
  | @cons _ v _ hadj q =>
    by_cases hvk : v = k
    · exact hvk ▸ hadj
    · exact absurd (hbelow v (by simp) hadj.ne' hvk) (Nat.not_lt_zero v)

/-- A path through rows before both ends is fill.  The induction is on the rows that the
path may go through, in the order in which they are eliminated. -/
theorem fill (htri : ∀ i k, E i k → i ≤ k) (h : PathBelow E b i k) (hb : b ≤ i) (hik : i < k) :
    Fill E i k := by
  induction b generalizing i k with
  | zero =>
    obtain ⟨-, hE | hE⟩ := (fromRel_adj E i k).mp (h.adj hik.ne)
    · exact .entry hE hik
    · exact absurd (htri k i hE) (not_le.mpr hik)
  | succ b ih =>
    rcases h.split hb (hb.trans hik.le) with h | ⟨hi, hk⟩
    · exact ih h (Nat.le_of_succ_le hb) hik
    · exact .join (ih hi le_rfl hb) (ih hk le_rfl (hb.trans hik.le)) hik

end PathBelow

/-- The fill of a triangle is the paths through rows that come before both ends. -/
theorem fill_iff_fillPath (htri : ∀ i k, E i k → i ≤ k) : Fill E i k ↔ FillPath E i k := by
  refine ⟨fun h => ⟨h.lt, ?_⟩, fun h => h.2.fill htri le_rfl h.1⟩
  induction h with
  | @entry i k hE hlt =>
    have hadj : (graph E).Adj i k := (fromRel_adj E i k).mpr ⟨hlt.ne, .inl hE⟩
    exact .of_walk hadj.toWalk fun v hv hvi hvk => absurd hv (by simp [hvi, hvk])
  | join hij hik hlt ihij ihik => exact ihij.join ihik hij.lt

/-! ## The analysis -/

section

variable {α : Type} {P : Csc α}

theorem le_of_stored (hP : P.Divided) (htri : P.IsTriu) (i k : ℕ) (h : Stored P i k) : i ≤ k := by
  obtain ⟨hk, idx, hidx, rfl⟩ := h
  exact hP.isTriu_iff.mp htri k hk idx hidx

theorem Fill.lt_ncols (h : Fill (Stored P) i k) : k < P.ncols := by
  induction h with
  | entry hE _ => exact hE.1
  | join _ _ _ _ ih => exact ih

/-- The number of all rows that `i` fills. -/
theorem length_rowsBelow_eq_ncard (i : ℕ) :
    (rowsBelow (Stored P) P.ncols i).length = {k | Fill (Stored P) i k}.ncard := by
  have hset : {k | Fill (Stored P) i k} = ((rowsBelow (Stored P) P.ncols i).toFinset : Set ℕ) := by
    ext k
    simpa [mem_rowsBelow] using Fill.lt_ncols
  have hnodup : (rowsBelow (Stored P) P.ncols i).Nodup := List.nodup_range.filter _
  rw [hset, Set.ncard_coe_finset, List.toFinset_card_of_nodup hnodup]

/-- What the analysis of a triangle says about the graph of its symmetric matrix. -/
structure CountsPaths (P : Csc α) (parent : Array (Option ℕ)) (colPtr : Array ℕ) : Prop where
  size_parent : parent.size = P.ncols
  size_colPtr : colPtr.size = P.ncols + 1
  /-- Paths do not leave the matrix. -/
  inside : ∀ i k, FillPath (Stored P) i k → k < P.ncols
  /-- Column `k` of the triangle adds one to the counts of those columns from which a path
  leads to `k`, and nothing to the others. -/
  step : ∀ k < P.ncols, ∃ t t', treeBefore? P k = some t ∧ treeBefore? P (k + 1) = some t' ∧
    ∀ i < P.ncols, ∃ c, t.count[i]? = some c ∧
      (FillPath (Stored P) i k → t'.count[i]? = some (c + 1)) ∧
      (¬ FillPath (Stored P) i k → t'.count[i]? = some c)
  /-- A column of the factor has as many entries as there are rows to which a path leads. -/
  width : ∀ i < P.ncols, ∃ a, colPtr[i]? = some a ∧
    colPtr[i + 1]? = some (a + {k | FillPath (Stored P) i k}.ncard)
  /-- The parent is the first row to which a path leads. -/
  parent_some : ∀ i < P.ncols, ∀ p,
    parent[i]? = some (some p) ↔ IsLeast {k | FillPath (Stored P) i k} p
  /-- Without a path there is no parent. -/
  parent_none : ∀ i < P.ncols, parent[i]? = some none ↔ ∀ k, ¬ FillPath (Stored P) i k

theorem exists_countsPaths (hP : P.Divided) (htri : P.IsTriu) :
    ∃ parent colPtr, analyse? P = some (parent, colPtr) ∧ CountsPaths P parent colPtr := by
  obtain ⟨parent, colPtr, hanalyse, hparent, hcolPtr⟩ := exists_analyse? hP htri
  have hpath {i k : ℕ} : FillPath (Stored P) i k ↔ Fill (Stored P) i k :=
    (fill_iff_fillPath (le_of_stored hP htri)).symm
  refine ⟨parent, colPtr, hanalyse, ?_⟩
  constructor
  case size_parent => exact hparent.size
  case size_colPtr => exact hcolPtr.size
  case inside => exact fun i k h => (hpath.mp h).lt_ncols
  case step =>
    intro k hk
    obtain ⟨t, ht, hgrown⟩ := exists_treeBefore? hP htri hk.le
    obtain ⟨t', ht', hgrown'⟩ := exists_treeBefore? hP htri (Nat.succ_le_of_lt hk)
    refine ⟨t, t', ht, ht', fun i hi => ⟨_, hgrown.count.get i hi, fun h => ?_, fun h => ?_⟩⟩
    · rw [hgrown'.count.get i hi, rowsBelow_succ, if_pos (hpath.mp h), List.length_append]
      rfl
    · rw [hgrown'.count.get i hi, rowsBelow_succ, if_neg fun hfill => h (hpath.mpr hfill)]
  case width =>
    intro i hi
    refine ⟨_, hcolPtr.get i (by omega), ?_⟩
    simp only [hcolPtr.get (i + 1) (by omega), columnStart_succ, length_rowsBelow_eq_ncard, hpath]
  case parent_some =>
    intro i hi p
    rw [hparent.get i hi, Option.some.injEq, parentBelow_eq_some_iff]
    simp only [hpath]
    exact ⟨fun h => ⟨h.1.fill, h.1.le⟩, fun h => ⟨⟨h.1, fun k hk => h.2 hk⟩, h.1.lt_ncols⟩⟩
  case parent_none =>
    intro i hi
    rw [hparent.get i hi, Option.some.injEq, parentBelow_eq_none_iff]
    simp only [hpath]
    exact ⟨fun h k hfill => h k hfill.lt_ncols hfill, fun h k _ => h k⟩

end

/-! ## The order -/

section

variable {α : Type} {M P : Csc α} {π ι dest : ℕ → ℕ}

/-- Two rows are neighbours if some entry stands in the row of one and in the column of the
other. -/
theorem adj_iff_exists_cell {a b : ℕ} :
    (graph (Stored M)).Adj a b ↔ a ≠ b ∧ ∃ p ∈ M.cells, s(M.row p.2, p.1) = s(a, b) := by
  rw [graph, fromRel_adj]
  refine and_congr_right fun _ => ⟨?_, ?_⟩
  · rintro (⟨hb, idx, hidx, rfl⟩ | ⟨ha, idx, hidx, rfl⟩)
    · exact ⟨(b, idx), Csc.mem_cells.mpr ⟨hb, hidx⟩, rfl⟩
    · exact ⟨(a, idx), Csc.mem_cells.mpr ⟨ha, hidx⟩, Sym2.eq_swap⟩
  · rintro ⟨⟨j, idx⟩, hp, heq⟩
    obtain ⟨hj, hidx⟩ := Csc.mem_cells.mp hp
    rcases Sym2.eq_iff.mp heq with ⟨rfl, rfl⟩ | ⟨rfl, rfl⟩
    · exact .inl ⟨hj, idx, hidx, rfl⟩
    · exact .inr ⟨hj, idx, hidx, rfl⟩

theorem sym2_target (p : ℕ × ℕ) :
    s((target M ι p).1, (target M ι p).2) = s(ι (M.row p.2), ι p.1) := by
  rcases le_total (ι (M.row p.2)) (ι p.1) with h | h
  · rw [target, min_eq_left h, max_eq_right h]
  · rw [target, min_eq_right h, max_eq_left h, Sym2.eq_swap]

/-- The neighbours of a position are the positions of the neighbours of its row. -/
theorem Permuted.adj_iff [Zero α] (hP : Permuted M P ι dest) (hM : M.Valid)
    (hsq : M.nrows = M.ncols) (hπ : Inverts M.ncols π ι) {i k : ℕ} (hi : i < M.ncols)
    (hk : k < M.ncols) :
    (graph (Stored P)).Adj i k ↔ (graph (Stored M)).Adj (π i) (π k) := by
  have hne : i ≠ k ↔ π i ≠ π k :=
    not_congr ⟨congrArg π, fun h => by rw [← hπ.left i hi, h, hπ.left k hk]⟩
  have hcell (p : ℕ × ℕ) (hp : p ∈ M.cells) :
      s(ι (M.row p.2), ι p.1) = s(i, k) ↔ s(M.row p.2, p.1) = s(π i, π k) := by
    have hrow := row_lt_of_mem_cells hM hsq hp
    have hcol := (Csc.mem_cells.mp hp).1
    constructor
    · intro h
      have := congrArg (Sym2.map π) h
      rwa [Sym2.map_mk, Sym2.map_mk, hπ.right _ hrow, hπ.right _ hcol] at this
    · intro h
      have := congrArg (Sym2.map ι) h
      rwa [Sym2.map_mk, Sym2.map_mk, hπ.left _ hi, hπ.left _ hk] at this
  rw [adj_iff_exists_cell, adj_iff_exists_cell, hne]
  refine and_congr_right fun _ => ⟨?_, ?_⟩
  · rintro ⟨q, hq, heq⟩
    obtain ⟨p, hp, rfl⟩ := List.mem_map.mp (hP.cells.subset hq)
    rw [hP.row p hp, sym2_target, hcell p hp] at heq
    exact ⟨p, hp, heq⟩
  · rintro ⟨p, hp, heq⟩
    refine ⟨_, hP.cells.symm.subset (List.mem_map_of_mem hp), ?_⟩
    rw [hP.row p hp, sym2_target, hcell p hp]
    exact heq

end

/-! ## The factor -/

section

variable {α : Type} [Scalar α] {F : Ldl α} {w : Work α}

/-- The columns of the factor list the rows to which paths lead, in increasing order. -/
def ListsPaths (F : Ldl α) : Prop :=
  ∀ i < F.dim, ∃ a b rows, F.colPtr[i]? = some a ∧ F.colPtr[i + 1]? = some b ∧
    slice? F.rowIdx a b = some rows ∧ rows.toList.Pairwise (· < ·) ∧
    ∀ k, k ∈ rows ↔ FillPath (Stored F.permuted) i k

theorem Rows.listsPaths {c : ℕ → List (ℕ × α)} (h : Rows F F.dim w c) (hF : F.Symbolic) :
    (F.store w).ListsPaths := by
  intro i hi
  have hdim : (F.store w).dim = F.dim := h.size_diag
  rw [hdim] at hi
  refine ⟨_, _, _, hF.colPtr.get i (by omega), hF.colPtr.get (i + 1) (by omega), h.slice?_eq hi,
    List.pairwise_lt_range.filter _, fun k => ?_⟩
  show k ∈ _ ↔ FillPath (Stored F.permuted) i k
  rw [List.mem_toArray, mem_rowsBelow, ← fill_iff_fillPath (le_of_stored hF.divided hF.isTriu)]
  exact ⟨fun hk => hk.2, fun hk => ⟨hF.ncols_eq ▸ hk.lt_ncols, hk⟩⟩

theorem Symbolic.listsPaths (hF : F.Symbolic) {F' : Ldl α}
    (h : F.refactor? = some (F', none)) : F'.ListsPaths := by
  obtain ⟨w, e, hrefactor, -, hnone, -⟩ :=
    hF.exists_refactor? (fun _ _ _ => True) trivial (by simp)
  rw [h, Option.some.injEq, Prod.mk.injEq] at hrefactor
  obtain ⟨rfl, rfl⟩ := hrefactor
  obtain ⟨c, hw, -⟩ := hnone rfl
  exact hw.listsPaths hF

/-- The object has the analysis of its triangle. -/
theorem Carries.analyse?_eq {M : Csc α} {perm : Array ℕ} {reg : Option (Regularization α)}
    (h : Carries F M perm reg) : analyse? F.permuted = some (F.parent, F.colPtr) := by
  obtain ⟨G, w, hG, rfl⟩ := h.start
  simp only [start?, Option.bind_eq_bind, Option.bind_eq_some_iff, Option.pure_def,
    Option.some.injEq] at hG
  obtain ⟨⟨P, places⟩, -, ⟨parent, colPtr⟩, hanalyse, nnz, -, rfl⟩ := hG
  exact hanalyse

omit [Scalar α] in
/-- Calls keep the pattern of the matrix. -/
theorem stored_current (M : Csc α) (calls : List (Call α)) :
    Stored (current M calls) = Stored M := by
  induction calls generalizing M with
  | nil => rfl
  | cons call calls ih => cases call with
    | load values => exact ih (overwrite M values)
    | refactor => exact ih M
    | solve b => exact ih M

/-- What the paths in the graph of a triangle say about an object that holds the triangle in
an order. -/
structure FollowsPaths (F : Ldl α) (M : Csc α) : Prop where
  /-- The analysis is that of the triangle in its order. -/
  analysis : analyse? F.permuted = some (F.parent, F.colPtr)
  counts : CountsPaths F.permuted F.parent F.colPtr
  /-- Two positions are neighbours if their rows are. -/
  adj : ∀ i < F.dim, ∀ k < F.dim, ∃ a b, F.perm[i]? = some a ∧ F.perm[k]? = some b ∧
    ((graph (Stored F.permuted)).Adj i k ↔ (graph (Stored M)).Adj a b)
  /-- A factorisation with no pivot refused lists the paths. -/
  lists : ∀ F', F.refactor? = some (F', none) → F'.ListsPaths ∧ F'.permuted = F.permuted ∧
    F'.parent = F.parent ∧ F'.colPtr = F.colPtr

theorem Carries.followsPaths {M : Csc α} {perm : Array ℕ} {reg : Option (Regularization α)}
    (h : Carries F M perm reg) : FollowsPaths F M := by
  obtain ⟨π, ι, dest, hbelongs⟩ := h.belongs
  have hF := hbelongs.symbolic
  have hanalyse := h.analyse?_eq
  obtain ⟨parent, colPtr, hanalyse', hcounts⟩ := exists_countsPaths hF.divided hF.isTriu
  rw [hanalyse, Option.some.injEq, Prod.mk.injEq] at hanalyse'
  obtain ⟨rfl, rfl⟩ := hanalyse'
  refine ⟨hanalyse, hcounts, fun i hi k hk => ?_, fun F' hF' => ?_⟩
  · rw [hbelongs.dim_eq] at hi hk
    exact ⟨π i, π k, hbelongs.perm.get i hi, hbelongs.perm.get k hk,
      hbelongs.permuted.adj_iff h.valid h.square hbelongs.inverts hi hk⟩
  · obtain ⟨w, e, hrefactor, -⟩ := hF.exists_store
    refine ⟨hF.listsPaths hF', ?_⟩
    rw [hF', Option.some.injEq, Prod.mk.injEq] at hrefactor
    obtain ⟨rfl, -⟩ := hrefactor
    exact ⟨rfl, rfl, rfl⟩

end

/-- The analysis of a triangle counts the paths through earlier rows in the graph of its
symmetric matrix, and a factorisation lists them.  Columns need not be sorted and may repeat
rows. -/
theorem analysis_follows_paths :
    (∀ {α : Type} (P : Csc α), P.Divided → P.IsTriu →
      ∃ parent colPtr, analyse? P = some (parent, colPtr) ∧ CountsPaths P parent colPtr) ∧
    ∀ {α : Type} [Scalar α] (M : Csc α), M.Valid → M.nrows = M.ncols → M.IsTriu →
      ∀ perm : Array ℕ, Ordering.isOrder M.ncols perm.toList = true →
        ∀ reg, ∃ F₀, start? M perm reg = some F₀ ∧
          ∀ calls, (∀ b, .solve b ∈ calls → b.size = M.ncols) →
            ∃ F, run? F₀ calls = some F ∧ FollowsPaths F M := by
  refine ⟨fun P hP htri => exists_countsPaths hP htri, ?_⟩
  intro α _ M hM hsq htri perm hperm reg
  obtain ⟨F₀, hstart, hF₀⟩ := exists_carries hM hsq htri hperm reg
  refine ⟨F₀, hstart, fun calls hb => ?_⟩
  obtain ⟨F, hrun, -, hF⟩ := hF₀.exists_run? hb
  have hfollows := hF.followsPaths
  refine ⟨F, hrun, hfollows.analysis, hfollows.counts, ?_, hfollows.lists⟩
  rw [← stored_current M calls]
  exact hfollows.adj

/-- Row 1 and row 2 of the triangle are no neighbours, but a path through row 0 joins them.
So row 2 is counted in column 1, and with these rows exchanged the factorisation lists the
last one there. -/
theorem analysis_follows_paths_scrambled :
    (scrambled.Valid ∧ scrambled.nrows = scrambled.ncols ∧ scrambled.IsTriu ∧
      Ordering.isOrder scrambled.ncols [0, 2, 1] = true) ∧
    CountsPaths scrambled #[some 1, some 2, none] #[0, 2, 3, 3] ∧
    ∃ F₀ F', start? scrambled #[0, 2, 1] none = some F₀ ∧
      (∀ calls, (∀ b, .solve b ∈ calls → b.size = scrambled.ncols) →
        ∃ F, run? F₀ calls = some F ∧ FollowsPaths F scrambled) ∧
      F₀.refactor? = some (F', none) ∧ F'.ListsPaths ∧
      F'.colPtr = #[0, 2, 3, 3] ∧ F'.rowIdx = #[1, 2, 2] := by
  have hM : scrambled.Valid := ⟨⟨rfl, rfl, rfl, rfl, by decide⟩, by decide⟩
  have htri : scrambled.IsTriu := hM.isTriu?_eq_true_iff.mp (by cbv)
  have hperm : Ordering.isOrder scrambled.ncols [0, 2, 1] = true := by decide
  have hanalyse : analyse? scrambled = some (#[some 1, some 2, none], #[0, 2, 3, 3]) := by
    cbv
  obtain ⟨parent, colPtr, hanalyse', hcounts⟩ :=
    analysis_follows_paths.1 scrambled hM.toDivided htri
  rw [hanalyse, Option.some.injEq, Prod.mk.injEq] at hanalyse'
  obtain ⟨rfl, rfl⟩ := hanalyse'
  obtain ⟨F₀, F', hstart, hrefactor, hcolPtr, -, hrowIdx⟩ := exists_refactor?_scrambled
  obtain ⟨F, hF, hfollows⟩ :=
    analysis_follows_paths.2 scrambled hM rfl htri #[0, 2, 1] hperm none
  obtain rfl : F₀ = F := Option.some.inj (hstart.symm.trans hF)
  -- without any calls the object is the one that is factored
  obtain ⟨F, hrun, hnow⟩ := hfollows [] (by simp)
  obtain rfl : F₀ = F := Option.some.inj hrun
  exact ⟨⟨hM, rfl, htri, hperm⟩, hcounts, F₀, F', hstart, hfollows, hrefactor,
    (hnow.lists F' hrefactor).1, hcolPtr, hrowIdx⟩

end Conic.Ldl
