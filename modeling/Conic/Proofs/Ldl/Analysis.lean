import Conic.Ldl.Symbolic
import Conic.Proofs.Arrays
import Conic.Proofs.Ldl.Fill
import Conic.Proofs.Ldl.Permute

/-!
# The symbolic analysis

`Ldl.analyse?` goes through the columns of a triangle.  For column `k` it
follows the path of every row in the column towards the root, up to the first
node that is marked, and marks the nodes on its way.  The marked nodes are the
columns in which row `k` of the factor has entries.

After `k` columns the tree has the parents below `k` (`Ldl.Grown`).  Within
column `k` the tree is `Ldl.Growing` with the set of nodes passed so far.  The
set is a part of row `k`, and after the last path it is the whole row.
-/

namespace Conic.Ldl

variable {E : ℕ → ℕ → Prop} {n k : ℕ}

/-! ## Marks -/

/-- No node is marked for row `k` or for a later one. -/
def Unmarked (n k : ℕ) (mark : Array ℕ) : Prop :=
  ∃ m, Holds mark n m ∧ ∀ i < n, m i < k ∨ m i = n

/-- The nodes of `S`, and the row `k` itself, are marked for row `k`. -/
def Marked (n k : ℕ) (S : ℕ → Prop) (mark : Array ℕ) : Prop :=
  ∃ m, Holds mark n m ∧ ∀ i < n, (m i = k ↔ i = k ∨ S i) ∧ (m i ≤ k ∨ m i = n)

theorem Unmarked.start {mark : Array ℕ} (h : Unmarked n k mark) (hk : k < n) :
    ∃ mark', update? mark k (fun _ => k) = some mark' ∧ Marked n k (fun _ => False) mark' := by
  obtain ⟨m, hm, hlt⟩ := h
  obtain ⟨mark', hmark', hm'⟩ := hm.update hk fun _ => k
  refine ⟨mark', hmark', _, hm', fun i hi => ?_⟩
  by_cases hik : i = k
  · subst hik
    simp
  · rw [Function.update_of_ne hik]
    have := hlt i hi
    simp only [hik, or_false, iff_false]
    omega

theorem Marked.unmarked {S : ℕ → Prop} {mark : Array ℕ} (h : Marked n k S mark) :
    Unmarked n (k + 1) mark := by
  obtain ⟨m, hm, hmark⟩ := h
  exact ⟨m, hm, fun i hi => (hmark i hi).2.imp Nat.lt_succ_of_le id⟩

theorem Marked.insert {S : ℕ → Prop} {mark : Array ℕ} (h : Marked n k S mark) {i : ℕ} (hi : i < n) :
    ∃ mark', update? mark i (fun _ => k) = some mark' ∧
      Marked n k (fun j => S j ∨ j = i) mark' := by
  obtain ⟨m, hm, hmark⟩ := h
  obtain ⟨mark', hmark', hm'⟩ := hm.update hi fun _ => k
  refine ⟨mark', hmark', _, hm', fun j hj => ?_⟩
  by_cases hji : j = i
  · subst hji
    simp
  · simpa [Function.update_of_ne hji, hji] using hmark j hj

theorem Marked.congr {S S' : ℕ → Prop} {mark : Array ℕ} (h : Marked n k S mark)
    (hS : ∀ i, S i ↔ S' i) : Marked n k S' mark := by
  obtain ⟨m, hm, hmark⟩ := h
  exact ⟨m, hm, fun i hi => by simpa only [hS] using hmark i hi⟩

/-- Asking whether a node is marked. -/
theorem Marked.get {S : ℕ → Prop} {mark : Array ℕ} (h : Marked n k S mark) {i : ℕ} (hi : i < n) :
    ∃ r, mark[i]? = some r ∧ (r = k ↔ i = k ∨ S i) := by
  obtain ⟨m, hm, hmark⟩ := h
  exact ⟨m i, hm.get i hi, (hmark i hi).1⟩

/-! ## The tree -/

/-- The tree after the columns below `k`. -/
structure Grown (E : ℕ → ℕ → Prop) (n k : ℕ) (t : Tree) : Prop where
  /-- The parents below `k` are known. -/
  parent : Holds t.parent n (parentBelow E k)
  /-- Nothing is marked for a later column. -/
  mark : Unmarked n k t.mark
  /-- The rows below `k` are counted. -/
  count : Holds t.count n fun i => (rowsBelow E k i).length

open Classical in
/-- The tree while the paths of column `k` are followed.  `S` are the nodes that
have been passed. -/
structure Growing (E : ℕ → ℕ → Prop) (n k : ℕ) (S : ℕ → Prop) (t : Tree) : Prop where
  /-- A node that has been passed has a parent. -/
  parent : Holds t.parent n fun i => if S i then some (nextBelow E k i) else parentBelow E k i
  /-- The column and the nodes that have been passed are marked. -/
  mark : Marked n k S t.mark
  /-- A node that has been passed counts row `k`. -/
  count : Holds t.count n fun i => (rowsBelow E k i).length + if S i then 1 else 0

namespace Growing

variable {S : ℕ → Prop} {t : Tree}

/-- Passing a node. -/
theorem pass (h : Growing E n k S t) {i : ℕ} (hi : i < n) (hS : ¬ S i) :
    ∃ parent mark count, update? t.parent i (fun _ => some (nextBelow E k i)) = some parent ∧
      update? t.mark i (fun _ => k) = some mark ∧ update? t.count i (· + 1) = some count ∧
      Growing E n k (fun j => S j ∨ j = i) ⟨parent, mark, count⟩ := by
  obtain ⟨parent, hparent, hparent'⟩ := h.parent.update hi fun _ => some (nextBelow E k i)
  obtain ⟨mark, hmark, hmark'⟩ := h.mark.insert hi
  obtain ⟨count, hcount, hcount'⟩ := h.count.update hi (· + 1)
  refine ⟨parent, mark, count, hparent, hmark, hcount, hparent'.congr fun j _ => ?_, hmark',
    hcount'.congr fun j _ => ?_⟩
  · by_cases hji : j = i
    · subst hji
      simp
    · by_cases hj : S j <;> simp [hj, hji]
  · by_cases hji : j = i
    · subst hji
      simp [hS]
    · by_cases hj : S j <;> simp [hj, hji]

/-- Following one path succeeds.  It passes the nodes of the path up to the first
one that has been passed before. -/
theorem exists_grow? (hk : k < n) {fuel : ℕ} {i : ℕ} (h : Growing E n k S t)
    (hS : RowPart E k i S) (hi : i = k ∨ Fill E i k) (hfuel : k - i < fuel) :
    ∃ t' S', grow? k fuel i t = some t' ∧ Growing E n k S' t' ∧ RowPart E k k S' ∧
      (∀ j, S j → S' j) ∧ (i = k ∨ S' i) := by
  induction fuel generalizing i S t with
  | zero => omega
  | succ fuel ih =>
    have hin : i < n := by
      rcases hi with rfl | hi
      · exact hk
      · exact hi.lt.trans hk
    obtain ⟨r, hr, hrk⟩ := h.mark.get hin
    by_cases hrk' : r = k
    · have hmem := hrk.mp hrk'
      exact ⟨t, S, by simp [grow?, hr, hrk'], h, hS.close hmem, fun _ => id, hmem⟩
    · have hnot := fun hmem => hrk' (hrk.mpr hmem)
      have hfill : Fill E i k := hi.resolve_left fun heq => hnot (.inl heq)
      have hSi : ¬ S i := fun hmem => hnot (.inr hmem)
      obtain ⟨parent, mark, count, hparent, hmark', hcount, hpass⟩ := h.pass hin hSi
      obtain ⟨hlt, hle, hnext⟩ := hfill.next
      obtain ⟨t', S', ht', hgrow, hpart, hsub, -⟩ := ih hpass (hS.insert hfill) hnext (by omega)
      refine ⟨t', S', ?_, hgrow, hpart, fun j hj => hsub j (.inl hj), .inr (hsub i (.inr rfl))⟩
      have hp : (parentBelow E k i).getD k = nextBelow E k i := rfl
      simp only [grow?, hr, Option.bind_eq_bind, Option.bind_some, hrk', if_false,
        h.parent.get i hin, hSi, hp, hparent, hmark', hcount]
      exact ht'

end Growing

/-- A column in which all paths have been followed. -/
theorem Growing.grown {S : ℕ → Prop} {t : Tree} (h : Growing E n k S t)
    (hS : ∀ i, S i ↔ Fill E i k) : Grown E n (k + 1) t := by
  refine ⟨h.parent.congr fun i _ => ?_, h.mark.unmarked, h.count.congr fun i _ => ?_⟩
  · rw [parentBelow_succ]
    by_cases hfill : Fill E i k
    · rw [if_pos ((hS i).mpr hfill), if_pos hfill, nextBelow]
    · rw [if_neg fun hi => hfill ((hS i).mp hi), if_neg hfill]
  · rw [rowsBelow_succ]
    by_cases hfill : Fill E i k <;> simp [hS, hfill]

/-- Marking the column itself starts its paths. -/
theorem Grown.growing {t : Tree} (h : Grown E n k t) (hk : k < n) :
    ∃ mark, update? t.mark k (fun _ => k) = some mark ∧
      Growing E n k (fun _ => False) { t with mark := mark } := by
  obtain ⟨mark, hmark, hmark'⟩ := h.mark.start hk
  exact ⟨mark, hmark, h.parent.congr fun i _ => by simp, hmark', h.count.congr fun i _ => by simp⟩

variable {α : Type} {P : Csc α}

/-- The rows of a column of a triangle are the column itself or in the fill. -/
theorem eq_or_fill_of_mem_span (htri : ∀ idx ∈ P.span k, P.row idx ≤ k) (hk : k < P.ncols) {idx : ℕ}
    (h : idx ∈ P.span k) : P.row idx = k ∨ Fill (Stored P) (P.row idx) k := by
  rcases (htri idx h).eq_or_lt with heq | hlt
  · exact .inl heq
  · exact .inr (.entry ⟨hk, idx, h, rfl⟩ hlt)

/-- Analysing one more column succeeds. -/
theorem exists_growColumn? (hP : P.Divided) (htri : P.IsTriu) (hk : k < P.ncols) {t : Tree}
    (h : Grown (Stored P) P.ncols k t) :
    ∃ t', growColumn? P t k = some t' ∧ Grown (Stored P) P.ncols (k + 1) t' := by
  have htri := hP.isTriu_iff.mp htri k hk
  obtain ⟨mark, hmark, hstart⟩ := h.growing hk
  -- the set of passed nodes is a part of the row that has the entries seen so far
  obtain ⟨t', ht', S, hgrow, hpart, hseen⟩ := Loop.exists_foldlM (l := P.span k)
    (f := fun t idx => grow? k (P.ncols + 1) (P.row idx) t)
    (fun done t => ∃ S, Growing (Stored P) P.ncols k S t ∧ RowPart (Stored P) k k S ∧
      ∀ idx ∈ done, P.row idx = k ∨ S (P.row idx))
    ⟨_, hstart, RowPart.empty k, by simp⟩ (by
      rintro done idx rest heq t ⟨S, hgrow, hpart, hseen⟩
      have hidx : idx ∈ P.span k := heq ▸ by simp
      obtain ⟨t', S', ht', hgrow', hpart', hsub, hmem⟩ := hgrow.exists_grow? hk
        (hpart.weaken _) (eq_or_fill_of_mem_span htri hk hidx)
        (show k - P.row idx < P.ncols + 1 by omega)
      refine ⟨t', ht', S', hgrow', hpart', fun idx' hidx' => ?_⟩
      rcases List.mem_append.mp hidx' with hidx' | hidx'
      · exact (hseen idx' hidx').imp id (hsub _)
      · rwa [List.mem_singleton.mp hidx'])
  refine ⟨t', ?_, hgrow.grown fun i => ⟨hpart.fill i, hpart.mem_of_fill fun i hE hlt => ?_⟩⟩
  · simp only [growColumn?, hmark, hP.rows?_eq hk, Option.bind_eq_bind, Option.bind_some,
      hP.toList_rows hk, List.foldlM_map]
    exact ht'
  · obtain ⟨_, idx, hidx, rfl⟩ := hE
    exact (hseen idx hidx).resolve_left hlt.ne

/-- The tree after the columns below `k`. -/
def treeBefore? (P : Csc α) (k : ℕ) : Option Tree :=
  (List.range k).foldlM (growColumn? P)
    ⟨Array.replicate P.ncols none, Array.replicate P.ncols P.ncols, Array.replicate P.ncols 0⟩

theorem analyse?_eq_treeBefore? : analyse? P =
    (treeBefore? P P.ncols).map fun t => (t.parent, runningSums t.count.toList) := by
  rw [analyse?, Option.map_eq_bind]
  rfl

/-- Analysing the first columns succeeds. -/
theorem exists_treeBefore? (hP : P.Divided) (htri : P.IsTriu) (hk : k ≤ P.ncols) :
    ∃ t, treeBefore? P k = some t ∧ Grown (Stored P) P.ncols k t := by
  have hstart : Grown (Stored P) P.ncols 0
      ⟨Array.replicate P.ncols none, Array.replicate P.ncols P.ncols, Array.replicate P.ncols 0⟩ :=
    ⟨(Holds.replicate _ _).congr fun i _ => (parentBelow_eq_none_iff.mpr (by simp)).symm,
      ⟨_, Holds.replicate _ _, fun i _ => .inr rfl⟩, Holds.replicate _ _⟩
  exact Loop.exists_foldlM_range (f := growColumn? P) (Grown (Stored P) P.ncols) hstart
    fun k' hk' t h => exists_growColumn? hP htri (hk'.trans_le hk) h

/-- The analysis of a triangle succeeds.  It gives the parents, and column
pointers that leave room for the fill. -/
theorem exists_analyse? (hP : P.Divided) (htri : P.IsTriu) :
    ∃ parent colPtr, analyse? P = some (parent, colPtr) ∧
      Holds parent P.ncols (parentBelow (Stored P) P.ncols) ∧
      Holds colPtr (P.ncols + 1) (columnStart (Stored P) P.ncols) := by
  obtain ⟨t, ht, hgrown⟩ := exists_treeBefore? hP htri le_rfl
  refine ⟨t.parent, runningSums t.count.toList, ?_, hgrown.parent, ?_⟩
  · rw [analyse?_eq_treeBefore?, ht, Option.map_some]
  · have hsums := holds_runningSums t.count.toList
    rw [hgrown.count.toList, List.length_map, List.length_range] at hsums
    rw [hgrown.count.toList]
    refine hsums.congr fun c hc => ?_
    rw [← List.map_take, List.take_range, Nat.min_eq_left (Nat.le_of_lt_succ hc)]
    rfl

end Conic.Ldl
