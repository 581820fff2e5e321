import Conic.Proofs.Sparse.Layout

/-!
# The fill of a factorisation

`E i k` says that a triangle stores an entry in row `i` of column `k`.
Eliminating row `i` joins the rows in which column `i` of the factor has
entries.  So the factor has an entry at `(k, i)` if the triangle has one at
`(i, k)`, or if some row before both has entries in both.  `Fill E` is this
relation.

The *parent* of a row is the first row that it fills.  Every row that is filled
by `i` is filled by the parent of `i`, or is the parent (`Fill.eq_or_of_parent`).
So a set of rows with the parents of its members below `k` holds with a row all
rows below `k` that it fills, and a set of this kind that has the entries of
column `k` is all of row `k` of the factor (`RowPart.mem_of_fill`).  The loops
that follow paths towards the root build sets of this kind.
-/

namespace Conic.Ldl

variable {E : ℕ → ℕ → Prop}

/-- The factor has an entry in row `k` of column `i`. -/
inductive Fill (E : ℕ → ℕ → Prop) : ℕ → ℕ → Prop
  /-- The triangle has the transposed entry. -/
  | entry {i k : ℕ} : E i k → i < k → Fill E i k
  /-- Eliminating row `i` joins the rows that it fills. -/
  | join {i j k : ℕ} : Fill E i j → Fill E i k → j < k → Fill E j k

theorem Fill.lt {i k : ℕ} (h : Fill E i k) : i < k := by
  cases h with
  | entry _ hlt => exact hlt
  | join _ _ hlt => exact hlt

/-- `p` is the first row that `i` fills. -/
structure IsParent (E : ℕ → ℕ → Prop) (i p : ℕ) : Prop where
  /-- The row is filled. -/
  fill : Fill E i p
  /-- No row before it is. -/
  le : ∀ k, Fill E i k → p ≤ k

/-- A row that is filled by `i` is the parent of `i`, or is filled by it. -/
theorem Fill.eq_or_of_parent {i k p : ℕ} (h : Fill E i k) (hp : IsParent E i p) :
    p = k ∨ Fill E p k := by
  rcases (hp.le k h).eq_or_lt with heq | hlt
  · exact .inl heq
  · exact .inr (.join hp.fill h hlt)

/-! ## The first rows -/

section

open Classical

/-- The first row below `k` that `i` fills. -/
noncomputable def parentBelow (E : ℕ → ℕ → Prop) (k i : ℕ) : Option ℕ :=
  if h : ∃ r, Fill E i r ∧ r < k then some (Nat.find h) else none

/-- The rows below `k` that `i` fills, in increasing order. -/
noncomputable def rowsBelow (E : ℕ → ℕ → Prop) (k i : ℕ) : List ℕ :=
  (List.range k).filter fun r => Fill E i r

theorem parentBelow_eq_some_iff {k i p : ℕ} :
    parentBelow E k i = some p ↔ IsParent E i p ∧ p < k := by
  unfold parentBelow
  split
  next h =>
    rw [Option.some.injEq]
    constructor
    · rintro rfl
      obtain ⟨hfill, hlt⟩ := Nat.find_spec h
      refine ⟨⟨hfill, fun r hr => ?_⟩, hlt⟩
      rcases lt_or_ge r k with hrk | hrk
      · exact Nat.find_min' h ⟨hr, hrk⟩
      · exact hlt.le.trans hrk
    · rintro ⟨hp, hlt⟩
      obtain ⟨hfill, _⟩ := Nat.find_spec h
      exact le_antisymm (Nat.find_min' h ⟨hp.fill, hlt⟩) (hp.le _ hfill)
  next h =>
    simp only [reduceCtorEq, false_iff]
    rintro ⟨hp, hlt⟩
    exact h ⟨p, hp.fill, hlt⟩

theorem parentBelow_eq_none_iff {k i : ℕ} :
    parentBelow E k i = none ↔ ∀ r < k, ¬ Fill E i r := by
  simp only [parentBelow, dite_eq_right_iff, reduceCtorEq, imp_false, not_exists, not_and, not_lt]
  exact ⟨fun h r hr hfill => absurd (h r hfill) (not_le.mpr hr),
    fun h r hfill => not_lt.mp fun hr => h r hr hfill⟩

/-- One row more becomes the parent of those who had none. -/
theorem parentBelow_succ (k i : ℕ) : parentBelow E (k + 1) i =
    if Fill E i k then some ((parentBelow E k i).getD k) else parentBelow E k i := by
  cases hparent : parentBelow E k i with
  | some p =>
    obtain ⟨hp, hlt⟩ := parentBelow_eq_some_iff.mp hparent
    rw [parentBelow_eq_some_iff.mpr ⟨hp, hlt.trans (Nat.lt_succ_self k)⟩, Option.getD_some,
      ite_self]
  | none =>
    have hnone := parentBelow_eq_none_iff.mp hparent
    rw [Option.getD_none]
    split
    next hfill =>
      refine parentBelow_eq_some_iff.mpr ⟨⟨hfill, fun r hr => ?_⟩, Nat.lt_succ_self k⟩
      exact not_lt.mp fun hrk => hnone r hrk hr
    next hfill =>
      refine parentBelow_eq_none_iff.mpr fun r hr => ?_
      rcases Nat.lt_succ_iff_lt_or_eq.mp hr with hr | rfl
      · exact hnone r hr
      · exact hfill

theorem rowsBelow_zero (i : ℕ) : rowsBelow E 0 i = [] := rfl

theorem rowsBelow_succ (k i : ℕ) :
    rowsBelow E (k + 1) i = if Fill E i k then rowsBelow E k i ++ [k] else rowsBelow E k i := by
  rw [rowsBelow, List.range_succ, List.filter_append]
  by_cases h : Fill E i k <;> simp [h, rowsBelow]

theorem mem_rowsBelow {k i r : ℕ} : r ∈ rowsBelow E k i ↔ r < k ∧ Fill E i r := by
  simp [rowsBelow]

/-- A column gets its rows one behind the other. -/
theorem prefix_rowsBelow {k k' : ℕ} (h : k ≤ k') (i : ℕ) :
    rowsBelow E k i <+: rowsBelow E k' i := by
  induction k', h using Nat.le_induction with
  | base => exact List.prefix_rfl
  | succ k' _ ih =>
    rw [rowsBelow_succ]
    split
    · exact ih.trans (List.prefix_append _ _)
    · exact ih

theorem length_rowsBelow_mono {k k' : ℕ} (h : k ≤ k') (i : ℕ) :
    (rowsBelow E k i).length ≤ (rowsBelow E k' i).length := (prefix_rowsBelow h i).length_le

theorem getElem?_rowsBelow {k n i t r : ℕ} (hk : k ≤ n) (h : (rowsBelow E n i)[t]? = some r)
    (ht : t < (rowsBelow E k i).length) : (rowsBelow E k i)[t]? = some r := by
  rw [List.getElem?_eq_getElem ht, ← h]
  exact (List.prefix_iff_getElem?.mp (prefix_rowsBelow hk i) t ht).symm

/-- The first entries of a column are those of the first rows. -/
theorem lt_iff_of_rowsBelow {k n i t r : ℕ} (hk : k ≤ n) (h : (rowsBelow E n i)[t]? = some r) :
    r < k ↔ t < (rowsBelow E k i).length := by
  constructor
  · intro hlt
    obtain ⟨hn, hr⟩ := List.getElem?_eq_some_iff.mp h
    have hfill := (mem_rowsBelow.mp (hr ▸ List.getElem_mem hn)).2
    obtain ⟨s, hs, hsr⟩ := List.getElem_of_mem (mem_rowsBelow.mpr ⟨hlt, hfill⟩)
    have hsn := List.prefix_iff_getElem?.mp (prefix_rowsBelow (E := E) hk i) s hs
    -- a row stands in a column once
    have hnodup : (rowsBelow E n i).Nodup := List.nodup_range.filter _
    exact (List.getElem?_inj hn hnodup).mp (h.trans (hsr ▸ hsn.symm)) ▸ hs
  · intro ht
    exact (mem_rowsBelow.mp (List.mem_of_getElem? (getElem?_rowsBelow hk h ht))).1

/-- Before its last row a column is not full. -/
theorem length_rowsBelow_lt {k n i : ℕ} (h : Fill E i k) (hk : k < n) :
    (rowsBelow E k i).length < (rowsBelow E n i).length := by
  have hle := length_rowsBelow_mono (E := E) hk i
  rw [Nat.succ_eq_add_one, rowsBelow_succ, if_pos h, List.length_append] at hle
  exact hle

/-- Where a column of the factor of `n` rows starts, if the columns stand one
behind the other. -/
noncomputable def columnStart (E : ℕ → ℕ → Prop) (n c : ℕ) : ℕ :=
  ((List.range c).map fun i => (rowsBelow E n i).length).sum

theorem columnStart_succ (n c : ℕ) :
    columnStart E n (c + 1) = columnStart E n c + (rowsBelow E n c).length := by
  simp [columnStart, List.range_succ]

theorem columnStart_mono (n : ℕ) {c c' : ℕ} (h : c ≤ c') :
    columnStart E n c ≤ columnStart E n c' := by
  induction c', h using Nat.le_induction with
  | base => exact le_rfl
  | succ c' _ ih => exact ih.trans (columnStart_succ (E := E) n c' ▸ Nat.le_add_right _ _)

end

/-- Where the path from `i` goes on for row `k`: to the parent of `i`, if it is
below `k`, and to `k` otherwise. -/
noncomputable def nextBelow (E : ℕ → ℕ → Prop) (k i : ℕ) : ℕ := (parentBelow E k i).getD k

/-- A path in row `k` goes up and stays in the row until it reaches `k`. -/
theorem Fill.next {i k : ℕ} (h : Fill E i k) :
    i < nextBelow E k i ∧ nextBelow E k i ≤ k ∧
      (nextBelow E k i = k ∨ Fill E (nextBelow E k i) k) := by
  unfold nextBelow
  cases hparent : parentBelow E k i with
  | none => exact ⟨h.lt, le_rfl, .inl rfl⟩
  | some p =>
    obtain ⟨hp, hlt⟩ := parentBelow_eq_some_iff.mp hparent
    exact ⟨hp.fill.lt, hlt.le, h.eq_or_of_parent hp⟩

/-! ## Parts of a row -/

/-- A set of columns in which row `k` has entries.  With a column it has the
parent of the column, if that is below `k`.  Only the parent `q` may be
missing; there is no exception if `q` is `k`. -/
structure RowPart (E : ℕ → ℕ → Prop) (k q : ℕ) (S : ℕ → Prop) : Prop where
  /-- The row has entries in these columns. -/
  fill : ∀ i, S i → Fill E i k
  /-- The set is closed under parents. -/
  closed : ∀ i p, S i → IsParent E i p → p < k → S p ∨ p = q

namespace RowPart

variable {k q : ℕ} {S : ℕ → Prop}

theorem empty (k : ℕ) : RowPart E k k fun _ => False := ⟨by simp, by simp⟩

/-- The exception is none if it is in the set, or if it is the row itself. -/
theorem close (h : RowPart E k q S) (hq : q = k ∨ S q) : RowPart E k k S := by
  refine ⟨h.fill, fun i p hi hp hlt => .inl ?_⟩
  rcases h.closed i p hi hp hlt with hp' | rfl
  · exact hp'
  · exact hq.resolve_left hlt.ne

/-- Any row may take the place of the exception `k`. -/
theorem weaken (h : RowPart E k k S) (q : ℕ) : RowPart E k q S :=
  ⟨h.fill, fun i p hi hp hlt => .inl ((h.closed i p hi hp hlt).resolve_right hlt.ne)⟩

/-- Adding the exception moves it to the next node of the path. -/
theorem insert (h : RowPart E k q S) (hq : Fill E q k) :
    RowPart E k (nextBelow E k q) fun i => S i ∨ i = q := by
  refine ⟨?_, ?_⟩
  · rintro i (hi | rfl)
    · exact h.fill i hi
    · exact hq
  · rintro i p (hi | rfl) hp hlt
    · exact .inl (h.closed i p hi hp hlt)
    · rw [nextBelow, parentBelow_eq_some_iff.mpr ⟨hp, hlt⟩]
      exact .inr rfl

/-- A closed set has with a column all columns below `k` that it fills. -/
theorem mem_of_mem (h : RowPart E k k S) {i j : ℕ} (hi : S i) (hij : Fill E i j) (hj : j < k) :
    S j := by
  induction hn : j - i using Nat.strong_induction_on generalizing i with
  | _ n ih =>
    obtain ⟨p, hp⟩ : ∃ p, IsParent E i p := by
      cases hparent : parentBelow E (j + 1) i with
      | none => exact absurd hij (parentBelow_eq_none_iff.mp hparent j (Nat.lt_succ_self j))
      | some p => exact ⟨p, (parentBelow_eq_some_iff.mp hparent).1⟩
    have hpj := hp.le j hij
    have hSp : S p := (h.closed i p hi hp (hpj.trans_lt hj)).resolve_right (hpj.trans_lt hj).ne
    rcases hij.eq_or_of_parent hp with rfl | hpj'
    · exact hSp
    · exact ih (j - p) (by have := hp.fill.lt; omega) hSp hpj' rfl

/-- A closed set with the entries of column `k` is all of row `k`. -/
theorem mem_of_fill (h : RowPart E k k S) (hentry : ∀ i, E i k → i < k → S i) {i : ℕ}
    (hik : Fill E i k) : S i := by
  induction hik with
  | entry hE hlt => exact hentry _ hE hlt
  | join hij _ hjk _ ih => exact h.mem_of_mem (ih h hentry) hij hjk

end RowPart

/-! ## The fill of a triangle -/

/-- A triangle stores an entry at a position. -/
def Stored {α : Type} (P : Csc α) (i k : ℕ) : Prop :=
  k < P.ncols ∧ ∃ idx ∈ P.span k, P.row idx = i

end Conic.Ldl
