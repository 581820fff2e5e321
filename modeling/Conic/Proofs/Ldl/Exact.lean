import Conic.Proofs.Ldl.Factorise
import Conic.Proofs.Sparse.Dense

/-!
# The factorisation in exact arithmetic

In exact arithmetic the rows of the factor satisfy

```text
P(i, k) + E(i, k) = Σⱼ L(i, j) d(j) L(k, j)    for i ≤ k,
```

where `L` has ones on its diagonal and `E` is diagonal.  An entry of `E` is the
change that the regularization makes to a pivot, so `E` is zero without one.

Eliminating the columns of row `k` is the solution of a triangular system.
`Ldl.Eliminating` is the state of this solution after some of the columns: the
equations of these columns hold, and every other entry of the scattered row is
what is left of its equation.  A column of the pattern comes before those that
it fills, so no later elimination changes an equation that holds.
-/

namespace Conic.Ldl

open Finset

variable {n k : ℕ} {a d : ℕ → ℝ} {c : ℕ → List (ℕ × ℝ)}

/-- A sum in which one term, so far zero, is changed. -/
theorem sum_update_eq_add {f : ℕ → ℝ → ℝ} {ℓ : ℕ → ℝ} {i : ℕ} (hi : i < n) (hzero : f i (ℓ i) = 0)
    (v : ℝ) :
    ∑ j ∈ range n, f j (Function.update ℓ i v j) = (∑ j ∈ range n, f j (ℓ j)) + f i v := by
  rw [← Finset.add_sum_erase _ _ (mem_range.mpr hi), ← Finset.add_sum_erase (range n)
    (fun j => f j (ℓ j)) (mem_range.mpr hi), hzero, Function.update_self, zero_add, add_comm]
  congr 1
  exact Finset.sum_congr rfl fun j hj => by rw [Function.update_of_ne (Finset.ne_of_mem_erase hj)]

variable [Machine]

/-! ## Scattered rows -/

theorem getD_scattered {col : List (ℕ × ℝ)} {y : Array ℝ} {i : ℕ} (hi : i < y.size) :
    (scattered col y).getD i 0 = y.getD i 0 + Vec.coefficient col i := by
  have hloop := (Vec.getD_foldl_of_add (g := fun y e => y.modify e.1 (· + e.2))
    (f := fun e i => if e.1 = i then e.2 else 0) (n := y.size) (l := col)
    (fun e _ z hz => ⟨by simpa using hz, fun j hj => Vec.getD_modify_add z e.1 e.2 (hz ▸ hj)⟩)
    rfl).2 i hi
  exact hloop

theorem getD_subtracted (t : ℝ) {col : List (ℕ × ℝ)} {y : Array ℝ} {i : ℕ} (hi : i < y.size) :
    (subtracted t col y).getD i 0 = y.getD i 0 - t * Vec.coefficient col i := by
  have hloop := (Vec.getD_foldl_of_add (g := fun y e => y.modify e.1 (· - e.2 * t))
    (f := fun e i => if e.1 = i then e.2 * -t else 0) (n := y.size) (l := col)
    (fun e _ z hz => ⟨by simpa using hz, fun j hj => by
      rw [Vec.getD_modify z e.1 _ (hz ▸ hj)]
      split <;> ring⟩) rfl).2 i hi
  rw [Vec.sum_map_ite_mul Prod.fst Prod.snd (fun _ => -t) i col] at hloop
  refine hloop.trans ?_
  rw [Vec.coefficient]
  ring

/-! ## Solving for a row -/

/-- The state of row `k` after the columns `done` have been eliminated.  `a` is
the column of the triangle, `c` are the columns of the factor before the row,
and `d` are their pivots. -/
structure Eliminating (n k : ℕ) (a : ℕ → ℝ) (c : ℕ → List (ℕ × ℝ)) (d : ℕ → ℝ) (done : List ℕ)
    (s : Array ℝ × (ℕ → List (ℕ × ℝ)) × ℝ) : Prop where
  /-- The scattered row has an entry for every position. -/
  size : s.1.size = n
  /-- A column that is left has not changed. -/
  later : ∀ j ∉ done, s.2.1 j = c j
  /-- No column has changed in an earlier row. -/
  earlier : ∀ j i, i ≠ k → Vec.coefficient (s.2.1 j) i = Vec.coefficient (c j) i
  /-- An entry of the row is what is left of its equation. -/
  left : ∀ i < n, i ≠ k → i ∉ done → s.1.getD i 0 = a i -
    ∑ j ∈ range n, Vec.coefficient (c j) i * (d j * Vec.coefficient (s.2.1 j) k)
  /-- The equations of the columns that are done. -/
  solved : ∀ i ∈ done, a i =
    (∑ j ∈ range n, Vec.coefficient (c j) i * (d j * Vec.coefficient (s.2.1 j) k)) +
      d i * Vec.coefficient (s.2.1 i) k
  /-- The pivot. -/
  pivot : s.2.2 = a k -
    ∑ j ∈ range n, Vec.coefficient (s.2.1 j) k * (d j * Vec.coefficient (s.2.1 j) k)

/-- Eliminating one more column.  It must not occur in the equations of the
columns that are done. -/
theorem Eliminating.step {done : List ℕ} {s : Array ℝ × (ℕ → List (ℕ × ℝ)) × ℝ}
    (h : Eliminating n k a c d done s) {i : ℕ} (hi : i < n) (hik : i ≠ k) (hnew : i ∉ done)
    (hd : d i ≠ 0) (hself : Vec.coefficient (c i) i = 0) (hk : Vec.coefficient (c i) k = 0)
    (hdone : ∀ j ∈ done, Vec.coefficient (c i) j = 0) :
    Eliminating n k a c d (done ++ [i]) (eliminated k d s i) := by
  have hcol := h.later i hnew
  -- the new entries of row `k`
  have hrow : ∀ j, Vec.coefficient ((eliminated k d s i).2.1 j) k =
      Function.update (fun j => Vec.coefficient (s.2.1 j) k) i (s.1.getD i 0 / d i) j := by
    intro j
    by_cases hji : j = i
    · subst hji
      simp [eliminated, hcol, Vec.coefficient_concat, hk]
    · simp [eliminated, Function.update_of_ne hji]
  have hzero : Vec.coefficient (s.2.1 i) k = 0 := by rw [hcol, hk]
  have hmul : d i * (s.1.getD i 0 / d i) = s.1.getD i 0 := mul_div_cancel₀ _ hd
  have hsum (r : ℕ) : ∑ j ∈ range n, Vec.coefficient (c j) r *
      (d j * Vec.coefficient ((eliminated k d s i).2.1 j) k) =
        (∑ j ∈ range n, Vec.coefficient (c j) r * (d j * Vec.coefficient (s.2.1 j) k)) +
          Vec.coefficient (c i) r * s.1.getD i 0 := by
    simp only [hrow]
    rw [sum_update_eq_add (f := fun j x => Vec.coefficient (c j) r * (d j * x)) hi
      (by simp [hzero]), hmul]
  refine ⟨by simp [eliminated, h.size], fun j hj => ?_, fun j r hr => ?_, fun r hr hrk hrdone => ?_,
    fun r hr => ?_, ?_⟩
  · have hji : j ≠ i := fun heq => hj (by simp [heq])
    simp only [eliminated, Function.update_of_ne hji]
    exact h.later j fun hmem => hj (by simp [hmem])
  · by_cases hji : j = i
    · subst hji
      simp [eliminated, Vec.coefficient_concat, h.earlier j r hr, Ne.symm hr]
    · simp only [eliminated, Function.update_of_ne hji]
      exact h.earlier j r hr
  · have hri : i ≠ r := fun heq => hrdone (by simp [heq])
    have hrdone' : r ∉ done := fun hmem => hrdone (by simp [hmem])
    rw [hsum, ← sub_sub, ← h.left r hr hrk hrdone', mul_comm]
    simp only [eliminated]
    rw [getD_subtracted _ (by simpa [h.size] using hr), Vec.getD_modify _ _ _ (h.size.symm ▸ hr),
      if_neg hri, hcol]
  · rw [hsum, hrow]
    rcases List.mem_append.mp hr with hr | hr
    · have hri : r ≠ i := fun heq => hnew (heq ▸ hr)
      rw [Function.update_of_ne hri, hdone r hr, zero_mul, add_zero]
      exact h.solved r hr
    · obtain rfl := List.mem_singleton.mp hr
      rw [Function.update_self, hself, zero_mul, add_zero, hmul, h.left r hi hik hnew]
      ring
  · simp only [hrow]
    rw [sum_update_eq_add (f := fun j x => x * (d j * x)) hi (by simp [hzero]), ← sub_sub,
      ← h.pivot, hmul]
    rfl

/-! ## The whole row -/

section

variable {F : Ldl ℝ} {pattern : List ℕ}

omit [Machine] in
/-- A column has no entries in rows that it does not fill. -/
theorem coefficient_eq_zero_of_not_fill {E : ℕ → ℕ → Prop}
    (hc : ∀ i, (c i).map Prod.fst = rowsBelow E k i) {j i : ℕ} (h : ¬ (Fill E j i ∧ i < k)) :
    Vec.coefficient (c j) i = 0 := by
  refine Vec.coefficient_eq_zero fun e he hei => h ?_
  have hmem := List.mem_map_of_mem (f := Prod.fst) he
  rw [hc j, mem_rowsBelow, hei] at hmem
  exact hmem.symm

/-- The equations of row `k` after all eliminations. -/
theorem eliminating_rowOf (hk : k < F.dim)
    (hc : ∀ i, (c i).map Prod.fst = rowsBelow (Stored F.permuted) k i)
    (hpattern : RowPattern (Stored F.permuted) (fun i => Fill (Stored F.permuted) i k) pattern)
    (hd : ∀ i < k, 0 < d i) :
    Eliminating F.dim k (fun i => F.permuted.get i k) c d pattern (rowOf F k pattern d c) := by
  set y := scattered (F.permuted.column k) (Vec.zeros F.dim) with hydef
  have hysize : y.size = F.dim := by simp [hydef, size_scattered]
  have hy (i : ℕ) (hi : i < F.dim) : y.getD i 0 = F.permuted.get i k := by
    rw [hydef, getD_scattered (by simpa using hi), Csc.get]
    simp [Vec.zeros, Array.getD, hi]
  have hcoef (j i : ℕ) (h : ¬ (Fill (Stored F.permuted) j i ∧ i < k)) :
      Vec.coefficient (c j) i = 0 := coefficient_eq_zero_of_not_fill hc h
  have hzero (j : ℕ) : Vec.coefficient (c j) k = 0 := hcoef j k fun h => lt_irrefl _ h.2
  refine Loop.foldl_induction (f := eliminated k d)
    (Eliminating F.dim k (fun i => F.permuted.get i k) c d) ?_ ?_
  · refine ⟨by simpa using hysize, fun _ _ => rfl, fun _ _ _ => rfl, fun i hi hik _ => ?_,
      by simp, ?_⟩
    · rw [Vec.getD_modify y _ _ (hysize.symm ▸ hi), if_neg (Ne.symm hik), hy i hi]
      simp [hzero]
    · rw [hy k hk]
      simp [hzero]
  · intro done i rest heq s h
    have hi : Fill (Stored F.permuted) i k := (hpattern.mem i).mp (heq ▸ by simp)
    have hnodup := hpattern.nodup
    have horder := hpattern.order
    rw [heq, List.nodup_append] at hnodup
    rw [heq, List.pairwise_append] at horder
    refine h.step (hi.lt.trans hk) hi.lt.ne (fun hmem => hnodup.2.2 i hmem i (by simp) rfl)
      (hd i hi.lt).ne' (hcoef i i fun h => lt_irrefl _ h.1.lt) (hzero i) fun j hj => ?_
    exact hcoef i j fun h => horder.2.2 j hj i (by simp) h.1

/-- An entry of the unit lower triangular factor with the columns `c`. -/
def unitLower (c : ℕ → List (ℕ × ℝ)) (i j : ℕ) : ℝ :=
  if i = j then 1 else Vec.coefficient (c j) i

/-- What the rows below `k` of the factor satisfy.  `ε` is the change of each
pivot by the regularization. -/
structure Exact (F : Ldl ℝ) (k : ℕ) (c : ℕ → List (ℕ × ℝ)) (d ε : ℕ → ℝ) : Prop where
  /-- The pivots are positive. -/
  pos : ∀ r < k, 0 < d r
  /-- A pivot is the regularized one. -/
  pivot : ∀ r < k, d r = (repair F.regularization (d r - ε r)).1
  /-- The equations of a row. -/
  row : ∀ r < k, ∀ i ≤ r, F.permuted.get i r + (if i = r then ε r else 0) =
    ∑ j ∈ range F.dim, unitLower c i j * d j * unitLower c r j

omit [Machine] in
/-- The equations of earlier rows do not see row `k`. -/
theorem sum_unitLower_congr {c' : ℕ → List (ℕ × ℝ)} {d' : ℕ → ℝ}
    (hc : ∀ j i, i ≠ k → Vec.coefficient (c' j) i = Vec.coefficient (c j) i)
    (hd : ∀ j ≠ k, d' j = d j) (hzero : ∀ i < k, Vec.coefficient (c k) i = 0) {i r : ℕ}
    (hi : i < k) (hr : r < k) :
    ∑ j ∈ range n, unitLower c' i j * d' j * unitLower c' r j =
      ∑ j ∈ range n, unitLower c i j * d j * unitLower c r j := by
  refine Finset.sum_congr rfl fun j _ => ?_
  have hci : unitLower c' i j = unitLower c i j := by rw [unitLower, unitLower, hc j i hi.ne]
  have hcr : unitLower c' r j = unitLower c r j := by rw [unitLower, unitLower, hc j r hr.ne]
  rw [hci, hcr]
  by_cases hjk : j = k
  · subst hjk
    simp [unitLower, hi.ne, hzero i hi]
  · rw [hd j hjk]

/-- The equation of every column before `k`, whether it is in the pattern or
not. -/
theorem get_eq_of_rowOf (hF : F.Symbolic) (hk : k < F.dim)
    (hc : ∀ i, (c i).map Prod.fst = rowsBelow (Stored F.permuted) k i)
    (hpattern : RowPattern (Stored F.permuted) (fun i => Fill (Stored F.permuted) i k) pattern)
    {s : Array ℝ × (ℕ → List (ℕ × ℝ)) × ℝ}
    (h : Eliminating F.dim k (fun i => F.permuted.get i k) c d pattern s) {i : ℕ} (hi : i < k) :
    F.permuted.get i k =
      (∑ j ∈ range F.dim, Vec.coefficient (c j) i * (d j * Vec.coefficient (s.2.1 j) k)) +
        d i * Vec.coefficient (s.2.1 i) k := by
  by_cases hmem : i ∈ pattern
  · exact h.solved i hmem
  · have hnot : ¬ Fill (Stored F.permuted) i k := fun hfill => hmem ((hpattern.mem i).mpr hfill)
    have hnew (j : ℕ) (hj : j ∉ pattern) : Vec.coefficient (s.2.1 j) k = 0 := by
      rw [h.later j hj]
      exact coefficient_eq_zero_of_not_fill hc fun h => h.2.false
    have hentry : F.permuted.get i k = 0 := by
      refine Vec.coefficient_eq_zero fun e he hei => ?_
      rcases hF.eq_or_fill hk he with heq | hfill
      · exact hi.ne (hei.symm.trans heq)
      · exact hnot (hei ▸ hfill)
    rw [hentry, hnew i hmem, mul_zero, add_zero, Finset.sum_eq_zero]
    intro j _
    by_cases hj : j ∈ pattern
    · -- both entries would join `i` to the pattern
      rw [coefficient_eq_zero_of_not_fill hc fun hji => hnot
        (.join hji.1 ((hpattern.mem j).mp hj) hi), zero_mul]
    · rw [hnew j hj, mul_zero, mul_zero]

/-- The equations of row `k` hold once it is eliminated, with any pivot if the change
of it is what it differs from what is left. -/
theorem Exact.row_eliminated {d ε : ℕ → ℝ} (h : Exact F k c d ε) (hF : F.Symbolic)
    (hk : k < F.dim) (hc : ∀ i, (c i).map Prod.fst = rowsBelow (Stored F.permuted) k i)
    (hpattern : RowPattern (Stored F.permuted) (fun i => Fill (Stored F.permuted) i k) pattern)
    (dk : ℝ) {r i : ℕ} (hr : r < k + 1) (hi : i ≤ r) : F.permuted.get i r +
        (if i = r then Function.update ε k (dk - (rowOf F k pattern d c).2.2) r else 0) =
      ∑ j ∈ range F.dim, unitLower (rowOf F k pattern d c).2.1 i j * Function.update d k dk j *
        unitLower (rowOf F k pattern d c).2.1 r j := by
  have helim := eliminating_rowOf hk hc hpattern h.pos
  set s := rowOf F k pattern d c with hs
  have hcoef (j i : ℕ) (hji : ¬ (Fill (Stored F.permuted) j i ∧ i < k)) :
      Vec.coefficient (c j) i = 0 := coefficient_eq_zero_of_not_fill hc hji
  have hlower (i : ℕ) (hi : i < k) : Vec.coefficient (c k) i = 0 :=
    hcoef k i fun h => (h.1.lt.trans hi).false
  have hnew (j : ℕ) (hj : j ∉ pattern) : Vec.coefficient (s.2.1 j) k = 0 := by
    rw [helim.later j hj]
    exact hcoef j k fun h => h.2.false
  have hkk : Vec.coefficient (s.2.1 k) k = 0 :=
    hnew k fun hmem => ((hpattern.mem k).mp hmem).lt.false
  rcases Nat.lt_succ_iff_lt_or_eq.mp hr with hr | rfl
  · rw [Function.update_of_ne hr.ne, sum_unitLower_congr helim.earlier
      (fun j hj => Function.update_of_ne hj _ _) hlower (hi.trans_lt hr) hr]
    exact h.row r hr i hi
  · have hlast (j : ℕ) (hj : j ≠ r) : unitLower s.2.1 r j = Vec.coefficient (s.2.1 j) r :=
      if_neg (Ne.symm hj)
    rcases hi.lt_or_eq with hi | rfl
    · rw [if_neg hi.ne, add_zero, get_eq_of_rowOf hF hk hc hpattern helim hi]
      have hterm : ∀ j ∈ range F.dim, unitLower s.2.1 i j * Function.update d r dk j *
          unitLower s.2.1 r j = Vec.coefficient (c j) i * (d j * Vec.coefficient (s.2.1 j) r) +
            if i = j then d i * Vec.coefficient (s.2.1 i) r else 0 := by
        intro j _
        rw [unitLower, helim.earlier j i hi.ne]
        by_cases hjr : j = r
        · subst hjr
          simp [hi.ne, hlower i hi]
        · rw [hlast j hjr, Function.update_of_ne hjr]
          by_cases hij : i = j
          · subst hij
            rw [if_pos rfl, if_pos rfl, hcoef i i fun h => h.1.lt.false]
            ring
          · rw [if_neg hij, if_neg hij]
            ring
      rw [Finset.sum_congr rfl hterm, Finset.sum_add_distrib, Finset.sum_ite_eq,
        if_pos (mem_range.mpr (hi.trans hk))]
    · rw [if_pos rfl, Function.update_self, helim.pivot]
      have hterm : ∀ j ∈ range F.dim, unitLower s.2.1 i j * Function.update d i dk j *
          unitLower s.2.1 i j = Vec.coefficient (s.2.1 j) i * (d j * Vec.coefficient (s.2.1 j) i) +
            if i = j then dk else 0 := by
        intro j _
        by_cases hji : j = i
        · subst hji
          simp [unitLower, hkk]
        · rw [hlast j hji, Function.update_of_ne hji, if_neg (Ne.symm hji)]
          ring
      rw [Finset.sum_congr rfl hterm, Finset.sum_add_distrib, Finset.sum_ite_eq,
        if_pos (mem_range.mpr hk)]
      ring

/-- The equations of row `k` hold once it is computed. -/
theorem Exact.row_done {d ε : ℕ → ℝ} (h : Exact F k c d ε) (hF : F.Symbolic)
    (hk : k < F.dim) (hc : ∀ i, (c i).map Prod.fst = rowsBelow (Stored F.permuted) k i)
    (hpattern : RowPattern (Stored F.permuted) (fun i => Fill (Stored F.permuted) i k) pattern)
    (hpos : 0 < pivotOf F k pattern d c) :
    Exact F (k + 1) (rowOf F k pattern d c).2.1 (Function.update d k (pivotOf F k pattern d c))
      (Function.update ε k (pivotOf F k pattern d c - (rowOf F k pattern d c).2.2)) := by
  refine ⟨fun r hr => ?_, fun r hr => ?_, fun r hr i hi =>
    h.row_eliminated hF hk hc hpattern _ hr hi⟩
  · rcases Nat.lt_succ_iff_lt_or_eq.mp hr with hr | rfl
    · rw [Function.update_of_ne hr.ne]
      exact h.pos r hr
    · rwa [Function.update_self]
  · rcases Nat.lt_succ_iff_lt_or_eq.mp hr with hr | rfl
    · rw [Function.update_of_ne hr.ne, Function.update_of_ne hr.ne]
      exact h.pivot r hr
    · rw [Function.update_self, Function.update_self, sub_sub_cancel]
      rfl

/-- Without regularization no pivot is changed. -/
theorem Exact.eq_zero {d ε : ℕ → ℝ} (h : Exact F k c d ε) (hreg : F.regularization = none) {r : ℕ}
    (hr : r < k) : ε r = 0 := by
  have hpivot := h.pivot r hr
  rw [hreg, repair] at hpivot
  linarith

/-- The pivots that are not refused are the positive ones. -/
theorem refusal?_eq_none_iff {dk : ℝ} : refusal? dk = none ↔ 0 < dk := by
  simp [refusal?]

/-- The number of rows below `k` whose pivot is replaced. -/
noncomputable def replacedBelow (F : Ldl ℝ) (k : ℕ) (d ε : ℕ → ℝ) : ℕ :=
  (List.range k).countP fun r => (repair F.regularization (d r - ε r)).2

/-- A row more counts one pivot more, if it is replaced. -/
theorem replacedBelow_succ (d ε : ℕ → ℝ) (dk p : ℝ) :
    replacedBelow F (k + 1) (Function.update d k dk) (Function.update ε k (dk - p)) =
      if (repair F.regularization p).2 then replacedBelow F k d ε + 1
      else replacedBelow F k d ε := by
  have hbelow : ∀ r ∈ List.range k, (repair F.regularization
      (Function.update d k dk r - Function.update ε k (dk - p) r)).2 =
        (repair F.regularization (d r - ε r)).2 := by
    intro r hr
    have hne := (List.mem_range.mp hr).ne
    rw [Function.update_of_ne hne, Function.update_of_ne hne]
  rw [replacedBelow, List.range_succ, List.countP_append, List.countP_singleton,
    Function.update_self, Function.update_self, sub_sub_cancel,
    List.countP_congr fun r hr => by rw [hbelow r hr]]
  split <;> rfl

/-! ## The factors -/

/-- The object holds the factors of its triangle.  `c` are the columns of `L`
below the diagonal. -/
structure Factored (F : Ldl ℝ) (c : ℕ → List (ℕ × ℝ)) (ε : ℕ → ℝ) : Prop where
  /-- The columns stand in storage one behind the other. -/
  stored : ∀ i < F.dim, StoredAt F.rowIdx F.values (columnStart (Stored F.permuted) F.dim i) (c i)
  /-- A column has all rows that it fills. -/
  rows : ∀ i, (c i).map Prod.fst = rowsBelow (Stored F.permuted) F.dim i
  /-- The equations of the factorisation. -/
  exact : Exact F F.dim c (fun i => F.diag.getD i 0) ε
  /-- The pivots that have been replaced are counted. -/
  regularized : F.regularized = replacedBelow F F.dim (fun i => F.diag.getD i 0) ε

/-- What the rows below `k` have established. -/
def Established (F : Ldl ℝ) (k : ℕ) (w : Work ℝ) (c : ℕ → List (ℕ × ℝ)) : Prop :=
  ∃ ε, Exact F k c (fun i => w.diag.getD i 0) ε ∧
    w.regularized = replacedBelow F k (fun i => w.diag.getD i 0) ε

/-- Factoring the loaded values succeeds, up to a pivot that is refused.  Without
a refused pivot the object holds the factors. -/
theorem Symbolic.exists_factored (hF : F.Symbolic) :
    ∃ w e, F.refactor? = some (F.store w, e) ∧ (F.store w).Symbolic ∧
      (e = none → ∃ c ε, Factored (F.store w) c ε) ∧
      ∀ e', e = some e' → ∃ k < F.dim, RefusedAt F (Established F) k w e' := by
  obtain ⟨w, e, hrefactor, hsymbolic, hnone, hsome⟩ := hF.exists_refactor? (Established F)
    ⟨fun _ => 0, ⟨by simp, by simp, by simp⟩, rfl⟩ (by
      rintro k hk w c pattern w' hw ⟨ε, h, hcount⟩ hpattern hdone
      have hpos := refusal?_eq_none_iff.mp hdone.refusal.symm
      rw [Established, hdone.getD_diag (hw.size_diag.symm ▸ hk)]
      refine ⟨_, h.row_done hF hk hw.rows hpattern hpos, ?_⟩
      rw [replacedBelow_succ, hdone.regularized, hcount])
  refine ⟨w, e, hrefactor, hsymbolic, fun he => ?_, hsome⟩
  obtain ⟨c, hw, ε, h, hcount⟩ := hnone he
  have hdim : (F.store w).dim = F.dim := hw.size_diag
  refine ⟨c, ε, ?_, ?_, ?_, hdim ▸ hcount⟩
  · rw [hdim]
    exact hw.stores.entries
  · rw [hdim]
    exact hw.rows
  · rw [hdim]
    refine ⟨h.pos, h.pivot, fun r hr i hi => ?_⟩
    rw [hdim]
    exact h.row r hr i hi

end

end Conic.Ldl
