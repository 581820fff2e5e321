import Conic.Proofs.Ldl.Factorise

/-!
# Factoring again

A factorisation works on the scratch and on the factor that an earlier one has
left.  Two objects that hold the same triangle may therefore differ in the stack,
in the rows and values of `L`, and in the pivots.  None of that is read before
it is written.

`Ldl.Alike` relates two factorisations of one triangle before row `k`.  They
have the same columns so far, though not the same storage behind them.  A row
keeps the relation and has the same outcome in both (`Ldl.Alike.exists_row?`).
So either both stop at the same row (`Ldl.Stopped`), or the columns fill the
storage after the last row and nothing but the stack differs
(`Ldl.Alike.eq_of_last`).
-/

namespace Conic.Ldl

variable {α : Type} [Scalar α] {F : Ldl α} {k : ℕ} {c : ℕ → List (ℕ × α)}

/-! ## One row -/

/-- Two factorisations that agree on the rows before `k` and on the pivots before
`m`. -/
structure Alike (F : Ldl α) (k m : ℕ) (w w' : Work α) (c : ℕ → List (ℕ × α)) : Prop where
  /-- The first one has the columns `c`. -/
  left : Rows F k w c
  /-- The second one has the same columns. -/
  right : Rows F k w' c
  mark : w'.mark = w.mark
  regularized : w'.regularized = w.regularized
  diag : ∀ i < m, w'.diag.getD i 0 = w.diag.getD i 0

/-- A row reads the pivots of its pattern only. -/
theorem rowOf_congr {pattern : List ℕ} {d d' : ℕ → α} (h : ∀ i ∈ pattern, d' i = d i) :
    rowOf F k pattern d' c = rowOf F k pattern d c := by
  refine List.foldl_ext _ _ _ fun s i hi => ?_
  rw [eliminated, eliminated, h i hi]

/-- A row of both factorisations has the same outcome.  A pivot that is refused
is not stored, but the row is. -/
theorem Alike.exists_row? {w w' : Work α} (h : Alike F k k w w' c) (hF : F.Symbolic)
    (hk : k < F.dim) :
    ∃ u u' e, row? F k w = some (u, e) ∧ row? F k w' = some (u', e) ∧
      ∃ c, Alike F (k + 1) (if e = none then k + 1 else k) u u' c := by
  obtain ⟨mark, pattern, hpattern, hrun⟩ := hF.exists_row? hk h.left.mark
  obtain ⟨u, e, hrow, hmark, hdone⟩ := hrun w c h.left rfl
  obtain ⟨u', e', hrow', hmark', hdone'⟩ := hrun w' c h.right h.mark
  have hrowOf : rowOf F k pattern (fun i => w'.diag.getD i 0) c =
      rowOf F k pattern (fun i => w.diag.getD i 0) c :=
    rowOf_congr fun i hi => h.diag i ((hpattern.mem i).mp hi).lt
  have hpivot : pivotOf F k pattern (fun i => w'.diag.getD i 0) c =
      pivotOf F k pattern (fun i => w.diag.getD i 0) c := by rw [pivotOf, pivotOf, hrowOf]
  have he : e' = e := by rw [hdone.refusal, hdone'.refusal, hpivot]
  subst he
  refine ⟨u, u', e', hrow, hrow', _, hdone.rows, hrowOf ▸ hdone'.rows, hmark'.trans hmark.symm,
    ?_, fun i hi => ?_⟩
  · rw [hdone.regularized, hdone'.regularized, hrowOf, h.regularized]
  · cases e' with
    | some e =>
      have hdiag : u.diag = w.diag := hdone.diag
      have hdiag' : u'.diag = w'.diag := hdone'.diag
      rw [hdiag, hdiag']
      exact h.diag i hi
    | none =>
      have hpivots := congrFun (hdone.getD_diag (h.left.size_diag.symm ▸ hk)) i
      have hpivots' := congrFun (hdone'.getD_diag (h.right.size_diag.symm ▸ hk)) i
      rw [hpivots, hpivots', hpivot]
      rcases Nat.lt_succ_iff_lt_or_eq.mp hi with hi | rfl
      · rw [Function.update_of_ne hi.ne, Function.update_of_ne hi.ne]
        exact h.diag i hi
      · rw [Function.update_self, Function.update_self]

/-! ## All rows -/

/-- Rows that are all accepted are followed by the other ones. -/
theorem rows?_append {ks : List ℕ} {w v : Work α} (h : F.rows? ks w = some (v, none))
    (ks' : List ℕ) : F.rows? (ks ++ ks') w = F.rows? ks' v := by
  induction ks generalizing w with
  | nil =>
    cases h
    rfl
  | cons k ks ih =>
    rw [List.cons_append, rows?]
    rw [rows?] at h
    split at h
    next => cases h
    next => cases h
    next => exact ih h

/-- Rows that are all accepted are accepted one after the other. -/
theorem exists_of_rows?_append {ks ks' : List ℕ} {w u : Work α}
    (h : F.rows? (ks ++ ks') w = some (u, none)) :
    ∃ v, F.rows? ks w = some (v, none) ∧ F.rows? ks' v = some (u, none) := by
  induction ks generalizing w with
  | nil => exact ⟨w, rfl, h⟩
  | cons k ks ih =>
    rw [List.cons_append, rows?] at h
    rw [rows?]
    split at h
    next => cases h
    next => cases h
    next => exact ih h

/-- One row more. -/
theorem rows?_range_succ {w v u : Work α} {e : Option LdlError}
    (h : F.rows? (List.range k) w = some (v, none)) (hrow : row? F k v = some (u, e)) :
    F.rows? (List.range (k + 1)) w = some (u, e) := by
  rw [List.range_succ, rows?_append h, rows?, hrow]
  cases e <;> rfl

/-- The rows end at a pivot that is refused. -/
theorem rows?_range_of_refused {n : ℕ} (hk : k < n) {w v u : Work α} {e : LdlError}
    (h : F.rows? (List.range k) w = some (v, none)) (hrow : row? F k v = some (u, some e)) :
    F.rows? (List.range n) w = some (u, some e) := by
  obtain ⟨m, rfl⟩ := Nat.exists_eq_add_of_lt hk
  rw [Nat.add_assoc, List.range_add, rows?_append h, List.range_succ_eq_map, List.map_cons,
    Nat.add_zero, rows?, hrow]

/-- Two factorisations end at row `k`, whose pivot is refused in both. -/
structure Stopped (F : Ldl α) (k : ℕ) (e : LdlError) (w w' u u' : Work α) : Prop where
  lt : k < F.dim
  left : ∃ v, F.rows? (List.range k) w = some (v, none) ∧ row? F k v = some (u, some e)
  right : ∃ v', F.rows? (List.range k) w' = some (v', none) ∧ row? F k v' = some (u', some e)
  /-- Row `k` is computed, but for its pivot. -/
  alike : ∃ c, Alike F (k + 1) k u u' c

/-- Both factorisations go through the rows with the same outcome. -/
theorem Alike.exists_rows? {w w' : Work α} (h : Alike F 0 0 w w' c) (hF : F.Symbolic) :
    ∃ u u' e, F.rows? (List.range F.dim) w = some (u, e) ∧
      F.rows? (List.range F.dim) w' = some (u', e) ∧
      (e = none → ∃ c, Alike F F.dim F.dim u u' c) ∧
      ∀ e', e = some e' → ∃ k, Stopped F k e' w w' u u' := by
  obtain ⟨u, e, hrows, hnone, hsome⟩ := Ldl.exists_rows? (F := F) (n := F.dim) (w := w)
    (fun k v => F.rows? (List.range k) w = some (v, none) ∧
      ∃ v' c, F.rows? (List.range k) w' = some (v', none) ∧ Alike F k k v v' c)
    ⟨rfl, w', c, rfl, h⟩ (by
      rintro k hk v ⟨hv, v', c, hv', halike⟩
      obtain ⟨u, u', e, hrow, hrow', c', halike'⟩ := halike.exists_row? hF hk
      refine ⟨u, e, hrow, ?_⟩
      rintro rfl
      exact ⟨rows?_range_succ hv hrow, u', c', rows?_range_succ hv' hrow', halike'⟩)
  cases e with
  | none =>
    obtain ⟨-, u', c', hrows', halike⟩ := hnone rfl
    exact ⟨u, u', none, hrows, hrows', fun _ => ⟨c', halike⟩, by simp⟩
  | some e =>
    obtain ⟨k, hk, v, ⟨hv, v', c', hv', halike⟩, hrow⟩ := hsome (by simp)
    obtain ⟨u₁, u', e₁, hrow₁, hrow', c'', halike'⟩ := halike.exists_row? hF hk
    rw [hrow, Option.some.injEq, Prod.mk.injEq] at hrow₁
    obtain ⟨rfl, rfl⟩ := hrow₁
    refine ⟨u, u', some e, hrows, rows?_range_of_refused hk hv' hrow', by simp, ?_⟩
    rintro _ ⟨⟩
    exact ⟨k, hk, ⟨v, hv, hrow⟩, ⟨v', hv', hrow'⟩, c'', halike'⟩

/-- The columns have no gaps between them. -/
theorem exists_column {E : ℕ → ℕ → Prop} {n m p : ℕ} (hp : p < columnStart E n m) :
    ∃ i < m, ∃ t < (rowsBelow E n i).length, p = columnStart E n i + t := by
  induction m with
  | zero => simp [columnStart] at hp
  | succ m ih =>
    by_cases hlt : p < columnStart E n m
    · obtain ⟨i, hi, ht⟩ := ih hlt
      exact ⟨i, Nat.lt_succ_of_lt hi, ht⟩
    · rw [columnStart_succ] at hp
      exact ⟨m, Nat.lt_succ_self m, p - columnStart E n m, by omega, by omega⟩

/-- After the last row nothing but the stack can differ. -/
theorem Alike.eq_of_last {w w' : Work α} (h : Alike F F.dim F.dim w w' c) :
    w' = { w with stack := w'.stack } := by
  -- a position of the storage belongs to a column, and the columns agree
  have hstored : ∀ p < columnStart (Stored F.permuted) F.dim F.dim,
      w'.rowIdx[p]? = w.rowIdx[p]? ∧ w'.values[p]? = w.values[p]? := by
    intro p hp
    obtain ⟨i, hi, t, ht, rfl⟩ := exists_column hp
    have hlen : t < (c i).length := by
      have hlen := congrArg List.length (h.left.rows i)
      rw [List.length_map] at hlen
      exact hlen ▸ ht
    obtain ⟨hr, hv⟩ := h.left.stores.entries i hi t hlen
    obtain ⟨hr', hv'⟩ := h.right.stores.entries i hi t hlen
    exact ⟨hr'.trans hr.symm, hv'.trans hv.symm⟩
  have hrowIdx : w'.rowIdx = w.rowIdx := ext_of_lt h.right.stores.size_rowIdx
    h.left.stores.size_rowIdx fun p hp => (hstored p hp).1
  have hvalues : w'.values = w.values := ext_of_lt h.right.stores.size_values
    h.left.stores.size_values fun p hp => (hstored p hp).2
  have hdiag : w'.diag = w.diag := by
    have hd := Holds.of_getD w.diag 0
    have hd' := Holds.of_getD w'.diag 0
    rw [h.left.size_diag] at hd
    rw [h.right.size_diag] at hd'
    exact (hd'.congr h.diag).ext hd
  have hy : w'.y = w.y := h.right.y.trans h.left.y.symm
  have hfilled : w'.filled = w.filled := h.right.stores.filled.ext h.left.stores.filled
  obtain ⟨_, _, _, _, _, _, _, _⟩ := w
  obtain ⟨_, _, _, _, _, _, _, _⟩ := w'
  simp only [Work.mk.injEq, true_and]
  exact ⟨hy, h.mark, hfilled, hrowIdx, hvalues, hdiag, h.regularized⟩

/-! ## One triangle, two objects -/

omit [Scalar α] in
theorem dim_store (w : Work α) : (F.store w).dim = w.diag.size := rfl

/-- A row is computed from the symbolic part and the triangle. -/
theorem row?_store {w₀ : Work α} (hdim : w₀.diag.size = F.dim) (k : ℕ) :
    row? (F.store w₀) k = row? F k := by
  have hcollect : collect? (F.store w₀) k = collect? F k := by
    funext w
    unfold collect? scatter?
    rw [dim_store, hdim]
    rfl
  funext w
  unfold row?
  rw [hcollect]
  rfl

theorem rows?_store {w₀ : Work α} (hdim : w₀.diag.size = F.dim) (ks : List ℕ) (w : Work α) :
    (F.store w₀).rows? ks w = F.rows? ks w := by
  induction ks generalizing w with
  | nil => rfl
  | cons k ks ih =>
    rw [rows?, rows?, row?_store hdim]
    simp only [ih]

/-- Both objects start from the same columns. -/
theorem Symbolic.alike_work (hF : F.Symbolic) {w₀ : Work α} (hw₀ : (F.store w₀).Symbolic) :
    Alike F 0 0 F.work (F.store w₀).work fun _ => [] := by
  have hdim : (F.store w₀).dim = F.dim := hw₀.ncols_eq.symm.trans hF.ncols_eq
  have hright : Rows F 0 (F.store w₀).work fun _ => [] := by
    have h := hw₀.rows_work
    exact ⟨hdim ▸ h.stores, h.rows, hdim ▸ h.y, hdim ▸ h.mark, hdim ▸ h.size_stack,
      hdim ▸ h.size_diag⟩
  have hmark : (F.store w₀).work.mark = F.work.mark := by
    have h : Holds (F.store w₀).work.mark (F.store w₀).dim fun _ => (F.store w₀).dim :=
      Holds.const_map hw₀.size_mark _
    rw [hdim] at h
    exact h.ext (Holds.const_map hF.size_mark F.dim)
  exact ⟨hF.rows_work, hright, hmark, rfl, by simp⟩

/-- Factoring what one object holds gives the same as factoring it in another one,
but for the stack.  If a pivot is refused, both stop at the same row. -/
theorem Symbolic.exists_refactor?_store (hF : F.Symbolic) {w₀ : Work α}
    (hw₀ : (F.store w₀).Symbolic) : ∃ u u' e, F.refactor? = some (F.store u, e) ∧
      (F.store w₀).refactor? = some (F.store u', e) ∧
      (e = none → u' = { u with stack := u'.stack }) ∧
      ∀ e', e = some e' → ∃ k, Stopped F k e' F.work (F.store w₀).work u u' := by
  have hdim : (F.store w₀).dim = F.dim := hw₀.ncols_eq.symm.trans hF.ncols_eq
  obtain ⟨u, u', e, hrows, hrows', hlast, hstopped⟩ := (hF.alike_work hw₀).exists_rows? hF
  refine ⟨u, u', e, ?_, ?_, fun he => ?_, hstopped⟩
  · simp only [refactor?, hrows, Option.bind_eq_bind, Option.bind_some, Option.pure_def, store]
  · rw [refactor?, hdim, rows?_store (hdim ▸ rfl), hrows']
    rfl
  · obtain ⟨c, h⟩ := hlast he
    exact h.eq_of_last

end Conic.Ldl
