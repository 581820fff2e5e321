import Conic.Proofs.Ldl.Agreement

/-!
# A factorisation that stops

A factorisation may stop at a pivot that is refused.  It computes the factor by
rows and stores it by columns.  So a column may then hold entries of the new
values up to some row, and entries of older values behind them.

`Ldl.Interrupted` says which entry is which.  The rows of the storage are those of
the pattern, whatever has been factored (`Ldl.Patterned`), so the row of an entry
tells how old it is.  The entries up to the row of the refused pivot are those that
a new object would have computed (`Ldl.Alike`), and behind them nothing has been
written (`Ldl.Extends`).
-/

namespace Conic.Ldl

variable {α : Type} {F F' : Ldl α} {k : ℕ}

/-! ## The rows of the storage -/

/-- An array holds the rows of the factor of a triangle, column by column. -/
def Patterned (P : Csc α) (rowIdx : Array ℕ) : Prop :=
  ∀ i < P.ncols, ∀ t r : ℕ, (rowsBelow (Stored P) P.ncols i)[t]? = some r →
    rowIdx[columnStart (Stored P) P.ncols i + t]? = some r

namespace Patterned

variable {P : Csc α} {rowIdx rowIdx' : Array ℕ}

/-- Every entry stands in a column. -/
theorem exists_position (h : Patterned P rowIdx)
    (hsize : rowIdx.size = columnStart (Stored P) P.ncols P.ncols) {p r : ℕ}
    (hp : rowIdx[p]? = some r) : ∃ i < P.ncols, ∃ t,
      p = columnStart (Stored P) P.ncols i + t ∧
        (rowsBelow (Stored P) P.ncols i)[t]? = some r := by
  obtain ⟨hlt, -⟩ := Array.getElem?_eq_some_iff.mp hp
  obtain ⟨i, hi, t, ht, rfl⟩ := exists_column (hsize ▸ hlt)
  have hrow := h i hi t _ (List.getElem?_eq_getElem ht)
  rw [hp, Option.some.injEq] at hrow
  exact ⟨i, hi, t, rfl, hrow ▸ List.getElem?_eq_getElem ht⟩

/-- The rows are determined by the pattern. -/
theorem ext (h : Patterned P rowIdx) (h' : Patterned P rowIdx')
    (hsize : rowIdx.size = columnStart (Stored P) P.ncols P.ncols)
    (hsize' : rowIdx'.size = columnStart (Stored P) P.ncols P.ncols) : rowIdx = rowIdx' := by
  refine ext_of_lt hsize hsize' fun p hp => ?_
  obtain ⟨i, hi, t, ht, rfl⟩ := exists_column hp
  have hr := List.getElem?_eq_getElem ht
  rw [h i hi t _ hr, h' i hi t _ hr]

end Patterned

variable [Scalar α] {w u : Work α} {c : ℕ → List (ℕ × α)}

/-- The rows before `k` are in their places. -/
theorem Rows.exists_entry (h : Rows F k u c) {i t r : ℕ} (hi : i < F.dim)
    (hr : (rowsBelow (Stored F.permuted) k i)[t]? = some r) : ∃ v, (c i)[t]? = some (r, v) ∧
      u.rowIdx[columnStart (Stored F.permuted) F.dim i + t]? = some r ∧
      u.values[columnStart (Stored F.permuted) F.dim i + t]? = some v := by
  rw [← h.rows i, List.getElem?_map, Option.map_eq_some_iff] at hr
  obtain ⟨⟨r, v⟩, hget, rfl⟩ := hr
  obtain ⟨ht, heq⟩ := List.getElem?_eq_some_iff.mp hget
  have hstored := h.stores.entries i hi t ht
  rw [heq] at hstored
  exact ⟨v, hget, hstored⟩

/-- The rows before `k` do not reach the places of the later ones. -/
theorem Rows.unreached (h : Rows F k u c) (hF : F.Symbolic) (hk : k ≤ F.dim) {i t : ℕ}
    (hle : (rowsBelow (Stored F.permuted) k i).length ≤ t)
    (ht : t < (rowsBelow (Stored F.permuted) F.dim i).length) :
    Unreached F u (columnStart (Stored F.permuted) F.dim i + t) := by
  intro j a count ha hcount
  have hj : j < F.dim := h.stores.filled.size ▸ (Array.getElem?_eq_some_iff.mp hcount).1
  rw [hF.colPtr.get j (by omega), Option.some.injEq] at ha
  rw [h.stores.filled.get j hj, Option.some.injEq] at hcount
  have hlength : (rowsBelow (Stored F.permuted) k j).length = count := by
    rw [← h.rows j, List.length_map, hcount]
  have hroom := length_rowsBelow_mono (E := Stored F.permuted) hk j
  have hi := columnStart_succ (E := Stored F.permuted) F.dim i
  have hj := columnStart_succ (E := Stored F.permuted) F.dim j
  rcases Nat.lt_trichotomy j i with hji | rfl | hji
  · have := columnStart_mono (E := Stored F.permuted) F.dim (show j + 1 ≤ i from hji)
    omega
  · omega
  · have := columnStart_mono (E := Stored F.permuted) F.dim (show i + 1 ≤ j from hji)
    omega

/-- Rows that have been computed leave the storage patterned. -/
theorem Rows.patterned (h : Rows F k u c) (hF : F.Symbolic) (hk : k ≤ F.dim)
    (hextends : Extends F w u) (hold : k < F.dim → Patterned F.permuted w.rowIdx) :
    Patterned F.permuted u.rowIdx := by
  intro i hi t r hr
  rw [hF.ncols_eq] at hi hr ⊢
  have ht := (List.getElem?_eq_some_iff.mp hr).1
  by_cases hlt : t < (rowsBelow (Stored F.permuted) k i).length
  · obtain ⟨v, -, hrow, -⟩ := h.exists_entry hi (getElem?_rowsBelow hk hr hlt)
    exact hrow
  · have hkn : k < F.dim := by
      by_contra hkn
      exact hlt (le_antisymm hk (not_lt.mp hkn) ▸ ht)
    rw [(hextends.storage _ (h.unreached hF hk (not_lt.mp hlt) ht)).1]
    have hpat := hold hkn i
    rw [hF.ncols_eq] at hpat
    exact hpat hi t r hr

/-- A factorisation leaves the storage patterned, also if it stops.  One that does
not stop need not find it patterned. -/
theorem Symbolic.patterned_of_refactor? (hF : F.Symbolic) {e : Option LdlError}
    (h : F.refactor? = some (F', e)) (hold : e ≠ none → Patterned F.permuted F.rowIdx) :
    Patterned F'.permuted F'.rowIdx := by
  obtain ⟨w, e', hrefactor, -, hnone, hsome⟩ :=
    hF.exists_refactor? (fun _ _ _ => True) trivial (by simp)
  rw [h, Option.some.injEq, Prod.mk.injEq] at hrefactor
  obtain ⟨rfl, rfl⟩ := hrefactor
  have hextends : Extends F F.work w := by
    simp only [refactor?, Option.bind_eq_bind, Option.bind_eq_some_iff, Option.pure_def,
      Option.some.injEq, Prod.mk.injEq] at h
    obtain ⟨⟨w', e'⟩, hrows, hw, -⟩ := h
    have hw : w' = w := congrArg Ldl.toWork hw
    exact hw ▸ (Extends.of_rows? hrows).1
  cases e with
  | none =>
    obtain ⟨c, hw, -⟩ := hnone rfl
    exact hw.patterned hF le_rfl hextends fun hlt => absurd hlt (lt_irrefl _)
  | some e =>
    obtain ⟨k, hk, _, _, _, -, -, -, hdone⟩ := hsome e rfl
    exact hdone.rows.patterned hF hk hextends fun _ => hold (by simp)

/-- Every object that is made has a patterned storage. -/
theorem patterned_of_ofOrder {M : Csc α} (hM : M.Valid) (hsq : M.nrows = M.ncols)
    {perm : Array ℕ} (hperm : Ordering.isOrder M.ncols perm.toList = true)
    {reg : Option (Regularization α)} (h : ofOrder M perm reg = .ok F) :
    Patterned F.permuted F.rowIdx := by
  obtain ⟨G, π, ι, dest, hG, hbelongs, -⟩ := exists_start? hM hsq hperm reg
  obtain ⟨w, e, hrefactor, -⟩ := hbelongs.symbolic.exists_store
  rw [ofOrder_eq hG, hrefactor] at h
  cases e with
  | some e => cases h
  | none =>
    cases h
    exact hbelongs.symbolic.patterned_of_refactor? hrefactor (by simp)

/-- Calls leave the storage patterned. -/
theorem Carries.patterned_of_run? {M : Csc α} {perm : Array ℕ} {reg : Option (Regularization α)}
    (h : Carries F M perm reg) (hF : Patterned F.permuted F.rowIdx) {calls : List (Call α)}
    (hb : ∀ b, .solve b ∈ calls → b.size = M.ncols) (hrun : run? F calls = some F') :
    Patterned F'.permuted F'.rowIdx := by
  induction calls generalizing F M with
  | nil =>
    cases hrun
    exact hF
  | cons call calls ih =>
    rw [run?, List.foldlM_cons, Option.bind_eq_bind, Option.bind_eq_some_iff] at hrun
    obtain ⟨F₁, hcall, hrun⟩ := hrun
    have hb' : ∀ b, .solve b ∈ calls → b.size = M.ncols := fun b hmem => hb b (by simp [hmem])
    cases call with
    | load values =>
      cases hcall
      exact ih (h.updateValues values) hF hb' hrun
    | refactor =>
      obtain ⟨F₁', e, hrefactor, h', -⟩ := h.exists_refactor?
      obtain ⟨π, ι, dest, hbelongs⟩ := h.belongs
      rw [call?, hrefactor] at hcall
      cases hcall
      exact ih h' (hbelongs.symbolic.patterned_of_refactor? hrefactor fun _ => hF) hb' hrun
    | solve b =>
      obtain ⟨π, ι, dest, hbelongs⟩ := h.belongs
      obtain ⟨x, hx⟩ := hbelongs.exists_solve? (hb b (by simp))
      rw [call?, hx] at hcall
      cases hcall
      exact ih h hF hb' hrun

/-! ## What is new and what is old -/

/-- Factoring stops at row `k`, whose pivot is refused, and leaves `F'`. -/
def StopsAt (F : Ldl α) (k : ℕ) (e : LdlError) (F' : Ldl α) : Prop :=
  F.refactor? = some (F', some e) ∧ ∃ w, Begins F k w ∧ row? F k w = some (F'.toWork, some e)

/-- What is left of the object `F` when values have been loaded and factoring stops
at row `k`.  `N` is what is left of a new object with these values. -/
structure Interrupted (F N F' : Ldl α) (k : ℕ) : Prop where
  perm : F'.perm = F.perm
  parent : F'.parent = F.parent
  colPtr : F'.colPtr = F.colPtr
  rowIdx : F'.rowIdx = F.rowIdx
  /-- The pivots before the refused one are new. -/
  diag_new : ∀ j < k, F'.diag[j]? = N.diag[j]?
  /-- The other pivots are old. -/
  diag_old : ∀ j ≥ k, F'.diag[j]? = F.diag[j]?
  /-- The entries up to row `k` are new. -/
  values_new : ∀ p r : ℕ, F'.rowIdx[p]? = some r → r ≤ k →
    N.rowIdx[p]? = some r ∧ F'.values[p]? = N.values[p]?
  /-- The entries in later rows are old. -/
  values_old : ∀ p r : ℕ, F'.rowIdx[p]? = some r → k < r → F'.values[p]? = F.values[p]?
  /-- The scratch row is zero. -/
  y : F'.y = Vec.zeros F.dim

/-- The rows up to `k` are in the same places in both storages, with the same
values. -/
theorem Alike.entries_eq {m : ℕ} {u' : Work α} (h : Alike F k m u u' c) {i t r : ℕ}
    (hi : i < F.dim) (hr : (rowsBelow (Stored F.permuted) k i)[t]? = some r) :
    u.rowIdx[columnStart (Stored F.permuted) F.dim i + t]? = some r ∧
      u'.values[columnStart (Stored F.permuted) F.dim i + t]? =
        u.values[columnStart (Stored F.permuted) F.dim i + t]? := by
  obtain ⟨v, hv, hrow, hvalue⟩ := h.left.exists_entry hi hr
  obtain ⟨v', hv', -, hvalue'⟩ := h.right.exists_entry hi hr
  rw [hv, Option.some.injEq, Prod.mk.injEq] at hv'
  exact ⟨hrow, by rw [hvalue, hvalue', hv'.2]⟩

variable {G : Ldl α} {e : LdlError}

/-- What is left if both a new object and another one with the same triangle stop at
row `k`. -/
theorem Stopped.interrupted {u' : Work α} (h : Stopped G k e G.work (G.store w).work u u')
    (hG : G.Symbolic) (hw : (G.store w).Symbolic) (hpat : Patterned G.permuted w.rowIdx) :
    Interrupted (G.store w) (G.store u) (G.store u') k := by
  obtain ⟨hk, -, ⟨v, hrows, hrow⟩, c, halike⟩ := h
  have hncols := hG.ncols_eq
  have hdim : w.diag.size = G.dim := hw.ncols_eq.symm.trans hncols
  obtain ⟨hextends, hdiag⟩ := Extends.of_rows? hrows
  obtain ⟨hextends', hkept⟩ := Extends.of_row? hrow
  replace hextends := hextends.trans hextends'
  rw [if_neg (by simp)] at hkept
  -- the rows are those of the pattern, before and after
  have hpat' : Patterned G.permuted u'.rowIdx :=
    halike.right.patterned hG hk hextends fun _ => hpat
  have hsize : w.rowIdx.size = columnStart (Stored G.permuted) G.permuted.ncols
      G.permuted.ncols := by
    rw [hncols, ← hdim]
    exact hw.size_rowIdx
  have hsize' : u'.rowIdx.size = columnStart (Stored G.permuted) G.permuted.ncols
      G.permuted.ncols := hncols.symm ▸ halike.right.stores.size_rowIdx
  have hposition {p r : ℕ} (hp : u'.rowIdx[p]? = some r) := hpat'.exists_position hsize' hp
  rw [hncols] at hposition
  refine ⟨rfl, rfl, rfl, hpat'.ext hpat hsize' hsize, fun j hj => ?diag_new, fun j hj => ?diag_old,
    fun p r hp hr => ?values_new, fun p r hp hr => ?values_old,
    halike.right.y.trans (congrArg _ hdim.symm)⟩
  case diag_new =>
    have hu := (Holds.of_getD u.diag 0).get j (halike.left.size_diag.symm ▸ hj.trans hk)
    have hu' := (Holds.of_getD u'.diag 0).get j (halike.right.size_diag.symm ▸ hj.trans hk)
    exact hu'.trans (halike.diag j hj ▸ hu.symm)
  case diag_old =>
    show u'.diag[j]? = w.diag[j]?
    rw [hkept, hdiag j (by simpa using hj)]
    rfl
  case values_new =>
    obtain ⟨i, hi, t, rfl, hr'⟩ := hposition hp
    have ht := (lt_iff_of_rowsBelow hk hr').mp (Nat.lt_succ_of_le hr)
    exact halike.entries_eq hi (getElem?_rowsBelow hk hr' ht)
  case values_old =>
    obtain ⟨i, hi, t, rfl, hr'⟩ := hposition hp
    have ht := (lt_iff_of_rowsBelow (k := k + 1) hk hr').not.mp (by omega)
    exact (hextends.storage _ (halike.right.unreached hG hk (not_lt.mp ht)
      (List.getElem?_eq_some_iff.mp hr').1)).2

/-- A factorisation that stops in an object stops in a new object with the same triangle
at the same row. -/
theorem Symbolic.exists_interrupted (hG : G.Symbolic) (hw : (G.store w).Symbolic)
    (hpat : Patterned G.permuted w.rowIdx)
    (hstop : (G.store w).refactor? = some (F', some e)) :
    ∃ N k, StopsAt G k e N ∧ StopsAt (G.store w) k e F' ∧ Interrupted (G.store w) N F' k := by
  have hdim : w.diag.size = G.dim := hw.ncols_eq.symm.trans hG.ncols_eq
  obtain ⟨u, u', _, hrefactor, hrefactor', -, hstopped⟩ := hG.exists_refactor?_store hw
  rw [hstop, Option.some.injEq, Prod.mk.injEq] at hrefactor'
  obtain ⟨rfl, rfl⟩ := hrefactor'
  obtain ⟨k, hk⟩ := hstopped e rfl
  obtain ⟨v, hv, hrow⟩ := hk.left
  obtain ⟨v', hv', hrow'⟩ := hk.right
  refine ⟨G.store u, k, ⟨hrefactor, v, ⟨hk.lt, hv⟩, hrow⟩,
    ⟨hstop, v', ⟨hk.lt.trans_eq hdim.symm, ?_⟩, ?_⟩, hk.interrupted hG hw hpat⟩
  · rw [rows?_store hdim, hv']
  · rw [row?_store hdim, hrow']
    rfl

/-! ## Any object -/

/-- The object has been made from a square triangle, in its fill-reducing order or in
another one. -/
def Made (M : Csc α) (reg : Option (Regularization α)) (F : Ldl α) : Prop :=
  M.nrows = M.ncols ∧ M.IsTriu ∧ (factor M reg = .ok F ∨
    ∃ perm, Ordering.isOrder M.ncols perm.toList = true ∧ ofOrder M perm reg = .ok F)

theorem Made.exists_carries {M : Csc α} {reg : Option (Regularization α)} (h : Made M reg F)
    (hM : M.Valid) : ∃ perm, Carries F M perm reg ∧ Patterned F.permuted F.rowIdx := by
  obtain ⟨hsq, htri, h⟩ := h
  obtain ⟨perm, hperm, h⟩ :
      ∃ perm, Ordering.isOrder M.ncols perm.toList = true ∧ ofOrder M perm reg = .ok F := by
    refine h.elim (fun h => ?_) id
    obtain ⟨perm, -, hperm, hfactor⟩ := exists_factor hM hsq htri reg
    exact ⟨perm, hperm, hfactor ▸ h⟩
  exact ⟨perm, .of_ofOrder hM hsq htri hperm h, patterned_of_ofOrder hM hsq hperm h⟩

/-- An object is in the order that it has been made in. -/
theorem Carries.perm_eq {M : Csc α} {perm : Array ℕ} {reg : Option (Regularization α)}
    (h : Carries F M perm reg) : F.perm = perm := by
  obtain ⟨G, w, hG, rfl⟩ := h.start
  simp only [start?, Option.bind_eq_bind, Option.bind_eq_some_iff, Option.pure_def,
    Option.some.injEq] at hG
  obtain ⟨_, -, _, -, _, -, rfl⟩ := hG
  rfl

/-- After any calls, values are loaded and factored.  If that stops at a row, it would
stop there in a new object, too.  What is left has the new pivots and entries up to that
row and the old ones behind it, and can be used to solve. -/
theorem interrupted_of_run {M : Csc α} (hM : M.Valid) {reg : Option (Regularization α)}
    {F₀ : Ldl α} (h : Made M reg F₀) {calls : List (Call α)}
    (hb : ∀ b, .solve b ∈ calls → b.size = M.ncols) :
    ∃ F, run? F₀ calls = some F ∧ ∀ values, ∃ F' e,
      (F.updateValues values).refactor? = some (F', e) ∧ ∀ e', e = some e' →
        ∃ G N k, start? (overwrite (current M calls) values) F.perm reg = some G ∧
          StopsAt G k e' N ∧ StopsAt (F.updateValues values) k e' F' ∧ Interrupted F N F' k ∧
          ∀ b, b.size = F.dim → ∃ x, F'.solve? b = some (x, F') := by
  obtain ⟨perm, hF₀, hpat₀⟩ := h.exists_carries hM
  obtain ⟨F, hrun, -, hF⟩ := hF₀.exists_run? hb
  have hpat := hF₀.patterned_of_run? hpat₀ hb hrun
  refine ⟨F, hrun, fun values => ?_⟩
  have hloaded := hF.updateValues values
  obtain ⟨F', e, hrefactor, hF', -⟩ := hloaded.exists_refactor?
  refine ⟨F', e, hrefactor, ?_⟩
  rintro e rfl
  obtain ⟨G, w, _, _, _, hG, hstore, hstart, -⟩ := hloaded.exists_start
  obtain ⟨_, _, _, hbelongs⟩ := hloaded.belongs
  obtain ⟨_, _, _, hbelongs'⟩ := hF'.belongs
  have hpatG : Patterned (F.updateValues values).permuted (F.updateValues values).rowIdx := hpat
  have hsymbolic := hbelongs.symbolic
  rw [hstore] at hpatG hsymbolic hrefactor
  obtain ⟨N, k, hN, hstop, hinterrupted⟩ :=
    hstart.symbolic.exists_interrupted hsymbolic hpatG hrefactor
  rw [← hstore] at hstop hinterrupted
  exact ⟨G, N, k, hF.perm_eq ▸ hG, hN, hstop, { hinterrupted with },
    fun b hb => hbelongs'.exists_solve? (hb.trans hbelongs.dim_eq)⟩

/-- A triangle of three rows with two entries in its first row. -/
def arrow (values : Array ℚ) : Csc ℚ where
  nrows := 3
  ncols := 3
  colPtr := #[0, 1, 3, 5]
  rowIdx := #[0, 0, 1, 0, 2]
  values := values

/-- An object is made, factored again, and used to solve.  Then values are loaded whose
second pivot is refused.  The first column is left with one new entry and one old one. -/
theorem interrupted_arrow : letI := Scalar.rational
    let M := arrow #[4, 2, 5, 2, 6]
    let calls : List (Call ℚ) := [.refactor, .solve #[1, 2, 3]]
    let values := #[1, 3, 1, 3, 1]
    M.Valid ∧ ∃ F₀, Made M none F₀ ∧ (∀ b, .solve b ∈ calls → b.size = M.ncols) ∧
      ∃ F F', run? F₀ calls = some F ∧
        F.values = #[1 / 2, 1 / 2, -1 / 4] ∧ F.diag = #[4, 4, 19 / 4] ∧
        (F.updateValues values).refactor? = some (F', some .zeroPivot) ∧
        F'.values = #[3, 1 / 2, -1 / 4] ∧ F'.diag = #[1, 4, 19 / 4] ∧
        ∃ G N k, start? (overwrite (current M calls) values) F.perm none = some G ∧
          StopsAt G k .zeroPivot N ∧ StopsAt (F.updateValues values) k .zeroPivot F' ∧
          Interrupted F N F' k ∧ ∀ b, b.size = F.dim → ∃ x, F'.solve? b = some (x, F') := by
  let _ := Scalar.rational
  have hM : (arrow #[4, 2, 5, 2, 6]).Valid := ⟨⟨rfl, rfl, rfl, rfl, by decide⟩, by decide⟩
  have htri : (arrow #[4, 2, 5, 2, 6]).IsTriu := hM.isTriu?_eq_true_iff.mp (by cbv)
  obtain ⟨F₀, hF₀⟩ : ∃ F₀, ofOrder (arrow #[4, 2, 5, 2, 6]) #[0, 1, 2] none = .ok F₀ :=
    ⟨_, by cbv⟩
  have hmade : Made (arrow #[4, 2, 5, 2, 6]) none F₀ :=
    ⟨rfl, htri, .inr ⟨#[0, 1, 2], by decide, hF₀⟩⟩
  have hlength : ∀ b : Array ℚ, .solve b ∈ ([.refactor, .solve #[1, 2, 3]] : List (Call ℚ)) →
      b.size = (arrow #[4, 2, 5, 2, 6]).ncols := by
    intro b hb
    obtain rfl : b = #[1, 2, 3] := by simpa using hb
    rfl
  obtain ⟨F, hrun, hstops⟩ := interrupted_of_run hM hmade hlength
  obtain ⟨F', e, hrefactor, hstopped⟩ := hstops #[1, 3, 1, 3, 1]
  have hvalues : (do
      let F₀ ← (ofOrder (arrow #[4, 2, 5, 2, 6]) #[0, 1, 2] none).toOption
      let F ← run? F₀ [.refactor, .solve #[1, 2, 3]]
      let r ← (F.updateValues #[1, 3, 1, 3, 1]).refactor?
      pure ((F.values, F.diag), r.2, r.1.values, r.1.diag)) =
        some ((#[1 / 2, 1 / 2, -1 / 4], #[4, 4, 19 / 4]), some .zeroPivot,
          #[3, 1 / 2, -1 / 4], #[1, 4, 19 / 4]) := by
    decide +kernel
  simp only [hF₀, Except.toOption, hrun, hrefactor, Option.bind_eq_bind, Option.bind_some,
    Option.pure_def, Option.some.injEq, Prod.mk.injEq] at hvalues
  obtain ⟨⟨hold, holdDiag⟩, rfl, hnew, hnewDiag⟩ := hvalues
  exact ⟨hM, F₀, hmade, hlength, F, F', hrun, hold, holdDiag, hrefactor, hnew, hnewDiag,
    hstopped _ rfl⟩

end Conic.Ldl
