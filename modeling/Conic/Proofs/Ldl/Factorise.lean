import Conic.Proofs.Ldl.Rows

/-!
# The loop over the rows

`Ldl.Symbolic.exists_row?` is the step of a factorisation: row `k` is computed,
its pivot is accepted or refused, and in both cases the columns have their
entries of row `k`.  `Ldl.exists_rows?` repeats the step for an invariant of the
caller, so that a statement about all rows needs to look at one row only.

An object `Ldl.Belongs` to a triangle if it holds the triangle in some order,
with the symbolic part that goes with it.  Factoring gives such an object, and
loading other values and factoring again keeps it one.
-/

namespace Conic.Ldl

variable {α : Type} [Scalar α] {F : Ldl α} {k : ℕ} {c : ℕ → List (ℕ × α)}

/-! ## One row -/

/-- The pivot that a row ends with, before it is accepted or refused. -/
def pivotOf (F : Ldl α) (k : ℕ) (pattern : List ℕ) (d : ℕ → α) (c : ℕ → List (ℕ × α)) : α :=
  (repair F.regularization (rowOf F k pattern d c).2.2).1

/-- A computed row: the columns have their entries, and the pivot is stored if it
is accepted. -/
structure RowDone (F : Ldl α) (k : ℕ) (pattern : List ℕ) (w : Work α) (c : ℕ → List (ℕ × α))
    (w' : Work α) (e : Option LdlError) : Prop where
  /-- What holds before the next row. -/
  rows : Rows F (k + 1) w' (rowOf F k pattern (fun i => w.diag.getD i 0) c).2.1
  /-- The pivot is refused if it has to be. -/
  refusal : e = refusal? (pivotOf F k pattern (fun i => w.diag.getD i 0) c)
  /-- An accepted pivot is stored. -/
  diag : w'.diag =
    if e = none then w.diag.modify k fun _ => pivotOf F k pattern (fun i => w.diag.getD i 0) c
    else w.diag
  /-- A replaced pivot is counted. -/
  regularized : w'.regularized =
    if (repair F.regularization (rowOf F k pattern (fun i => w.diag.getD i 0) c).2.2).2 then
      w.regularized + 1 else w.regularized

/-- An accepted row adds its pivot to the pivots of the earlier rows. -/
theorem RowDone.getD_diag {pattern : List ℕ} {w w' : Work α} (h : RowDone F k pattern w c w' none)
    (hk : k < w.diag.size) : (fun i => w'.diag.getD i 0) =
      Function.update (fun i => w.diag.getD i 0) k
        (pivotOf F k pattern (fun i => w.diag.getD i 0) c) := by
  funext i
  rw [h.diag, if_pos rfl, Array.getD_eq_getD_getElem?, Array.getElem?_modify]
  by_cases hki : k = i
  · subst hki
    simp [hk]
  · rw [if_neg hki, Function.update_of_ne (Ne.symm hki), Array.getD_eq_getD_getElem?]

section

variable {pattern : List ℕ}
  (hpattern : RowPattern (Stored F.permuted) (fun i => Fill (Stored F.permuted) i k) pattern)
  (hrows : ∀ i, (c i).map Prod.fst = rowsBelow (Stored F.permuted) k i) (d : ℕ → α)

include hpattern hrows

/-- The columns of the pattern get an entry of row `k`, and these are the columns
that fill it. -/
theorem map_fst_rowOf (i : ℕ) : ((rowOf F k pattern d c).2.1 i).map Prod.fst =
    rowsBelow (Stored F.permuted) (k + 1) i := by
  rw [rowOf, map_fst_foldl_eliminated d hpattern.nodup hrows, rowsBelow_succ]
  by_cases hi : i ∈ pattern
  · rw [if_pos hi, if_pos ((hpattern.mem i).mp hi)]
  · rw [if_neg hi, if_neg fun hfill => hi ((hpattern.mem i).mpr hfill)]

/-- The eliminations leave nothing of the row that was scattered: its columns fill
row `k`, so they are in the pattern. -/
theorem Symbolic.rowOf_eq_zeros (hF : F.Symbolic) (hk : k < F.dim) :
    (rowOf F k pattern d c).1 = Vec.zeros F.dim := by
  set y := scattered (F.permuted.column k) (Vec.zeros F.dim) with hydef
  have hysize : y.size = F.dim := by simp [hydef, size_scattered]
  have houtside : ∀ j < F.dim, j ∉ pattern → (y.modify k fun _ => 0)[j]? = some 0 := by
    intro j hj hmem
    rw [Array.getElem?_modify]
    by_cases hkj : k = j
    · subst hkj
      simp [hysize, hk]
    · rw [if_neg hkj, hydef, getElem?_scattered_of_ne]
      · exact (Holds.replicate F.dim 0).get j hj
      · rintro e he rfl
        rcases hF.eq_or_fill hk he with heq | hfill
        · exact hkj heq.symm
        · exact hmem ((hpattern.mem _).mpr hfill)
  have hsize : (rowOf F k pattern d c).1.size = F.dim := by
    rw [rowOf, size_foldl_eliminated, Array.size_modify, hysize]
  have hholds : Holds (rowOf F k pattern d c).1 F.dim fun _ => 0 :=
    ⟨hsize, fun j hj => foldl_eliminated_eq_zero d hpattern hrows (by simpa using hysize)
      houtside _ hj⟩
  exact hholds.ext (Holds.replicate F.dim 0)

end

/-- Computing a row succeeds.  Its pattern and the marks after it depend on the
marks before it only. -/
theorem Symbolic.exists_row? (hF : F.Symbolic) (hk : k < F.dim) {mark₀ : Array ℕ}
    (hmark₀ : Unmarked F.dim k mark₀) :
    ∃ mark pattern,
      RowPattern (Stored F.permuted) (fun i => Fill (Stored F.permuted) i k) pattern ∧
      ∀ w c, Rows F k w c → w.mark = mark₀ → ∃ w' e, row? F k w = some (w', e) ∧
        w'.mark = mark ∧ RowDone F k pattern w c w' e := by
  obtain ⟨mark, pattern, hmark, hpattern, hrun⟩ := hF.exists_collect? hk hmark₀
  refine ⟨mark, pattern, hpattern, fun w c h hwmark => ?_⟩
  obtain ⟨stack, hstack, hcollect⟩ := hrun w hwmark (by simp [h.y]) h.size_stack
  have hd := Holds.of_getD w.diag 0
  rw [h.size_diag] at hd
  set d : ℕ → α := fun i => w.diag.getD i 0 with hddef
  rw [h.y] at hcollect
  set y := scattered (F.permuted.column k) (Vec.zeros F.dim) with hydef
  have hysize : y.size = F.dim := by simp [hydef, size_scattered]
  have hyk : y[k]? = some (y.getD k 0) := by simp [Array.getD, hysize, hk]
  have hzero := update?_of_lt (v := y) (fun _ => 0) (hysize.symm ▸ hk)
  obtain ⟨⟨w', dk'⟩, hloop, hdk', hy', hstores', hmark', hstack', hdiag', hreg'⟩ :=
    exists_partway hF hk h.rows hpattern
      ({ w with y := y.modify k fun _ => 0, mark := mark, stack := stack }, y.getD k 0)
      (h.stores.of_eq rfl rfl rfl) (by simpa using hysize) hd (List.append_nil _).symm
  have hrowOf : pattern.foldl (eliminated k d) (y.modify k fun _ => 0, c, y.getD k 0) =
      rowOf F k pattern d c := rfl
  simp only [hrowOf] at hdk' hy' hstores'
  subst hdk'
  set dk := pivotOf F k pattern d c with hdk
  set w'' : Work α := { w' with
    regularized := if (repair F.regularization (rowOf F k pattern d c).2.2).2 then
      w'.regularized + 1 else w'.regularized } with hw''
  have hdone : Rows F (k + 1) w'' (rowOf F k pattern d c).2.1 :=
    ⟨hstores'.of_eq rfl rfl rfl, map_fst_rowOf hpattern h.rows d,
      hy'.trans (hF.rowOf_eq_zeros hpattern h.rows d hk), by rw [hw'', hmark']; exact hmark,
      by rw [hw'', hstack']; exact hstack, by rw [hw'', hdiag']; exact h.size_diag⟩
  have hcount : w''.regularized =
      if (repair F.regularization (rowOf F k pattern d c).2.2).2 then w.regularized + 1
      else w.regularized := by rw [hw'', hreg']
  have hrow : row? F k w = (refusal? dk).elim
      ((update? w''.diag k fun _ => dk).bind fun diag => some ({ w'' with diag := diag }, none))
      fun e => some (w'', some e) := by
    simp only [row?, hcollect, hyk, hzero, hloop, Option.bind_eq_bind, Option.bind_some]
    rw [hdk, pivotOf]
    cases refusal? (repair F.regularization (rowOf F k pattern d c).2.2).1 <;> rfl
  cases hrefusal : refusal? dk with
  | some e =>
    rw [hrefusal, Option.elim_some] at hrow
    exact ⟨w'', some e, hrow, hmark', hdone, hrefusal.symm, by
      rw [if_neg (by simp), hw'']
      exact hdiag', hcount⟩
  | none =>
    have hsize : w''.diag.size = F.dim := hdone.size_diag
    rw [hrefusal, Option.elim_none, update?_of_lt _ (hsize.symm ▸ hk)] at hrow
    refine ⟨_, none, hrow, hmark', ?_, hrefusal.symm, ?_, hcount⟩
    · exact ⟨hdone.stores.of_eq rfl rfl rfl, hdone.rows, hdone.y, hdone.mark, hdone.size_stack,
        by simpa using hsize⟩
    · rw [if_pos rfl, hw'']
      exact congrArg (fun diag => diag.modify k fun _ => dk) hdiag'

/-! ## All rows -/

/-- Computing rows succeeds, as far as no pivot is refused, and keeps what every
row keeps. -/
theorem exists_rows? {n : ℕ} (I : ℕ → Work α → Prop) {w : Work α} (h₀ : I 0 w)
    (hstep : ∀ k < n, ∀ w, I k w → ∃ w' e, row? F k w = some (w', e) ∧ (e = none → I (k + 1) w')) :
    ∃ w' e, F.rows? (List.range n) w = some (w', e) ∧ (e = none → I n w') ∧
      (e ≠ none → ∃ k < n, ∃ w₀, I k w₀ ∧ row? F k w₀ = some (w', e)) := by
  suffices H : ∀ m k w, k + m = n → I k w → ∃ w' e, F.rows? (List.range' k m) w = some (w', e) ∧
      (e = none → I n w') ∧ (e ≠ none → ∃ k < n, ∃ w₀, I k w₀ ∧ row? F k w₀ = some (w', e)) by
    rw [List.range_eq_range']
    exact H n 0 w (Nat.zero_add n) h₀
  intro m
  induction m with
  | zero =>
    rintro k w rfl hw
    exact ⟨w, none, rfl, fun _ => hw, fun h => absurd rfl h⟩
  | succ m ih =>
    intro k w hkm hw
    obtain ⟨w', e, hrow, hI⟩ := hstep k (by omega) w hw
    rw [List.range'_succ, rows?, hrow]
    cases e with
    | some e => exact ⟨w', some e, rfl, by simp, fun _ => ⟨k, by omega, w, hw, hrow⟩⟩
    | none => exact ih (k + 1) w' (by omega) (hI rfl)

/-- What a factorisation starts from. -/
theorem Symbolic.rows_work (hF : F.Symbolic) : Rows F 0 F.work fun _ => [] where
  stores := ⟨(Holds.const_map hF.size_filled 0), fun i _ t ht => by simp at ht, hF.size_rowIdx,
    hF.size_values, hF.rowIdx_lt⟩
  rows i := (rowsBelow_zero i).symm
  y := by
    show Vec.fill F.y 0 = Vec.zeros F.dim
    rw [hF.y]
    simp [Vec.fill, Vec.zeros]
  mark := ⟨_, Holds.const_map hF.size_mark F.dim, fun i _ => .inr rfl⟩
  size_stack := hF.size_stack
  size_diag := rfl

/-- The object that holds what a factorisation has computed. -/
def store (F : Ldl α) (w : Work α) : Ldl α := { F with toWork := w }

theorem Rows.symbolic_store {w : Work α} (h : Rows F k w c) (hF : F.Symbolic) :
    (F.store w).Symbolic := by
  obtain ⟨_, hmark, -⟩ := h.mark
  refine ⟨hF.divided, hF.isTriu, ?_, ?_, ?_, ?_, ?_, ?_, ?_, ?_, ?_, ?_⟩ <;>
    rw [show (F.store w).dim = F.dim from h.size_diag]
  · exact hF.ncols_eq
  · exact hF.parent
  · exact hF.colPtr
  · exact h.stores.size_rowIdx
  · exact h.stores.size_values
  · exact h.stores.rowIdx_lt
  · exact h.y
  · exact hmark.size
  · exact h.size_stack
  · exact h.stores.filled.size

/-- The factorisation ends at row `k`, whose pivot is refused.  `I` is what the
rows before it have established. -/
def RefusedAt (F : Ldl α) (I : ℕ → Work α → (ℕ → List (ℕ × α)) → Prop) (k : ℕ) (w : Work α)
    (e : LdlError) : Prop :=
  ∃ w₀ c pattern, Rows F k w₀ c ∧ I k w₀ c ∧
    RowPattern (Stored F.permuted) (fun i => Fill (Stored F.permuted) i k) pattern ∧
    RowDone F k pattern w₀ c w (some e)

/-- Computing the first rows succeeds, up to a pivot that is refused.  Without a
refused pivot it establishes what every row keeps. -/
theorem Symbolic.exists_rows? (hF : F.Symbolic)
    (I : ℕ → Work α → (ℕ → List (ℕ × α)) → Prop) (h₀ : I 0 F.work fun _ => []) {n : ℕ}
    (hn : n ≤ F.dim)
    (hstep : ∀ k < F.dim, ∀ w c pattern w', Rows F k w c → I k w c →
      RowPattern (Stored F.permuted) (fun i => Fill (Stored F.permuted) i k) pattern →
      RowDone F k pattern w c w' none →
      I (k + 1) w' (rowOf F k pattern (fun i => w.diag.getD i 0) c).2.1) :
    ∃ w e, F.rows? (List.range n) F.work = some (w, e) ∧
      (e = none → ∃ c, Rows F n w c ∧ I n w c) ∧
      ∀ e', e = some e' → ∃ k < n, RefusedAt F I k w e' := by
  obtain ⟨w, e, hrows, hnone, hsome⟩ := Ldl.exists_rows? (F := F) (n := n)
    (fun k w => ∃ c, Rows F k w c ∧ I k w c) ⟨_, hF.rows_work, h₀⟩ (by
      rintro k hk w ⟨c, hw, hI⟩
      obtain ⟨_, pattern, hpattern, hrun⟩ := hF.exists_row? (hk.trans_le hn) hw.mark
      obtain ⟨w', e, hrow, -, hdone⟩ := hrun w c hw rfl
      refine ⟨w', e, hrow, ?_⟩
      rintro rfl
      exact ⟨_, hdone.rows, hstep k (hk.trans_le hn) w c pattern w' hw hI hpattern hdone⟩)
  refine ⟨w, e, hrows, hnone, ?_⟩
  rintro e rfl
  obtain ⟨k, hk, w₀, ⟨c, hw₀, hI⟩, hrow⟩ := hsome (by simp)
  obtain ⟨_, pattern, hpattern, hrun⟩ := hF.exists_row? (hk.trans_le hn) hw₀.mark
  obtain ⟨w', e', hrow', -, hdone⟩ := hrun w₀ _ hw₀ rfl
  rw [hrow, Option.some.injEq, Prod.mk.injEq] at hrow'
  obtain ⟨rfl, rfl⟩ := hrow'
  exact ⟨k, hk, w₀, c, pattern, hw₀, hI, hpattern, hdone⟩

/-- Factoring the loaded values succeeds, up to a pivot that is refused, and keeps
the symbolic part.  Without a refused pivot it establishes what every row
keeps. -/
theorem Symbolic.exists_refactor? (hF : F.Symbolic)
    (I : ℕ → Work α → (ℕ → List (ℕ × α)) → Prop) (h₀ : I 0 F.work fun _ => [])
    (hstep : ∀ k < F.dim, ∀ w c pattern w', Rows F k w c → I k w c →
      RowPattern (Stored F.permuted) (fun i => Fill (Stored F.permuted) i k) pattern →
      RowDone F k pattern w c w' none →
      I (k + 1) w' (rowOf F k pattern (fun i => w.diag.getD i 0) c).2.1) :
    ∃ w e, F.refactor? = some (F.store w, e) ∧ (F.store w).Symbolic ∧
      (e = none → ∃ c, Rows F F.dim w c ∧ I F.dim w c) ∧
      ∀ e', e = some e' → ∃ k < F.dim, RefusedAt F I k w e' := by
  obtain ⟨w, e, hrows, hnone, hsome⟩ := hF.exists_rows? I h₀ le_rfl hstep
  refine ⟨w, e, ?_, ?_, hnone, hsome⟩
  · simp only [refactor?, hrows, Option.bind_eq_bind, Option.bind_some, Option.pure_def, store]
  · cases e with
    | none =>
      obtain ⟨c, hw, -⟩ := hnone rfl
      exact hw.symbolic_store hF
    | some e =>
      obtain ⟨k, -, w₀, c, pattern, -, -, -, hdone⟩ := hsome e rfl
      exact hdone.rows.symbolic_store hF

/-- A factorisation replaces the work of the object only. -/
theorem Symbolic.exists_store (hF : F.Symbolic) :
    ∃ w e, F.refactor? = some (F.store w, e) ∧ (F.store w).Symbolic := by
  obtain ⟨w, e, hrefactor, hsymbolic, -⟩ :=
    hF.exists_refactor? (fun _ _ _ => True) trivial (by simp)
  exact ⟨w, e, hrefactor, hsymbolic⟩

/-! ## The object of a triangle -/

/-- The object holds the triangle `M` in the order `π`, with the symbolic part
that goes with it. -/
structure Belongs (F : Ldl α) (M : Csc α) (π ι dest : ℕ → ℕ) : Prop where
  /-- The symbolic part. -/
  symbolic : F.Symbolic
  /-- The order. -/
  perm : Holds F.perm M.ncols π
  /-- The order and its inverse. -/
  inverts : Inverts M.ncols π ι
  /-- The places of the entries. -/
  places : Holds F.dest M.nnz dest
  /-- The triangle in its order. -/
  permuted : Permuted M F.permuted ι dest

namespace Belongs

variable {M : Csc α} {π ι dest : ℕ → ℕ} (h : Belongs F M π ι dest)

include h

theorem dim_eq : F.dim = M.ncols := h.symbolic.ncols_eq.symm.trans h.permuted.ncols_eq

/-- Loading values, as many as there are. -/
theorem updateValues (hM : M.Divided) (values : Array α) :
    Belongs (F.updateValues values) (overwrite M values) π ι dest := by
  have hload := h.permuted.load hM h.places values
  refine ⟨?_, h.perm, h.inverts, ?_, hload⟩
  · exact { h.symbolic with
      divided := hload.divided
      isTriu := hload.isTriu }
  · rw [nnz_overwrite]
    exact h.places

theorem store {w : Work α} (hF : (F.store w).Symbolic) : Belongs (F.store w) M π ι dest :=
  ⟨hF, h.perm, h.inverts, h.places, h.permuted⟩

end Belongs

/-! ## The first factorisation -/

/-- Permuting and analysing a square triangle succeeds in every order. -/
theorem exists_start? {M : Csc α} (hM : M.Valid) (hsq : M.nrows = M.ncols) {perm : Array ℕ}
    (hperm : Ordering.isOrder M.ncols perm.toList = true) (reg : Option (Regularization α)) :
    ∃ F π ι dest, start? M perm reg = some F ∧ Belongs F M π ι dest ∧ F.regularization = reg := by
  obtain ⟨P, places, π, ι, dest, hpermute, hπ, hinverts, hplaces, hP⟩ :=
    exists_permuteTriu? hM hsq hperm
  obtain ⟨parent, colPtr, hanalyse, hparent, hcolPtr⟩ := exists_analyse? hP.divided hP.isTriu
  have hncols := hP.ncols_eq
  set nnz := columnStart (Stored P) P.ncols P.ncols with hnnz
  have hlast : colPtr[M.ncols]? = some nnz := by
    rw [← hncols]
    exact hcolPtr.get _ (Nat.lt_succ_self _)
  let F : Ldl α := {
    perm := perm, permuted := P, dest := places, parent := parent, colPtr := colPtr
    rowIdx := Array.replicate nnz 0, values := Vec.zeros nnz, diag := Vec.zeros M.ncols
    regularization := reg, regularized := 0
    y := Vec.zeros M.ncols, mark := Array.replicate M.ncols M.ncols
    stack := Array.replicate M.ncols 0, filled := Array.replicate M.ncols 0 }
  have hstart : start? M perm reg = some F := by
    simp only [start?, hpermute, hanalyse, hlast, Option.bind_eq_bind, Option.bind_some,
      Option.pure_def, F]
  have hdim : F.dim = P.ncols := by simp [F, dim, hncols]
  refine ⟨F, π, ι, dest, hstart, ⟨?_, hπ, hinverts, hplaces, hP⟩, rfl⟩
  refine ⟨hP.divided, hP.isTriu, hdim.symm, ?_, ?_, ?_, ?_, ?_, ?_, ?_, ?_, ?_⟩ <;> rw [hdim]
  · exact hparent
  · exact hcolPtr
  · simp [F, hnnz]
  · simp [F, hnnz]
  · -- an entry of the factor needs a column
    intro i hi
    obtain ⟨hentries, rfl⟩ := Array.mem_replicate.mp hi
    by_contra hzero
    exact hentries (by rw [hnnz, Nat.eq_zero_of_not_pos hzero]; rfl)
  · rw [hncols]
  all_goals simp [F, hncols]

/-- A factorisation in a given order is the first one of its object. -/
theorem ofOrder_eq {M : Csc α} {perm : Array ℕ} {reg : Option (Regularization α)}
    (h : start? M perm reg = some F) : ofOrder M perm reg = match F.refactor? with
        | some (F', none) => .ok F'
        | some (_, some e) => .error (.cause e)
        | none => .error .outOfBounds := by
  rw [ofOrder, h]
  simp only [Fault.ofOption, bind, Except.bind]
  rcases F.refactor? with _ | ⟨F', _ | e⟩ <;> rfl

omit [Scalar α] in
/-- The fill-reducing order of a matrix is an order. -/
theorem exists_order {M : Csc α} (hM : M.Divided) :
    ∃ perm, order M = .ok perm ∧ Ordering.isOrder M.ncols perm.toList = true := by
  unfold order
  by_cases hn : M.ncols = 0
  · exact ⟨#[], by rw [if_pos hn]; rfl, by rw [hn]; rfl⟩
  · have hfirst : M.colPtr[0]? = some 0 := by rw [hM.colPtr_eq (Nat.zero_le _), hM.first_zero]
    have hrows := Loop.mapM_eq_some (l := List.range M.ncols)
      (fun j => M.rowIdx.extract (M.first j) (M.first (j + 1)))
      fun j hj => hM.rows?_eq (List.mem_range.mp hj)
    set columns := (List.range M.ncols).map fun j => M.rowIdx.extract (M.first j) (M.first (j + 1))
      with hcolumns
    refine ⟨(Ordering.minimumDegree (columns.map Array.toList)).toArray, ?_, ?_⟩
    · rw [if_neg hn, if_neg (not_not.mpr hfirst), hrows]
      rfl
    · have hlen : (columns.map Array.toList).length = M.ncols := by simp [hcolumns]
      rw [← hlen]
      exact Ordering.isOrder_certify _ _

/-- Factoring a square triangle is factoring it in an order. -/
theorem exists_factor {M : Csc α} (hM : M.Valid) (hsq : M.nrows = M.ncols) (htri : M.IsTriu)
    (reg : Option (Regularization α)) :
    ∃ perm, order M = .ok perm ∧ Ordering.isOrder M.ncols perm.toList = true ∧
      factor M reg = ofOrder M perm reg := by
  obtain ⟨perm, horder, hperm⟩ := exists_order hM.toDivided
  refine ⟨perm, horder, hperm, ?_⟩
  rw [factor, if_neg (not_not.mpr hsq), hM.isTriu?_eq_true_iff.mpr htri, horder]
  rfl

end Conic.Ldl
