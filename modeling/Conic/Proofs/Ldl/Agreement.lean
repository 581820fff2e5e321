import Conic.Proofs.Ldl.Calls
import Conic.Proofs.Ldl.Frame

/-!
# Analysis and factorisation agree

`Ldl.analyse?` counts the rows of every column of the factor on one traversal of
the elimination tree.  `Ldl.refactor?` fills the columns on another one, which
collects its paths on a stack that it shares with the pattern of the row.  If the
two traversals disagreed, an entry would end up in the next column, or a path
would overwrite the pattern.

`Ldl.Begins`, `Ldl.Scatters` and `Ldl.Eliminates` name the states that a
factorisation passes through, up to the first pivot that is refused.  In each of
them the next step is safe: a path ends at a marked node and stays below the
pattern (`Ldl.WalksApart`), and an entry is written into its own column
(`Ldl.WritesInside`).  After the last row no column has room left
(`Ldl.FullColumns`).  `Ldl.agrees_of_run` says this of an object after any calls.
-/

namespace Conic.Ldl

variable {α : Type} [Scalar α]

/-! ## What a factorisation passes through -/

/-- Row `k` begins with `w`. -/
def Begins (F : Ldl α) (k : ℕ) (w : Work α) : Prop :=
  k < F.dim ∧ F.rows? (List.range k) F.work = some (w, none)

/-- The next entry of column `k` to be scattered is `idx`.  The pattern stands on
the stack from `top` on. -/
def Scatters (F : Ldl α) (k idx : ℕ) (w : Work α) (top : ℕ) : Prop :=
  ∃ w₀ mark done rest, Begins F k w₀ ∧ update? w₀.mark k (fun _ => k) = some mark ∧
    span? F.permuted k = some (done ++ idx :: rest) ∧
    done.foldlM (scatter? F k) ({ w₀ with mark := mark }, F.dim) = some (w, top)

/-- The next column to be eliminated in row `k` is `i`.  The pivot is `dk` so
far. -/
def Eliminates (F : Ldl α) (k i : ℕ) (w : Work α) (dk : α) : Prop :=
  ∃ w₀ w₁ y d done rest, Begins F k w₀ ∧ F.collect? k w₀ = some (w₁, done ++ i :: rest) ∧
    w₁.y[k]? = some d ∧ update? w₁.y k (fun _ => 0) = some y ∧
    done.foldlM (eliminate? F k) ({ w₁ with y := y }, d) = some (w, dk)

/-! ## Safe steps -/

/-- The walk from the row of an entry ends at a marked node.  Its path lies below
the pattern, which stays as it is until the path is put in front of it. -/
def WalksApart (F : Ldl α) (k idx : ℕ) (w : Work α) (top : ℕ) : Prop :=
  ∃ i path mark climbed lifted, F.permuted.rowIdx[idx]? = some i ∧
    Walk F.parent k i w.mark path mark ∧ path.length ≤ top ∧
    climb? F.parent k F.dim i w.mark w.stack 0 = some (mark, climbed, path.length) ∧
    climbed.toList = path ++ w.stack.toList.drop path.length ∧
    lift? path.length top climbed = some (lifted, top - path.length) ∧
    lifted.toList.drop (top - path.length) = path ++ w.stack.toList.drop top

/-- Eliminating column `i` writes one entry, behind those of column `i` and before
the next column. -/
def WritesInside (F : Ldl α) (k i : ℕ) (w : Work α) (dk : α) : Prop :=
  ∃ a b count w' dk', F.colPtr[i]? = some a ∧ F.colPtr[i + 1]? = some b ∧
    w.filled[i]? = some count ∧ a + count < b ∧ eliminate? F k (w, dk) i = some (w', dk') ∧
    w'.rowIdx[a + count]? = some k ∧
    ∀ p ≠ a + count, w'.rowIdx[p]? = w.rowIdx[p]? ∧ w'.values[p]? = w.values[p]?

/-- Every column is filled.  Its rows increase and lie below the diagonal. -/
def FullColumns (F : Ldl α) : Prop :=
  ∀ i < F.dim, ∃ a b rows, F.colPtr[i]? = some a ∧ F.colPtr[i + 1]? = some b ∧
    F.filled[i]? = some (b - a) ∧ slice? F.rowIdx a b = some rows ∧
    rows.toList.Pairwise (· < ·) ∧ ∀ r ∈ rows, i < r ∧ r < F.dim

/-- The analysis of an object agrees with its factorisations. -/
structure Agrees (F : Ldl α) : Prop where
  /-- A factorisation succeeds, up to a pivot that is refused. -/
  refactor : ∃ F' e, F.refactor? = some (F', e) ∧ (e = none → F'.FullColumns)
  /-- The stack is large enough for paths and pattern. -/
  walk : ∀ k idx w top, Scatters F k idx w top → WalksApart F k idx w top
  /-- Every column has room for its entries. -/
  write : ∀ k i w dk, Eliminates F k i w dk → WritesInside F k i w dk
  /-- A solve succeeds. -/
  solve : ∀ b, b.size = F.dim → ∃ x F', F.solve? b = some (x, F')

variable {F : Ldl α} {k : ℕ} {w : Work α}

/-- What holds before a row of the factorisation. -/
theorem Symbolic.exists_rows_of_begins (hF : F.Symbolic) (h : Begins F k w) :
    ∃ c, Rows F k w c := by
  obtain ⟨hk, hrun⟩ := h
  obtain ⟨w', e, hrows, hnone, -⟩ := hF.exists_rows? (fun _ _ _ => True) trivial hk.le (by simp)
  rw [hrun, Option.some.injEq, Prod.mk.injEq] at hrows
  obtain ⟨rfl, rfl⟩ := hrows
  obtain ⟨c, hw, -⟩ := hnone rfl
  exact ⟨c, hw⟩

/-- A path ends at a marked node and does not meet the pattern. -/
theorem Symbolic.walksApart (hF : F.Symbolic) {idx top : ℕ} (h : Scatters F k idx w top) :
    WalksApart F k idx w top := by
  obtain ⟨w₀, mark₀, done, rest, hbegins, hmark₀, hspan, hrun⟩ := h
  obtain ⟨c, hw₀⟩ := hF.exists_rows_of_begins hbegins
  have hk := hbegins.1
  have hk' : k < F.permuted.ncols := hF.ncols_eq ▸ hk
  rw [span?_eq hF.divided hk', Option.some.injEq] at hspan
  have hidx : idx ∈ F.permuted.span k := hspan ▸ by simp
  obtain ⟨_, hmark, hmarked⟩ := hw₀.mark.start hk
  rw [hmark₀, Option.some.injEq] at hmark
  subst hmark
  obtain ⟨mark, pattern, hcollecting, hloop⟩ := hF.exists_scattered hk hmarked hspan
  obtain ⟨stack, front, hsize, hstack, hscattered⟩ :=
    hloop { w₀ with mark := mark₀ } rfl (by simp [hw₀.y]) hw₀.size_stack
  rw [hrun, Option.some.injEq, Prod.mk.injEq] at hscattered
  obtain ⟨rfl, rfl⟩ := hscattered
  obtain ⟨path, mark', hwalk, hfuel, hcollecting'⟩ := hcollecting.exists_walk hF hk hidx
  -- path and pattern are parts of one row, which is shorter than the stack
  have hroom : path.length ≤ front.length := by
    have hlen := congrArg List.length hstack
    have hle := hcollecting'.length_le
    rw [Array.length_toList, List.length_append, hsize] at hlen
    rw [List.length_append] at hle
    omega
  obtain ⟨climbed, lifted, front', hclimb, hclimbed, hlift, hlength, hlifted⟩ :=
    hwalk.exists_climb?_lift? hfuel hstack hroom
  have htop : front.length - path.length = front'.length := by omega
  refine ⟨_, path, mark', climbed, lifted, hF.divided.row_eq hk' hidx, hwalk, hroom, hclimb, ?_,
    htop ▸ hlift, ?_⟩
  · rw [hclimbed, show stack.toList = front ++ pattern from hstack,
      List.drop_append_of_le_length hroom]
  · rw [htop, hlifted, List.drop_left, show stack.toList = front ++ pattern from hstack,
      List.drop_left]

/-- An entry is written into its own column. -/
theorem Symbolic.writesInside (hF : F.Symbolic) {i : ℕ} {dk : α} (h : Eliminates F k i w dk) :
    WritesInside F k i w dk := by
  obtain ⟨w₀, w₁, y, d, done, rest, hbegins, hcollect, hd, hy, hrun⟩ := h
  obtain ⟨c, hw₀⟩ := hF.exists_rows_of_begins hbegins
  have hk := hbegins.1
  obtain ⟨mark, pattern, -, hpattern, hloop⟩ := hF.exists_collect? hk hw₀.mark
  obtain ⟨stack, -, hcollect'⟩ := hloop w₀ rfl (by simp [hw₀.y]) hw₀.size_stack
  rw [hcollect, Option.some.injEq, Prod.mk.injEq] at hcollect'
  obtain ⟨rfl, heq⟩ := hcollect'
  have hysize : y.size = F.dim := by
    rw [size_of_update?_eq_some hy, size_scattered]
    simp [hw₀.y]
  have hdiag := Holds.of_getD w₀.diag 0
  rw [hw₀.size_diag] at hdiag
  obtain ⟨s, hrun', hpartway⟩ := exists_partway hF hk hw₀.rows hpattern
    ({ w₀ with y := y, mark := mark, stack := stack }, d) (hw₀.stores.of_eq rfl rfl rfl)
    hysize hdiag heq.symm
  obtain rfl : (w, dk) = s := Option.some.inj (hrun.symm.trans hrun')
  obtain ⟨⟨w', dk'⟩, hstep, -⟩ :=
    hpartway.exists_eliminate? hF hk hw₀.rows hpattern hysize hdiag heq.symm
  obtain ⟨a, count, v, ha, hcount, hrows, hvalues, -, -⟩ := exists_update?_of_eliminate? hstep
  have hi : i < F.dim := ((hpattern.mem i).mp (heq ▸ by simp)).lt.trans hk
  -- the position is that of the next entry of the column, and the column is not full
  obtain rfl : columnStart (Stored F.permuted) F.dim i = a := by
    rw [hF.colPtr.get i (by omega)] at ha
    exact Option.some.inj ha
  have hroom := length_foldl_eliminated_lt hk (fun i => w₀.diag.getD i 0) hpattern hw₀.rows
    heq.symm y d
  rw [hpartway.stores.filled.get i hi, Option.some.injEq] at hcount
  rw [hcount] at hroom
  have hlt : columnStart (Stored F.permuted) F.dim i + count <
      columnStart (Stored F.permuted) F.dim (i + 1) := by
    rw [columnStart_succ]
    omega
  refine ⟨_, _, count, w', dk', ha, hF.colPtr.get (i + 1) (by omega), ?_, hlt, hstep, ?_,
    fun p hp => ?_⟩
  · rw [hpartway.stores.filled.get i hi, hcount]
  · have hpos := hlt.trans_le (columnStart_mono F.dim (show i + 1 ≤ F.dim from hi))
    have hbefore := Array.getElem?_eq_getElem
      (hpos.trans_eq hpartway.stores.size_rowIdx.symm : _ < w.rowIdx.size)
    have hrow := getElem?_of_update?_eq_some hrows (columnStart (Stored F.permuted) F.dim i + count)
    rwa [if_pos rfl, hbefore] at hrow
  · have hrow := getElem?_of_update?_eq_some hrows p
    have hvalue := getElem?_of_update?_eq_some hvalues p
    rw [if_neg (Ne.symm hp)] at hrow hvalue
    exact ⟨hrow, hvalue⟩

omit [Scalar α] in
/-- The rows of a column in storage. -/
theorem StoredAt.slice?_eq {rowIdx : Array ℕ} {values : Array α} {a : ℕ} {col : List (ℕ × α)}
    (h : StoredAt rowIdx values a col) (hsize : a + col.length ≤ rowIdx.size) :
    slice? rowIdx a (a + col.length) = some (col.map Prod.fst).toArray := by
  rw [slice?_of_le (Nat.le_add_right _ _) hsize, Option.some.injEq]
  apply Array.ext
  · simp
    omega
  · intro t ht _
    have ht' : t < col.length := by
      simp at ht
      omega
    have hrow := (h t ht').1
    rw [Array.getElem?_eq_getElem (by omega), Option.some.injEq] at hrow
    simpa using hrow

/-- After the last row a column in storage has all rows that it fills. -/
theorem Rows.slice?_eq {c : ℕ → List (ℕ × α)} (h : Rows F F.dim w c) {i : ℕ} (hi : i < F.dim) :
    slice? w.rowIdx (columnStart (Stored F.permuted) F.dim i)
      (columnStart (Stored F.permuted) F.dim (i + 1)) =
        some (rowsBelow (Stored F.permuted) F.dim i).toArray := by
  have hlength : (c i).length = (rowsBelow (Stored F.permuted) F.dim i).length := by
    rw [← h.rows i, List.length_map]
  have hsize : columnStart (Stored F.permuted) F.dim i + (c i).length ≤ w.rowIdx.size := by
    rw [hlength, ← columnStart_succ, h.stores.size_rowIdx]
    exact columnStart_mono F.dim hi
  rw [columnStart_succ, ← hlength, ← h.rows i]
  exact (h.stores.entries i hi).slice?_eq hsize

/-- After the last row the columns are full. -/
theorem Rows.fullColumns {c : ℕ → List (ℕ × α)} (h : Rows F F.dim w c) (hF : F.Symbolic) :
    (F.store w).FullColumns := by
  intro i hi
  have hdim : (F.store w).dim = F.dim := h.size_diag
  rw [hdim] at hi ⊢
  refine ⟨_, _, _, hF.colPtr.get i (by omega), hF.colPtr.get (i + 1) (by omega), ?_,
    h.slice?_eq hi, List.pairwise_lt_range.filter _, ?_⟩
  · rw [columnStart_succ, Nat.add_sub_cancel_left, ← h.rows i, List.length_map]
    exact h.stores.filled.get i hi
  · intro r hr
    rw [List.mem_toArray, mem_rowsBelow] at hr
    exact ⟨hr.2.lt, hr.1⟩

/-- The analysis of an object that belongs to a triangle. -/
theorem Belongs.agrees {M : Csc α} {π ι dest : ℕ → ℕ} (h : Belongs F M π ι dest) : Agrees F where
  refactor := by
    obtain ⟨w, e, hrefactor, -, hnone, -⟩ :=
      h.symbolic.exists_refactor? (fun _ _ _ => True) trivial (by simp)
    refine ⟨_, e, hrefactor, fun he => ?_⟩
    obtain ⟨c, hw, -⟩ := hnone he
    exact hw.fullColumns h.symbolic
  walk _ _ _ _ := h.symbolic.walksApart
  write _ _ _ _ := h.symbolic.writesInside
  solve b hb := by
    obtain ⟨x, hx⟩ := h.exists_solve? (hb.trans h.dim_eq)
    exact ⟨x, F, hx⟩

/-! ## Any object -/

/-- For every pattern of a square triangle and every order, making the object and
any calls on it succeed, and its analysis agrees with the factorisations after
them. -/
theorem agrees_of_run {M : Csc α} (hM : M.Valid) (hsq : M.nrows = M.ncols) (htri : M.IsTriu)
    {perm : Array ℕ} (hperm : Ordering.isOrder M.ncols perm.toList = true)
    (reg : Option (Regularization α)) : ∃ F₀, start? M perm reg = some F₀ ∧
      ∀ calls, (∀ b, .solve b ∈ calls → b.size = M.ncols) →
        ∃ F, run? F₀ calls = some F ∧ Agrees F := by
  obtain ⟨F₀, hstart, hF₀⟩ := exists_carries hM hsq htri hperm reg
  refine ⟨F₀, hstart, fun calls hb => ?_⟩
  obtain ⟨F, hrun, -, hF⟩ := hF₀.exists_run? hb
  obtain ⟨_, _, _, hbelongs'⟩ := hF.belongs
  exact ⟨F, hrun, hbelongs'.agrees⟩

/-- A triangle of three rows.  Its last column is not sorted and repeats a row. -/
def scrambled : Csc Float where
  nrows := 3
  ncols := 3
  colPtr := #[0, 1, 3, 6]
  rowIdx := #[0, 1, 0, 2, 0, 2]
  values := #[4, 4, 1, 4, 1, 1]

/-- In the order of the rows 0, 2 and 1 its factor has an entry that the triangle does not
have, that of the last two rows. -/
theorem exists_refactor?_scrambled : ∃ F₀ F, start? scrambled #[0, 2, 1] none = some F₀ ∧
    F₀.refactor? = some (F, none) ∧ F.colPtr = #[0, 2, 3, 3] ∧ F.filled = #[2, 1, 0] ∧
    F.rowIdx = #[1, 2, 2] := by
  have hrun : ((start? scrambled #[0, 2, 1] none).any fun F₀ =>
      F₀.refactor?.any fun r => r.2.isNone && decide (r.1.colPtr = #[0, 2, 3, 3]) &&
        decide (r.1.filled = #[2, 1, 0]) && decide (r.1.rowIdx = #[1, 2, 2])) = true := by
    decide +kernel
  simp only [Option.any_eq_true, Bool.and_eq_true, decide_eq_true_eq,
    Option.isNone_iff_eq_none] at hrun
  obtain ⟨F₀, hstart, ⟨F, e⟩, hrefactor, ⟨⟨rfl, hcolPtr⟩, hfilled⟩, hrowIdx⟩ := hrun
  exact ⟨F₀, F, hstart, hrefactor, hcolPtr, hfilled, hrowIdx⟩

/-- Columns may be unsorted, and the last row may come before others.  Each column is filled
with the rows that have been counted for it. -/
theorem agrees_scrambled : scrambled.Valid ∧ scrambled.nrows = scrambled.ncols ∧
    scrambled.IsTriu ∧ Ordering.isOrder scrambled.ncols [0, 2, 1] = true ∧
    ∃ F₀ F', start? scrambled #[0, 2, 1] none = some F₀ ∧
      (∀ calls, (∀ b, .solve b ∈ calls → b.size = scrambled.ncols) →
        ∃ F, run? F₀ calls = some F ∧ Agrees F) ∧
      F₀.refactor? = some (F', none) ∧ F'.FullColumns ∧
      F'.colPtr = #[0, 2, 3, 3] ∧ F'.filled = #[2, 1, 0] ∧ F'.rowIdx = #[1, 2, 2] := by
  have hM : scrambled.Valid :=
    ⟨⟨rfl, rfl, rfl, rfl, by decide⟩, by decide⟩
  have htri : scrambled.IsTriu := hM.isTriu?_eq_true_iff.mp (by cbv)
  have hperm : Ordering.isOrder scrambled.ncols #[0, 2, 1].toList = true := by decide
  obtain ⟨F₀, F', hstart, hrefactor, hcolPtr, hfilled, hrowIdx⟩ := exists_refactor?_scrambled
  obtain ⟨F, hF, hagrees⟩ := agrees_of_run hM rfl htri hperm none
  obtain rfl : F₀ = F := Option.some.inj (hstart.symm.trans hF)
  -- without any calls the object is the one that is factored
  obtain ⟨F, hrun, hnow⟩ := hagrees [] (by simp)
  obtain rfl : F₀ = F := Option.some.inj hrun
  obtain ⟨F, e, hrefactor', hfull⟩ := hnow.refactor
  rw [hrefactor, Option.some.injEq, Prod.mk.injEq] at hrefactor'
  obtain ⟨rfl, rfl⟩ := hrefactor'
  exact ⟨hM, rfl, htri, hperm, F₀, F', hstart, hagrees, hrefactor, hfull rfl, hcolPtr, hfilled,
    hrowIdx⟩

end Conic.Ldl
