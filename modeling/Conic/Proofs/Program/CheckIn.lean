import Conic.Proofs.Program.WorkingCopy

/-!
# Bringing a point back

A point of a working copy is brought into the program one column after the
other.  Each column changes the program, and a column that fails would leave the
columns before it changed.  `WorkingCopy.Copies.checkIn_cases` says that no
column fails: the lengths are compared before anything is changed, and after
that the columns of the copy are exactly those of the program.
-/

namespace Conic

namespace WorkingCopy

variable {α : Type} [Scalar α]

/-! ## Changes of a program -/

namespace Change

variable {β γ : Type} {p q : Program α}

omit [Scalar α]

theorem run_bind_of_ok {m : Change α β} {f : β → Change α γ} {b : β}
    (h : m.run p = (.ok b, q)) : (m >>= f).run p = (f b).run q := by
  rw [ExceptT.run_bind]
  show StateT.bind m.run _ p = _
  rw [StateT.bind, h]
  rfl

theorem run_bind_of_error {m : Change α β} {f : β → Change α γ} {e : Fault ProgramError}
    (h : m.run p = (.error e, q)) : (m >>= f).run p = (.error e, q) := by
  rw [ExceptT.run_bind]
  show StateT.bind m.run _ p = _
  rw [StateT.bind, h]
  rfl

theorem run_store {read : Program α → Array α} {write : Array α → Program α → Program α} {i : ℕ}
    {v : α} {xs : Array α} (h : update? (read p) i (fun _ => v) = some xs) :
    (store read write i (some v)).run p = (.ok (), write xs p) := by
  have hupdate : (require (Fault.ofOption (update? (read p) i fun _ => v))).run p =
      (.ok xs, p) := by
    rw [h]
    rfl
  refine (run_bind_of_ok (b := v) (q := p) rfl).trans ?_
  refine (run_bind_of_ok (b := p) (q := p) rfl).trans ?_
  exact (run_bind_of_ok hupdate).trans rfl

/-- An invariant of a loop whose steps all succeed. -/
theorem exists_forM {f : β → Change α Unit} {l : List β} (I : List β → Program α → Prop)
    (hstart : I [] p) (hstep : ∀ done b rest q, l = done ++ b :: rest → I done q →
      ∃ q', (f b).run q = (.ok (), q') ∧ I (done ++ [b]) q') :
    ∃ q, (l.forM f).run p = (.ok (), q) ∧ I l q := by
  suffices h : ∀ todo done q, l = done ++ todo → I done q →
      ∃ q', (todo.forM f).run q = (.ok (), q') ∧ I l q' from h l [] p rfl hstart
  intro todo
  induction todo with
  | nil =>
    intro done q hl hq
    rw [List.append_nil] at hl
    exact ⟨q, rfl, hl ▸ hq⟩
  | cons b rest ih =>
    intro done q hl hq
    obtain ⟨q', hrun, hq'⟩ := hstep done b rest q hl hq
    obtain ⟨q'', hrest, hq''⟩ := ih (done ++ [b]) q' (by rw [hl, List.append_cons]) hq'
    exact ⟨q'', (run_bind_of_ok hrun).trans hrest, hq''⟩

end Change

/-! ## The columns -/

/-- What has happened to a program after some columns, given with their places
in the copy. -/
structure Brought (x s : Array α) (p : Program α) (done : List (ℕ × ℕ)) (q : Program α) :
    Prop where
  /-- Only the point has changed. -/
  data : q = { p with x := q.x, s := q.s }
  /-- The lengths have not changed. -/
  sizes : q.x.size = p.x.size ∧ q.s.size = p.s.size
  /-- The columns have their entries. -/
  entries : ∀ e ∈ done, q.x[e.1]? = x[e.2]? ∧ q.s[e.1]? = s[e.2]?

omit [Scalar α] in
theorem brought_nil (x s : Array α) (p : Program α) : Brought x s p [] p :=
  ⟨rfl, ⟨rfl, rfl⟩, by simp⟩

omit [Scalar α] in
/-- A column that has not been brought back before can be brought back. -/
theorem Brought.checkInColumn {x s : Array α} {p q : Program α} {done : List (ℕ × ℕ)}
    (h : Brought x s p done q) {column place : ℕ} {u v : α} (hu : x[place]? = some u)
    (hv : s[place]? = some v) (hcolumn : column < p.x.size ∧ column < p.s.size)
    (hnew : ∀ e ∈ done, e.1 ≠ column) :
    ∃ q', (checkInColumn x s column place).run q = (.ok (), q') ∧
      Brought x s p (done ++ [(column, place)]) q' := by
  have hx : column < q.x.size := h.sizes.1.symm ▸ hcolumn.1
  have hs : column < q.s.size := h.sizes.2.symm ▸ hcolumn.2
  obtain ⟨qx, hqx⟩ := exists_update? (fun _ => u) hx
  obtain ⟨qs, hqs⟩ := exists_update? (fun _ => v) hs
  refine ⟨{ q with x := qx, s := qs }, ?_, ?_⟩
  · rw [WorkingCopy.checkInColumn, hu, hv]
    refine (Change.run_bind_of_ok (Change.run_store hqx)).trans ?_
    exact Change.run_store hqs
  · refine {
      data := ?_
      sizes := ⟨(size_of_update?_eq_some hqx).trans h.sizes.1,
        (size_of_update?_eq_some hqs).trans h.sizes.2⟩
      entries := fun e he => ?_ }
    · rw [h.data]
    · rw [getElem?_of_update?_eq_some hqx, getElem?_of_update?_eq_some hqs]
      rcases List.mem_append.mp he with he | he
      · simp only [if_neg (hnew e he).symm]
        exact h.entries e he
      · rw [List.mem_singleton.mp he]
        simp [hx, hs, hu, hv]

/-- The program after a point in the order of the copy has been brought back.
Every entry of the point has been replaced. -/
structure Receives (W : WorkingCopy α) (p : Program α) (x w s : Array α) (p' : Program α) :
    Prop where
  /-- Only the point has changed, and the dual point is the given one. -/
  data : p' = { p with x := p'.x, w := w, s := p'.s }
  /-- The given point has the lengths of the program. -/
  given : x.size = p.A.ncols ∧ w.size = p.A.nrows ∧ s.size = p.A.ncols
  /-- The new point has the lengths of the program. -/
  sizes : p'.x.size = p.A.ncols ∧ p'.w.size = p.A.nrows ∧ p'.s.size = p.A.ncols
  /-- Every column of the program is a column of the copy, once. -/
  perm : W.perm.Perm (List.range p.A.ncols)
  /-- The columns have their entries. -/
  entries : ∀ place column : ℕ, W.perm[place]? = some column →
    p'.x[column]? = x[place]? ∧ p'.s[column]? = s[place]?

namespace Copies

variable {W : WorkingCopy α} {p : Program α} {x w s : Array α}

/-- All columns can be brought back. -/
theorem exists_brought (h : W.Copies p) (hx : x.size = p.A.ncols) (hs : s.size = p.A.ncols) :
    ∃ q, (W.perm.zipIdx.forM fun e => checkInColumn x s e.1 e.2).run p = (.ok (), q) ∧
      Brought x s p W.perm.zipIdx q := by
  refine Change.exists_forM (Brought x s p) (brought_nil x s p) ?_
  rintro done ⟨column, place⟩ rest q hl hq
  have hmem : (column, place) ∈ W.perm.zipIdx := by simp [hl]
  have hget : W.perm[place]? = some column := List.mem_zipIdx_iff_getElem?.mp hmem
  obtain ⟨hlt, -⟩ := List.getElem?_eq_some_iff.mp hget
  have hplace : place < p.A.ncols := h.length_perm ▸ hlt
  have hcolumn : column < p.A.ncols := h.lt_of_mem_perm (List.mem_of_getElem? hget)
  -- the columns of the copy are all different, so none of them is brought back twice
  have hnodup : ((done ++ (column, place) :: rest).map Prod.fst).Nodup := by
    rw [← hl, List.zipIdx_map_fst]
    exact h.perm_range.nodup_iff.mpr List.nodup_range
  refine hq.checkInColumn (Array.getElem?_eq_getElem (hx ▸ hplace))
    (Array.getElem?_eq_getElem (hs ▸ hplace)) ?_ fun e he heq => ?_
  · rw [h.sizes.2.2.1, h.sizes.2.2.2.2]
    exact ⟨hcolumn, hcolumn⟩
  · rw [List.map_append, List.map_cons, List.nodup_append] at hnodup
    exact hnodup.2.2 e.1 (List.mem_map_of_mem he) column (by simp) heq

omit [Scalar α] in
theorem require_checkLength (what : Operand) (expected found : ℕ) (p : Program α) :
    expected = found ∧
        (Change.require (Fault.lift (Program.checkLength what expected found))).run p =
          (.ok (), p) ∨
      expected ≠ found ∧ ∃ e,
        (Change.require (Fault.lift (Program.checkLength what expected found))).run p =
          (.error (.cause e), p) := by
  rw [Program.checkLength]
  split
  next heq => exact .inl ⟨heq, rfl⟩
  next hne => exact .inr ⟨hne, _, rfl⟩

/-- A point of other lengths is refused before anything is changed, and all of a
point of the right lengths is brought back. -/
theorem checkIn_cases (h : W.Copies p) (x w s : Array α) :
    (¬ (x.size = p.A.ncols ∧ w.size = p.A.nrows ∧ s.size = p.A.ncols) ∧
      ∃ e, (W.checkIn x w s).run p = (.error (.cause e), p)) ∨
    ∃ p', (W.checkIn x w s).run p = (.ok (), p') ∧ W.Receives p x w s p' := by
  have hncols : W.A.ncols = p.A.ncols := h.ncols_eq.trans h.length_perm
  rw [checkIn]
  rcases require_checkLength .x W.A.ncols x.size p with ⟨hx, hrun⟩ | ⟨hne, e, he⟩
  case inr =>
    exact .inl ⟨fun hsizes => hne (hncols.trans hsizes.1.symm), e, Change.run_bind_of_error he⟩
  rw [Change.run_bind_of_ok hrun]
  rcases require_checkLength .w W.A.nrows w.size p with ⟨hw, hrun⟩ | ⟨hne, e, he⟩
  case inr =>
    exact .inl ⟨fun hsizes => hne (h.nrows_eq.trans hsizes.2.1.symm), e,
      Change.run_bind_of_error he⟩
  rw [Change.run_bind_of_ok hrun]
  rcases require_checkLength .s W.A.ncols s.size p with ⟨hs, hrun⟩ | ⟨hne, e, he⟩
  case inr =>
    exact .inl ⟨fun hsizes => hne (hncols.trans hsizes.2.2.symm), e, Change.run_bind_of_error he⟩
  rw [Change.run_bind_of_ok hrun]
  have hx : x.size = p.A.ncols := hx.symm.trans hncols
  have hw : w.size = p.A.nrows := hw.symm.trans h.nrows_eq
  have hs : s.size = p.A.ncols := hs.symm.trans hncols
  obtain ⟨q, hq, hbrought⟩ := h.exists_brought hx hs
  have hsize : q.w.size = w.size := by rw [hbrought.data, hw, h.sizes.2.2.2.1]
  right
  refine ⟨{ q with w := w }, ?_, ?_⟩
  · refine (Change.run_bind_of_ok hq).trans ?_
    refine (Change.run_bind_of_ok (b := q) (q := q) rfl).trans ?_
    rw [if_pos hsize]
    rfl
  · refine {
      data := ?_
      given := ⟨hx, hw, hs⟩
      sizes := ⟨hbrought.sizes.1.trans h.sizes.2.2.1, hw, hbrought.sizes.2.trans h.sizes.2.2.2.2⟩
      perm := h.perm_range
      entries := fun place column hcolumn => ?_ }
    · rw [hbrought.data]
    · exact hbrought.entries (column, place) (List.mem_zipIdx_iff_getElem?.mpr hcolumn)

end Copies

end WorkingCopy

end Conic
