import Conic.Ldl.Numeric
import Conic.Proofs.Loops

/-!
# What a factorisation leaves alone

Computing a row appends entries to columns of the factor and stores a pivot.
`Ldl.Extends` is what every part of a row keeps: no column gets shorter, and
nothing is written behind the columns.  These are statements about whatever a row
does if it succeeds.  They need nothing of the object, so they hold for rows that
end at a refused pivot as well.
-/

namespace Conic.Ldl

variable {α : Type} [Scalar α] {F : Ldl α} {k : ℕ} {w v u : Work α} {e : Option LdlError}

/-! ## Growing columns -/

/-- A position of the storage that no column has reached. -/
def Unreached (F : Ldl α) (w : Work α) (p : ℕ) : Prop :=
  ∀ i a count : ℕ, F.colPtr[i]? = some a → w.filled[i]? = some count → p < a ∨ a + count ≤ p

/-- The columns of `u` go on where those of `w` end. -/
structure Extends (F : Ldl α) (w u : Work α) : Prop where
  /-- No column gets shorter. -/
  filled : ∀ i count : ℕ, w.filled[i]? = some count → ∃ count', u.filled[i]? = some count' ∧
    count ≤ count'
  /-- Nothing is written behind the columns. -/
  storage : ∀ p : ℕ, Unreached F u p → u.rowIdx[p]? = w.rowIdx[p]? ∧ u.values[p]? = w.values[p]?

namespace Extends

omit [Scalar α]

theorem of_eq (hfilled : u.filled = w.filled) (hrows : u.rowIdx = w.rowIdx)
    (hvalues : u.values = w.values) : Extends F w u where
  filled i count h := ⟨count, hfilled ▸ h, le_rfl⟩
  storage p _ := by rw [hrows, hvalues]; exact ⟨rfl, rfl⟩

theorem refl (F : Ldl α) (w : Work α) : Extends F w w := of_eq rfl rfl rfl

theorem trans (h : Extends F w v) (h' : Extends F v u) : Extends F w u where
  filled i count hw := by
    obtain ⟨count', hv, hle⟩ := h.filled i count hw
    obtain ⟨count'', hu, hle'⟩ := h'.filled i count' hv
    exact ⟨count'', hu, hle.trans hle'⟩
  storage p hp := by
    -- what the later columns do not reach, the earlier ones do not reach either
    have hp' : Unreached F v p := by
      intro i a count ha hv
      obtain ⟨count', hu, hle⟩ := h'.filled i count hv
      exact (hp i a count' ha hu).imp_right (Nat.add_le_add_left hle a).trans
    obtain ⟨hrows, hvalues⟩ := h.storage p hp'
    obtain ⟨hrows', hvalues'⟩ := h'.storage p hp
    exact ⟨hrows'.trans hrows, hvalues'.trans hvalues⟩

end Extends

/-! ## The parts of a row -/

/-- An elimination appends one entry to its column. -/
theorem exists_update?_of_eliminate? {i : ℕ} {dk dk' : α}
    (h : eliminate? F k (w, dk) i = some (u, dk')) :
    ∃ a count entry, F.colPtr[i]? = some a ∧ w.filled[i]? = some count ∧
      update? w.rowIdx (a + count) (fun _ => k) = some u.rowIdx ∧
      update? w.values (a + count) (fun _ => entry) = some u.values ∧
      update? w.filled i (· + 1) = some u.filled ∧ u.diag = w.diag := by
  simp only [eliminate?, Option.bind_eq_bind, Option.bind_eq_some_iff, Option.pure_def,
    Option.some.injEq, Prod.mk.injEq] at h
  obtain ⟨yi, -, y, -, a, ha, count, hcount, _, -, d, -, rows, hrows, values, hvalues, filled,
    hfilled, rfl, -⟩ := h
  exact ⟨a, count, yi / d, ha, hcount, hrows, hvalues, hfilled, rfl⟩

theorem Extends.of_eliminate? {i : ℕ} {dk dk' : α}
    (h : eliminate? F k (w, dk) i = some (u, dk')) : Extends F w u := by
  obtain ⟨a, count, entry, ha, hcount, hrows, hvalues, hfilled, -⟩ :=
    exists_update?_of_eliminate? h
  have hnew (j : ℕ) := getElem?_of_update?_eq_some hfilled j
  refine ⟨fun j count' hj => ?_, fun p hp => ?_⟩
  · rw [hnew, hj]
    split
    · exact ⟨count' + 1, rfl, Nat.le_succ count'⟩
    · exact ⟨count', rfl, le_rfl⟩
  · have hi : u.filled[i]? = some (count + 1) := by rw [hnew, if_pos rfl, hcount, Option.map_some]
    have hne : a + count ≠ p := by
      rcases hp i a (count + 1) ha hi with hlt | hle <;> omega
    rw [getElem?_of_update?_eq_some hrows, getElem?_of_update?_eq_some hvalues, if_neg hne,
      if_neg hne]
    exact ⟨rfl, rfl⟩

/-- Collecting a pattern works on the scratch only. -/
theorem eq_of_collect? {pattern : List ℕ} (h : collect? F k w = some (u, pattern)) :
    u = { w with y := u.y, mark := u.mark, stack := u.stack } := by
  simp only [collect?, Option.bind_eq_bind, Option.bind_eq_some_iff, Option.pure_def,
    Option.some.injEq, Prod.mk.injEq] at h
  obtain ⟨mark, -, idxs, -, ⟨v, top⟩, hloop, _, -, rfl, -⟩ := h
  refine Loop.of_foldlM_eq_some (f := scatter? F k)
    (fun s => s.1 = { w with y := s.1.y, mark := s.1.mark, stack := s.1.stack }) rfl ?_ hloop
  rintro ⟨s, top⟩ idx ⟨s', top'⟩ hs hscatter
  simp only [scatter?, Option.bind_eq_bind, Option.bind_eq_some_iff, Option.pure_def,
    Option.some.injEq, Prod.mk.injEq] at hscatter
  obtain ⟨_, -, _, -, y, -, _, -, _, -, rfl, -⟩ := hscatter
  simp only at hs ⊢
  rw [hs]

/-! ## Rows -/

/-- A row extends the columns.  It stores its pivot unless the pivot is refused. -/
theorem Extends.of_row? (h : row? F k w = some (u, e)) : Extends F w u ∧
    if e = none then ∃ dk, update? w.diag k (fun _ => dk) = some u.diag else u.diag = w.diag := by
  simp only [row?, Option.bind_eq_bind, Option.bind_eq_some_iff] at h
  obtain ⟨⟨v, pattern⟩, hcollect, _, -, y, -, ⟨v', dk⟩, hloop, hfinish⟩ := h
  obtain ⟨hextends, hdiag⟩ : Extends F w v' ∧ v'.diag = w.diag := by
    refine Loop.of_foldlM_eq_some (fun s => Extends F w s.1 ∧ s.1.diag = w.diag) ?_ ?_ hloop
    · rw [eq_of_collect? hcollect]
      exact ⟨.of_eq rfl rfl rfl, rfl⟩
    · rintro ⟨s, dk⟩ i ⟨s', dk'⟩ ⟨hs, hsdiag⟩ hstep
      obtain ⟨_, _, _, -, -, -, -, -, hdiag⟩ := exists_update?_of_eliminate? hstep
      exact ⟨hs.trans (.of_eliminate? hstep), hdiag.trans hsdiag⟩
  split at hfinish
  · simp only [Option.pure_def, Option.some.injEq, Prod.mk.injEq] at hfinish
    obtain ⟨rfl, rfl⟩ := hfinish
    exact ⟨hextends.trans (.of_eq rfl rfl rfl), hdiag⟩
  · simp only [Option.pure_def, Option.bind_eq_some_iff, Option.some.injEq,
      Prod.mk.injEq] at hfinish
    obtain ⟨diag, hupdate, rfl, rfl⟩ := hfinish
    exact ⟨hextends.trans (.of_eq rfl rfl rfl), _, hdiag ▸ hupdate⟩

/-- Rows extend the columns and leave the pivots of the other rows. -/
theorem Extends.of_rows? {ks : List ℕ} (h : F.rows? ks w = some (u, e)) : Extends F w u ∧
    ∀ j ∉ ks, u.diag[j]? = w.diag[j]? := by
  induction ks generalizing w with
  | nil =>
    cases h
    exact ⟨.refl F _, fun _ _ => rfl⟩
  | cons k ks ih =>
    rw [rows?] at h
    split at h
    next => cases h
    next v e hrow =>
      cases h
      obtain ⟨hextends, hdiag⟩ := Extends.of_row? hrow
      exact ⟨hextends, fun j _ => congrArg (fun diag : Array α => diag[j]?) hdiag⟩
    next v hrow =>
      obtain ⟨hextends, dk, hdiag⟩ := Extends.of_row? hrow
      obtain ⟨hextends', hdiag'⟩ := ih h
      refine ⟨hextends.trans hextends', fun j hj => ?_⟩
      obtain ⟨hjk, hj⟩ := not_or.mp (List.mem_cons.not.mp hj)
      rw [hdiag' j hj, getElem?_of_update?_eq_some hdiag, if_neg (Ne.symm hjk)]

end Conic.Ldl
