import Conic.Proofs.Program.WorkingCopy

/-!
# Moving columns

`Program.move` moves the columns of a program by a permutation and renames them in
the cones.  The list of the cones stays, and so does the order inside each cone.

A working copy takes the columns in the order in which the cones name them, so it
does not notice the move.  Only the columns of the program have other names
(`WorkingCopy.copy_of_moved`).
-/

namespace Conic

variable {α : Type}

/-! ## Names of columns -/

namespace Program

/-- The name of a column after a permutation.  Other indices stay. -/
def renamed {n : ℕ} (π : Equiv.Perm (Fin n)) (j : ℕ) : ℕ := if h : j < n then π ⟨j, h⟩ else j

section

variable {n : ℕ} (π : Equiv.Perm (Fin n)) {j : ℕ}

theorem renamed_of_lt (h : j < n) : renamed π j = π ⟨j, h⟩ := dif_pos h

theorem renamed_lt (h : j < n) : renamed π j < n := by
  rw [renamed_of_lt π h]
  exact (π ⟨j, h⟩).isLt

/-- Every column has one new name. -/
theorem perm_map_renamed : ((List.range n).map (renamed π)).Perm (List.range n) := by
  have hmap : (List.range n).map (renamed π) = ((List.finRange n).map π).map Fin.val := by
    rw [← List.map_coe_finRange_eq_range, List.map_map, List.map_map]
    exact List.map_congr_left fun j _ => renamed_of_lt π j.isLt
  rw [hmap, ← List.map_coe_finRange_eq_range]
  exact π.map_finRange_perm.map Fin.val

end

/-! ## The program -/

variable [Scalar α]

/-- The program with its columns moved. -/
def move (p : Program α) (π : Equiv.Perm (Fin p.A.ncols)) : Program α :=
  { p with
    A := .ofColumns p.A.nrows (List.ofFn fun j => p.A.column (π.symm j))
    c := .ofFn fun j => p.c.getD (π.symm j) 0
    cones := p.cones.map (ConeSpec.map (renamed π)) }

/-- The program `q` is `p` with its columns moved.  Its variables and its point may be
others, as long as they fit. -/
structure Moved (p : Program α) (π : Equiv.Perm (Fin p.A.ncols)) (q : Program α) : Prop where
  /-- The data are those of `p`, moved. -/
  data : q = { p.move π with x := q.x, w := q.w, s := q.s, map := q.map }
  /-- The point has the lengths of the matrix. -/
  sizes : q.x.size = p.A.ncols ∧ q.w.size = p.A.nrows ∧ q.s.size = p.A.ncols
  /-- The variables correspond to the columns. -/
  map : q.map.check p.A.ncols = .ok ()

namespace Moved

variable {p q : Program α} {π : Equiv.Perm (Fin p.A.ncols)} (h : p.Moved π q)

include h

theorem A_eq : q.A = .ofColumns p.A.nrows (List.ofFn fun j => p.A.column (π.symm j)) := by
  rw [h.data]
  rfl

theorem c_eq : q.c = .ofFn fun j => p.c.getD (π.symm j) 0 := by
  rw [h.data]
  rfl

theorem b_eq : q.b = p.b := by
  rw [h.data]
  rfl

theorem cones_eq : q.cones = p.cones.map (ConeSpec.map (renamed π)) := by
  rw [h.data]
  rfl

theorem nrows_eq : q.A.nrows = p.A.nrows := by rw [h.A_eq, Csc.ofColumns]

theorem ncols_eq : q.A.ncols = p.A.ncols := by rw [h.A_eq, Csc.ofColumns, List.length_ofFn]

/-- A column is found under its new name. -/
theorem column_eq {j : ℕ} (hj : j < p.A.ncols) : q.A.column (renamed π j) = p.A.column j := by
  rw [h.A_eq, Csc.column_ofColumns (by simpa using renamed_lt π hj), List.getElem_ofFn]
  simp [renamed_of_lt π hj]

theorem getD_c {j : ℕ} (hj : j < p.A.ncols) : q.c.getD (renamed π j) 0 = p.c.getD j 0 := by
  have hlt : renamed π j < (Array.ofFn fun j : Fin p.A.ncols => p.c.getD (π.symm j) 0).size := by
    simpa using renamed_lt π hj
  rw [h.c_eq, Array.getD_eq_getD_getElem?, Array.getElem?_eq_getElem hlt, Option.getD_some,
    Array.getElem_ofFn]
  simp [renamed_of_lt π hj]

end Moved

end Program

/-! ## The working copy -/

namespace WorkingCopy

open Program

theorem orthantColumns_map (f : ℕ → ℕ) (cones : List (ConeSpec ℕ)) :
    orthantColumns (cones.map (ConeSpec.map f)) = (orthantColumns cones).map f := by
  rw [orthantColumns, orthantColumns, List.filterMap_map, List.map_filterMap]
  congr 1
  funext K
  cases K <;> rfl

theorem secondOrderColumns_map (f : ℕ → ℕ) (cones : List (ConeSpec ℕ)) :
    secondOrderColumns (cones.map (ConeSpec.map f)) =
      (secondOrderColumns cones).map (List.map f) := by
  rw [secondOrderColumns, secondOrderColumns, List.filterMap_map, List.map_filterMap]
  congr 1
  funext K
  cases K <;> rfl

theorem order_map (f : ℕ → ℕ) (cones : List (ConeSpec ℕ)) :
    order (cones.map (ConeSpec.map f)) = (order cones).map f := by
  rw [order, order, orthantColumns_map, secondOrderColumns_map, List.map_append, List.map_flatten]

variable [Scalar α]

/-- The blocks depend on the lengths of the cones only. -/
theorem blocks_map (f : ℕ → ℕ) (cones : List (ConeSpec ℕ)) :
    (blocks (cones.map (ConeSpec.map f)) : List (Block α)) = blocks cones := by
  simp only [blocks, orthantColumns_map, secondOrderColumns_map, List.map_map, List.length_map]
  congr 1
  exact List.map_congr_left fun cols _ => by simp

variable {p q : Program α} {π : Equiv.Perm (Fin p.A.ncols)}

theorem moved_move (hp : p.validate = .ok ()) : p.Moved π (p.move π) := by
  obtain ⟨hvalidated, hmap⟩ := validate_eq_ok_iff.mp hp
  exact ⟨rfl, ⟨hvalidated.sizes.2.2.1, hvalidated.sizes.2.2.2.1, hvalidated.sizes.2.2.2.2⟩, hmap⟩

/-- A program stays valid if its columns move. -/
theorem Validated.of_moved (hp : Validated p) (h : p.Moved π q) : Validated q where
  matrix := by
    rw [h.A_eq]
    refine Csc.wellFormed_ofColumns fun col hcol => ?_
    obtain ⟨j, rfl⟩ := List.mem_ofFn.mp hcol
    exact ⟨hp.matrix.sorted _ (π.symm j).isLt,
      fun e he => hp.matrix.toValid.row_lt_of_mem_column (π.symm j).isLt he⟩
  sizes := by
    refine ⟨?_, ?_, h.sizes.1.trans h.ncols_eq.symm, h.sizes.2.1.trans h.nrows_eq.symm,
      h.sizes.2.2.trans h.ncols_eq.symm⟩
    · rw [h.b_eq, h.nrows_eq, hp.sizes.1]
    · rw [h.c_eq, h.ncols_eq, Array.size_ofFn]
  covered := by
    have hindices : (p.cones.map (ConeSpec.map (renamed π))).flatMap ConeSpec.indices =
        (p.cones.flatMap ConeSpec.indices).map (renamed π) := by
      rw [List.flatMap_map, List.map_flatMap]
      exact List.flatMap_congr fun K _ => ConeSpec.indices_map _ K
    rw [h.cones_eq, hindices, h.ncols_eq]
    exact (hp.covered.map _).trans (perm_map_renamed π)
  bounded bound hbound := by
    rw [h.cones_eq] at hbound
    obtain ⟨K, hK, heq⟩ := List.mem_map.mp hbound
    cases K with
    | nonnegative i => cases heq
    | secondOrder bound' vector =>
      obtain ⟨-, hvector⟩ := ConeSpec.secondOrder.inj heq
      exact hp.bounded bound' (List.map_eq_nil_iff.mp hvector ▸ hK)

/-- If the columns of a program move, its working copy has them under their new names. -/
theorem copy_of_moved (hp : Validated p) (h : p.Moved π q) :
    copy q = { copy p with perm := (copy p).perm.map (renamed π) } := by
  have hperm : order q.cones = (order p.cones).map (renamed π) := by rw [h.cones_eq, order_map]
  have hcolumns : (order q.cones).map q.A.column = (order p.cones).map p.A.column := by
    rw [hperm, List.map_map]
    exact List.map_congr_left fun j hj => h.column_eq (hp.lt_of_mem_order hj)
  have hcosts : (order q.cones).map (fun j => q.c.getD j 0) =
      (order p.cones).map fun j => p.c.getD j 0 := by
    rw [hperm, List.map_map]
    exact List.map_congr_left fun j hj => h.getD_c (hp.lt_of_mem_order hj)
  have hblocks : (blocks q.cones : List (Block α)) = blocks p.cones := by
    rw [h.cones_eq, blocks_map]
  rw [copy, hcolumns, hcosts, hblocks, hperm, h.nrows_eq, h.b_eq]
  rfl

/-- A valid program whose columns have moved is valid, and both programs have the same copy
but for the names of the columns. -/
theorem checkOut_of_moved (hp : p.validate = .ok ()) (h : p.Moved π q) :
    q.validate = .ok () ∧ checkOut p = .ok (copy p) ∧
      checkOut q = .ok { copy p with perm := (copy p).perm.map (renamed π) } := by
  have hvalidated := validated_of_validate hp
  have hq : q.validate = .ok () :=
    validate_eq_ok_iff.mpr ⟨hvalidated.of_moved h, h.ncols_eq.symm ▸ h.map⟩
  refine ⟨hq, checkOut_eq_ok_iff.mpr ⟨hp, rfl⟩, checkOut_eq_ok_iff.mpr ⟨hq, ?_⟩⟩
  exact (copy_of_moved hvalidated h).symm

end WorkingCopy

end Conic
