import Conic.Proofs.Program.Reading
import Conic.Proofs.Program.VariableMap

/-!
# Valid programs

`Program.FitsTogether` says when the parts of a program fit together.  It speaks
of the arrays and lists of the program alone: of the lengths, the pointers and
the rows, of the two tables of the variable map, and of the places where a
column is named by a cone.  `Program.validate` decides it for arbitrary parts,
and reads none of them out of bounds (`Program.validate_iff_fitsTogether`).

Each check has a lemma that says what it accepts: `Csc.wellFormed_iff_regular`
for the matrix, `VariableMap.check_iff_inverse` for the variables and
`Program.perm_iff_named_once` for the cones.
-/

namespace Conic

/-! ## Places in a list -/

theorem nodup_iff_unique_place {l : List ℕ} :
    l.Nodup ↔ ∀ i i' j : ℕ, l[i]? = some j → l[i']? = some j → i = i' := by
  constructor
  · intro hnodup i i' j hi hi'
    obtain ⟨hlt, -⟩ := List.getElem?_eq_some_iff.mp hi
    exact (List.getElem?_inj hlt hnodup).mp (hi.trans hi'.symm)
  · intro honce
    rw [List.nodup_iff_injective_getElem]
    intro i i' heq
    have hi := List.getElem?_eq_getElem i.isLt
    have hi' := List.getElem?_eq_getElem i'.isLt
    exact Fin.ext (honce i i' l[i] hi (hi'.trans (congrArg some heq.symm)))

/-- A table that has an inverse of length `n` is a permutation of the first `n` numbers. -/
theorem perm_range_of_inverse {l l' : List ℕ} {n : ℕ} (hl' : l'.length = n)
    (h : ∀ i j : ℕ, l[i]? = some j ↔ l'[j]? = some i) : l.Perm (List.range n) := by
  have hnodup : l.Nodup := nodup_iff_unique_place.mpr fun i i' j hi hi' =>
    Option.some.inj (((h i j).mp hi).symm.trans ((h i' j).mp hi'))
  refine (List.perm_ext_iff_of_nodup hnodup List.nodup_range).mpr fun j => ?_
  calc j ∈ l
    _ ↔ ∃ i : ℕ, l[i]? = some j := List.mem_iff_getElem?
    _ ↔ ∃ i, l'[j]? = some i := exists_congr fun i => h i j
    _ ↔ j < l'.length := by rw [← Option.isSome_iff_exists, isSome_getElem?]
    _ ↔ j ∈ List.range n := by rw [hl', List.mem_range]

variable {α : Type}

/-! ## The matrix -/

namespace Csc

/-- The three arrays are a matrix. -/
structure Regular (A : Csc α) : Prop where
  /-- There is a pointer for the start of each column, and one for the end. -/
  size_colPtr : A.colPtr.size = A.ncols + 1
  /-- Every value has a row. -/
  size_rowIdx : A.rowIdx.size = A.values.size
  /-- The first pointer is zero. -/
  first : A.colPtr[0]? = some 0
  /-- The last pointer is the number of values. -/
  last : A.colPtr[A.ncols]? = some A.values.size
  /-- The pointers do not decrease. -/
  mono : A.colPtr.toList.Pairwise (· ≤ ·)
  /-- Between two pointers the rows increase strictly. -/
  increasing : ∀ j start stop, A.colPtr[j]? = some start → A.colPtr[j + 1]? = some stop →
    ∀ k l r s, start ≤ k → k < l → l < stop → A.rowIdx[k]? = some r → A.rowIdx[l]? = some s → r < s
  /-- Every row is a row of the matrix. -/
  row_lt : ∀ r ∈ A.rowIdx, r < A.nrows

variable {A : Csc α}

/-- The rows of a column increase if those between its pointers do. -/
theorem Divided.sorted_iff (hA : A.Divided) {j : ℕ} (hj : j < A.ncols) :
    ((A.column j).map Prod.fst).Pairwise (· < ·) ↔ ∀ k l r s, A.first j ≤ k → k < l →
      l < A.first (j + 1) → A.rowIdx[k]? = some r → A.rowIdx[l]? = some s → r < s := by
  have hend := hA.first_succ_le_size hj
  rw [hA.map_fst_column hj, List.pairwise_iff_getElem]
  simp only [Array.length_toList, Array.size_extract, Array.getElem_toList, Array.getElem_extract]
  constructor
  · intro h k l r s hk hkl hl hr hs
    obtain ⟨hk', rfl⟩ := Array.getElem?_eq_some_iff.mp hr
    obtain ⟨hl', rfl⟩ := Array.getElem?_eq_some_iff.mp hs
    have := h (k - A.first j) (l - A.first j) (by omega) (by omega) (by omega)
    simpa only [Nat.add_sub_cancel' hk, Nat.add_sub_cancel' (hk.trans hkl.le)] using this
  · intro h k l hk hl hkl
    exact h (A.first j + k) (A.first j + l) _ _ (by omega) (by omega) (by omega)
      (Array.getElem?_eq_getElem _) (Array.getElem?_eq_getElem _)

theorem wellFormed_iff_regular : A.WellFormed ↔ A.Regular := by
  constructor
  · intro hA
    refine {
      size_colPtr := hA.size_colPtr
      size_rowIdx := hA.size_rowIdx
      first := by rw [hA.colPtr_eq (Nat.zero_le _), hA.first_zero]
      last := by rw [hA.colPtr_eq le_rfl, hA.first_ncols, nnz]
      mono := (pairwise_colPtr_iff hA.size_colPtr).mpr hA.mono
      increasing := fun j start stop hstart hstop => ?_
      row_lt := fun r hr => hA.row_lt r (Array.mem_toList_iff.mpr hr) }
    have hj : j < A.ncols := by
      obtain ⟨hj, -⟩ := Array.getElem?_eq_some_iff.mp hstop
      rw [hA.size_colPtr] at hj
      omega
    rw [hA.colPtr_eq hj.le, Option.some.injEq] at hstart
    rw [hA.colPtr_eq hj, Option.some.injEq] at hstop
    subst hstart hstop
    exact (hA.sorted_iff hj).mp (hA.sorted j hj)
  · intro hA
    have hdivided : A.Divided := {
      size_colPtr := hA.size_colPtr
      size_rowIdx := hA.size_rowIdx
      first_zero := by simp [Csc.first, Array.getD_eq_getD_getElem?, hA.first]
      first_ncols := by simp [Csc.first, Array.getD_eq_getD_getElem?, hA.last, nnz]
      mono := (pairwise_colPtr_iff hA.size_colPtr).mp hA.mono }
    exact ⟨⟨hdivided, fun r hr => hA.row_lt r (Array.mem_toList_iff.mp hr)⟩, fun j hj =>
      (hdivided.sorted_iff hj).mpr
        (hA.increasing j _ _ (hdivided.colPtr_eq hj.le) (hdivided.colPtr_eq hj))⟩

end Csc

/-! ## The variables -/

namespace VariableMap

/-- The two tables are permutations of the first `n` numbers, inverse to each other. -/
structure Inverse (m : VariableMap) (n : ℕ) : Prop where
  /-- Every column is the column of one variable. -/
  columns : List.Perm m.columns.toList (List.range n)
  /-- Every variable is the variable of one column. -/
  ids : List.Perm (m.ids.toList.map VariableId.index) (List.range n)
  /-- The tables are inverse to each other. -/
  inverse : ∀ i j : ℕ, m.columns[i]? = some j ↔ m.ids[j]? = some ⟨i⟩

theorem check_iff_inverse {m : VariableMap} {n : ℕ} : m.check n = .ok () ↔ m.Inverse n := by
  constructor
  · intro h
    obtain ⟨hcolumns, hids, -⟩ := check_eq_ok_iff.mp h
    have hinverse (i j : ℕ) : m.columns[i]? = some j ↔ m.ids[j]? = some ⟨i⟩ :=
      column_eq_ok.symm.trans (column_eq_ok_iff (v := ⟨i⟩) h)
    have hindex (i j : ℕ) : (m.ids.toList.map VariableId.index)[j]? = some i ↔
        m.columns.toList[i]? = some j := by
      rw [List.getElem?_map, Array.getElem?_toList, Array.getElem?_toList, hinverse,
        Option.map_eq_some_iff]
      exact ⟨fun ⟨v, hv, hi⟩ => hi ▸ hv, fun hv => ⟨_, hv, rfl⟩⟩
    refine ⟨perm_range_of_inverse ?_ fun i j => (hindex i j).symm,
      perm_range_of_inverse hcolumns fun j i => hindex i j, hinverse⟩
    rw [List.length_map]
    exact hids
  · intro h
    have hcolumns : m.columns.size = n := by simpa using h.columns.length_eq
    have hids : m.ids.size = n := by simpa using h.ids.length_eq
    exact check_eq_ok_iff.mpr ⟨hcolumns, hids, fun v j hj =>
      (h.inverse v.index j).mp (column_eq_ok.mp hj)⟩

end VariableMap

/-! ## The cones -/

namespace Program

/-- The cone with the index `place.1` names the column `j`, at the position `place.2` among the
columns that it names. -/
def NamedAt (cones : List (ConeSpec ℕ)) (place : ℕ × ℕ) (j : ℕ) : Prop :=
  ∃ K, cones[place.1]? = some K ∧ K.indices[place.2]? = some j

variable {cones : List (ConeSpec ℕ)} {n : ℕ}

theorem mem_flatMap_indices {j : ℕ} :
    j ∈ cones.flatMap ConeSpec.indices ↔ ∃ place, NamedAt cones place j := by
  rw [List.mem_flatMap]
  constructor
  · rintro ⟨K, hK, hj⟩
    obtain ⟨k, hk⟩ := List.mem_iff_getElem?.mp hK
    obtain ⟨i, hi⟩ := List.mem_iff_getElem?.mp hj
    exact ⟨(k, i), K, hk, hi⟩
  · rintro ⟨place, K, hK, hj⟩
    exact ⟨K, List.mem_of_getElem? hK, List.mem_of_getElem? hj⟩

/-- The cones name no column twice if no column has two places. -/
theorem nodup_flatMap_indices : (cones.flatMap ConeSpec.indices).Nodup ↔
    ∀ p q j, NamedAt cones p j → NamedAt cones q j → p = q := by
  rw [List.nodup_flatMap]
  constructor
  · rintro ⟨hnodup, hdisjoint⟩ ⟨k, i⟩ ⟨k', i'⟩ j ⟨K, hK, hi⟩ ⟨K', hK', hi'⟩
    have hk : k = k' := by
      by_contra hne
      obtain ⟨hlt, rfl⟩ := List.getElem?_eq_some_iff.mp hK
      obtain ⟨hlt', rfl⟩ := List.getElem?_eq_some_iff.mp hK'
      have hpairwise := List.pairwise_iff_getElem.mp hdisjoint
      rcases Nat.lt_or_gt_of_ne hne with h | h
      · exact hpairwise k k' hlt hlt' h (List.mem_of_getElem? hi) (List.mem_of_getElem? hi')
      · exact hpairwise k' k hlt' hlt h (List.mem_of_getElem? hi') (List.mem_of_getElem? hi)
    subst hk
    cases Option.some.inj (hK.symm.trans hK')
    have hi : i = i' :=
      nodup_iff_unique_place.mp (hnodup K (List.mem_of_getElem? hK)) i i' j hi hi'
    rw [hi]
  · intro honce
    refine ⟨fun K hK => ?_, List.pairwise_iff_getElem.mpr fun k k' hk hk' hlt => ?_⟩
    · obtain ⟨k, hk⟩ := List.mem_iff_getElem?.mp hK
      refine nodup_iff_unique_place.mpr fun i i' j hi hi' => ?_
      exact (Prod.mk.inj (honce (k, i) (k, i') j ⟨K, hk, hi⟩ ⟨K, hk, hi'⟩)).2
    · intro j hj hj'
      obtain ⟨i, hi⟩ := List.mem_iff_getElem?.mp hj
      obtain ⟨i', hi'⟩ := List.mem_iff_getElem?.mp hj'
      have heq := honce (k, i) (k', i') j ⟨_, List.getElem?_eq_getElem hk, hi⟩
        ⟨_, List.getElem?_eq_getElem hk', hi'⟩
      exact hlt.ne (Prod.mk.inj heq).1

/-- The cones name every column once, and nothing else. -/
theorem perm_iff_named_once : (cones.flatMap ConeSpec.indices).Perm (List.range n) ↔
    (∀ j < n, ∃! place, NamedAt cones place j) ∧ ∀ place j, NamedAt cones place j → j < n := by
  constructor
  · intro hperm
    have honce := nodup_flatMap_indices.mp (hperm.nodup_iff.mpr List.nodup_range)
    have hmem (j : ℕ) : (∃ place, NamedAt cones place j) ↔ j < n := by
      rw [← mem_flatMap_indices, hperm.mem_iff, List.mem_range]
    refine ⟨fun j hj => ?_, fun place j hplace => (hmem j).mp ⟨place, hplace⟩⟩
    obtain ⟨place, hplace⟩ := (hmem j).mpr hj
    exact ⟨place, hplace, fun place' hplace' => honce place' place j hplace' hplace⟩
  · rintro ⟨honce, hlt⟩
    have hnodup : (cones.flatMap ConeSpec.indices).Nodup :=
      nodup_flatMap_indices.mpr fun p q j hp hq => (honce j (hlt p j hp)).unique hp hq
    refine (List.perm_ext_iff_of_nodup hnodup List.nodup_range).mpr fun j => ?_
    rw [mem_flatMap_indices, List.mem_range]
    exact ⟨fun ⟨place, hplace⟩ => hlt place j hplace, fun hj => (honce j hj).exists⟩

/-! ## The program -/

/-- The parts of a program fit together. -/
structure FitsTogether (p : Program α) : Prop where
  /-- The vectors have the lengths of the matrix. -/
  b : p.b.size = p.A.nrows
  c : p.c.size = p.A.ncols
  x : p.x.size = p.A.ncols
  w : p.w.size = p.A.nrows
  s : p.s.size = p.A.ncols
  /-- The three arrays are a matrix. -/
  matrix : p.A.Regular
  /-- The tables of variables and columns are inverse permutations. -/
  map : p.map.Inverse p.A.ncols
  /-- Every second-order cone bounds something. -/
  bounded : ∀ bound vector, .secondOrder bound vector ∈ p.cones → vector ≠ []
  /-- Every column is named in one place. -/
  named : ∀ j < p.A.ncols, ∃! place, NamedAt p.cones place j
  /-- Nothing else is named. -/
  lt_ncols : ∀ place j, NamedAt p.cones place j → j < p.A.ncols

/-- Validation accepts exactly the programs whose parts fit together, and never reads out of
bounds. -/
theorem validate_iff_fitsTogether (p : Program α) :
    (p.validate = .ok () ↔ p.FitsTogether) ∧ p.validate ≠ .error .outOfBounds := by
  refine ⟨?_, p.validate_ne_outOfBounds⟩
  rw [WorkingCopy.validate_eq_ok_iff, VariableMap.check_iff_inverse]
  constructor
  · rintro ⟨⟨hmatrix, ⟨hb, hc, hx, hw, hs⟩, hcovered, hbounded⟩, hmap⟩
    obtain ⟨hnamed, hlt⟩ := perm_iff_named_once.mp hcovered
    exact ⟨hb, hc, hx, hw, hs, Csc.wellFormed_iff_regular.mp hmatrix, hmap,
      fun bound vector hmem hnil => hbounded bound (hnil ▸ hmem), hnamed, hlt⟩
  · intro h
    exact ⟨⟨Csc.wellFormed_iff_regular.mpr h.matrix, ⟨h.b, h.c, h.x, h.w, h.s⟩,
      perm_iff_named_once.mpr ⟨h.named, h.lt_ncols⟩,
      fun bound hmem => h.bounded bound [] hmem rfl⟩, h.map⟩

end Program

end Conic
