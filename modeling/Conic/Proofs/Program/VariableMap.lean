import Conic.Program.VariableMap
import Conic.Proofs.Loops

/-!
# Variables and columns

A map that passes its check gives every variable a column and every column a
variable, and the two are inverse to each other
(`VariableMap.column_eq_ok_iff`).  A map can be made of any permutation of the
columns, and it passes the check (`VariableMap.exists_ofColumns`).
-/

namespace Conic.VariableMap

/-- The column of a variable, zero for a variable that is not there. -/
def place (m : VariableMap) (v : VariableId) : ℕ := m.columns.getD v.index 0

/-! ## The check -/

section

variable {m : VariableMap} {n : ℕ}

theorem column_eq_ok {v : VariableId} {j : ℕ} :
    m.column v = .ok j ↔ m.columns[v.index]? = some j := by
  rw [column]
  cases m.columns[v.index]? <;> simp

theorem check_eq_ok_iff : m.check n = .ok () ↔ m.columns.size = n ∧ m.ids.size = n ∧
    ∀ v j, m.column v = .ok j → m.variableAt j = some v := by
  have hall : (m.columns.toList.zipIdx.all fun p => m.ids[p.1]? == some ⟨p.2⟩) = true ↔
      ∀ v j, m.column v = .ok j → m.variableAt j = some v := by
    simp only [List.all_eq_true, beq_iff_eq, column_eq_ok, variableAt]
    constructor
    · rintro h ⟨i⟩ j hj
      exact h (j, i) (List.mem_zipIdx_iff_getElem?.mpr (by simpa using hj))
    · rintro h ⟨j, i⟩ hmem
      exact h ⟨i⟩ j (by simpa using List.mem_zipIdx_iff_getElem?.mp hmem)
  rw [check, ← hall]
  split
  next h => exact ⟨fun _ => h, fun _ => rfl⟩
  next h => exact ⟨nofun, fun h' => absurd h' h⟩

/-- A variable of a map has a column. -/
theorem column_eq_place {v : VariableId} (hv : v.index < m.columns.size) :
    m.column v = .ok (m.place v) := by
  rw [column_eq_ok, place, Array.getElem?_eq_getElem hv]
  simp [hv]

variable (h : m.check n = .ok ())

include h

theorem lt_of_column {v : VariableId} {j : ℕ} (hj : m.column v = .ok j) : v.index < n ∧ j < n := by
  obtain ⟨hcolumns, hids, hinverse⟩ := check_eq_ok_iff.mp h
  obtain ⟨hv, -⟩ := Array.getElem?_eq_some_iff.mp (column_eq_ok.mp hj)
  obtain ⟨hj, -⟩ := Array.getElem?_eq_some_iff.mp (hinverse v j hj)
  exact ⟨hcolumns ▸ hv, hids ▸ hj⟩

/-- A variable beyond the map is unknown. -/
theorem column_of_le {v : VariableId} (hv : n ≤ v.index) :
    m.column v = .error (.unknownVariable v) := by
  obtain ⟨hcolumns, -, -⟩ := check_eq_ok_iff.mp h
  rw [column, Array.getElem?_eq_none (hcolumns.symm ▸ hv)]

/-- A column beyond the map has no variable. -/
theorem variableAt_of_le {j : ℕ} (hj : n ≤ j) : m.variableAt j = none := by
  obtain ⟨-, hids, -⟩ := check_eq_ok_iff.mp h
  exact Array.getElem?_eq_none (hids.symm ▸ hj)

/-- Different variables have different columns. -/
theorem eq_of_column {u v : VariableId} {j : ℕ} (hu : m.column u = .ok j)
    (hv : m.column v = .ok j) : u = v := by
  obtain ⟨-, -, hinverse⟩ := check_eq_ok_iff.mp h
  exact Option.some.inj ((hinverse u j hu).symm.trans (hinverse v j hv))

/-- Every column has a variable: there are as many of them, and no two variables
share one. -/
theorem exists_of_lt {j : ℕ} (hj : j < n) : ∃ v, m.column v = .ok j := by
  obtain ⟨hcolumns, -, -⟩ := check_eq_ok_iff.mp h
  have hcolumn (i : Fin n) : ∃ j : Fin n, m.column ⟨i⟩ = .ok (j : ℕ) := by
    have hi : m.column ⟨i⟩ = .ok (m.place ⟨i⟩) := column_eq_place (hcolumns.symm ▸ i.isLt)
    exact ⟨⟨m.place ⟨i⟩, (lt_of_column h hi).2⟩, hi⟩
  choose f hf using hcolumn
  have hinjective : Function.Injective f := fun i i' heq => by
    have hid : (⟨i⟩ : VariableId) = ⟨i'⟩ := eq_of_column h (hf i) (heq ▸ hf i')
    exact Fin.ext (VariableId.mk.inj hid)
  obtain ⟨i, hi⟩ := Finite.surjective_of_injective hinjective ⟨j, hj⟩
  exact ⟨⟨i⟩, by rw [hf, hi]⟩

/-- The columns of the variables and the variables of the columns are inverse to
each other. -/
theorem column_eq_ok_iff {v : VariableId} {j : ℕ} :
    m.column v = .ok j ↔ m.variableAt j = some v := by
  obtain ⟨-, hids, hinverse⟩ := check_eq_ok_iff.mp h
  refine ⟨hinverse v j, fun hv => ?_⟩
  obtain ⟨hj, -⟩ := Array.getElem?_eq_some_iff.mp hv
  obtain ⟨u, hu⟩ := exists_of_lt h (hids ▸ hj)
  rwa [Option.some.inj (hv.symm.trans (hinverse u j hu))]

end

/-! ## Maps from columns -/

/-- The variables that have been entered for some columns, given with their places. -/
structure Entered (n : ℕ) (done : List (ℕ × ℕ)) (ids : Array (Option VariableId)) : Prop where
  size : ids.size = n
  /-- The columns have their variables. -/
  entered : ∀ e ∈ done, ids[e.1]? = some (some ⟨e.2⟩)
  /-- No other column has one. -/
  free : ∀ j < n, (∀ e ∈ done, e.1 ≠ j) → ids[j]? = some none

theorem Entered.enter? {n : ℕ} {done : List (ℕ × ℕ)} {ids : Array (Option VariableId)}
    (h : Entered n done ids) {e : ℕ × ℕ} (hlt : e.1 < n) (hnew : ∀ e' ∈ done, e'.1 ≠ e.1) :
    ∃ ids', enter? ids e = some ids' ∧ Entered n (done ++ [e]) ids' := by
  obtain ⟨ids', hids'⟩ := exists_update? (fun _ => some ⟨e.2⟩) (h.size.symm ▸ hlt)
  refine ⟨ids', by rw [VariableMap.enter?, h.free e.1 hlt hnew]; exact hids', ?_⟩
  have hother {j : ℕ} (hj : e.1 ≠ j) : ids'[j]? = ids[j]? := by
    rw [getElem?_of_update?_eq_some hids', if_neg hj]
  refine ⟨(size_of_update?_eq_some hids').trans h.size, fun e' he' => ?_, fun j hj hfree => ?_⟩
  · rcases List.mem_append.mp he' with he' | he'
    · rw [hother (hnew e' he').symm, h.entered e' he']
    · rw [List.mem_singleton.mp he', getElem?_of_update?_eq_some hids', if_pos rfl,
        h.free e.1 hlt hnew, Option.map_some]
  · rw [hother (hfree e (by simp)), h.free j hj fun e' he' => hfree e' (by simp [he'])]

/-- Every permutation of the columns makes a map, and it passes the check. -/
theorem exists_ofColumns {columns : Array ℕ} (h : columns.toList.Perm (List.range columns.size)) :
    ∃ m, ofColumns columns = .ok m ∧ m.columns = columns ∧ m.check columns.size = .ok () := by
  obtain ⟨ids, hloop, hids⟩ := Loop.exists_foldlM (f := VariableMap.enter?)
    (l := columns.toList.zipIdx) (s := Array.replicate columns.size none)
    (Entered columns.size) ⟨Array.size_replicate, by simp, fun j hj _ => by simp [hj]⟩
    fun done e rest hsplit ids hids => by
      have hmem : e ∈ columns.toList.zipIdx := by simp [hsplit]
      have hlt : e.1 < columns.size :=
        List.mem_range.mp (h.mem_iff.mp (List.fst_mem_of_mem_zipIdx hmem))
      -- a permutation names no column twice
      have hnodup : ((done ++ e :: rest).map Prod.fst).Nodup := by
        rw [← hsplit, List.zipIdx_map_fst]
        exact h.nodup_iff.mpr List.nodup_range
      rw [List.map_append, List.map_cons, List.nodup_append] at hnodup
      exact hids.enter? hlt fun e' he' heq =>
        hnodup.2.2 e'.1 (List.mem_map_of_mem he') e.1 (by simp) heq
  have hentry {j i : ℕ} (hj : columns[i]? = some j) : ids[j]? = some (some ⟨i⟩) :=
    hids.entered (j, i) (List.mem_zipIdx_iff_getElem?.mpr (by simpa using hj))
  have hall (o : Option VariableId) (ho : o ∈ ids.toList) : id o = some (o.getD ⟨0⟩) := by
    obtain ⟨j, hj⟩ := List.mem_iff_getElem?.mp ho
    rw [Array.getElem?_toList] at hj
    obtain ⟨hlt, -⟩ := Array.getElem?_eq_some_iff.mp hj
    have hmem : j ∈ columns.toList := h.mem_iff.mpr (List.mem_range.mpr (hids.size ▸ hlt))
    obtain ⟨i, hi⟩ := List.mem_iff_getElem?.mp hmem
    cases (hentry (by simpa using hi)).symm.trans hj
    rfl
  refine ⟨⟨columns, (ids.toList.map fun o => o.getD ⟨0⟩).toArray⟩, ?_, rfl,
    check_eq_ok_iff.mpr ⟨rfl, by simpa using hids.size, fun v j hj => ?_⟩⟩
  · rw [ofColumns, hloop]
    simp only [Option.bind_some, Array.mapM_eq_mapM_toList, Loop.mapM_eq_some _ hall]
    rfl
  · have hj := hentry (column_eq_ok.mp hj)
    simp [variableAt, hj]

end Conic.VariableMap
