import Conic.Program.WorkingCopy
import Conic.Proofs.Loops

/-!
# Cones that cover the columns

A program is valid only if its cones name every column exactly once.  The check
marks the columns one after the other, and `Program.Covers` says what the marks
hold after some of them.  After all of them the columns that the cones name are
a permutation of all columns, and cones for which that holds pass the check
(`Program.checkPartition_eq_ok_iff`).

The working order lists the same columns, those of half lines first.
-/

namespace Conic

namespace Program

/-- The marks that some columns leave.  No column occurs twice. -/
structure Covers (covered : Array Bool) (n : ℕ) (done : List ℕ) : Prop where
  /-- There is a mark for every column. -/
  size : covered.size = n
  /-- No column occurs twice. -/
  nodup : done.Nodup
  /-- The columns are columns of the matrix. -/
  lt : ∀ j ∈ done, j < n
  /-- Exactly the columns that occur are marked. -/
  marks : ∀ j < n, covered[j]? = some (decide (j ∈ done))

theorem covers_nil (n : ℕ) : Covers (Array.replicate n false) n [] where
  size := Array.size_replicate
  nodup := List.nodup_nil
  lt := by simp
  marks j hj := by simp [hj]

/-- A column that can be marked has not been marked before. -/
theorem Covers.cover {covered covered' : Array Bool} {n : ℕ} {done : List ℕ} {column : ℕ}
    (h : Covers covered n done) (hcover : cover covered column = .ok covered') :
    Covers covered' n (done ++ [column]) := by
  rw [Program.cover] at hcover
  split at hcover
  next => cases hcover
  next => cases hcover
  next hmark =>
    cases hcover
    have hlt : column < n := by
      obtain ⟨hlt, -⟩ := Array.getElem?_eq_some_iff.mp hmark
      exact h.size ▸ hlt
    have hnew : column ∉ done := by
      have hmarks := h.marks column hlt
      rw [hmark, Option.some.injEq] at hmarks
      exact of_decide_eq_false hmarks.symm
    refine {
      size := by rw [Array.size_setIfInBounds, h.size]
      nodup := List.nodup_append.mpr ⟨h.nodup, List.nodup_singleton _, ?_⟩
      lt := ?_
      marks := fun j hj => ?_ }
    · rintro j hj _ hj' rfl
      exact hnew (List.mem_singleton.mp hj' ▸ hj)
    · intro j hj
      rcases List.mem_append.mp hj with hj | hj
      · exact h.lt j hj
      · rwa [List.mem_singleton.mp hj]
    · rw [Array.getElem?_setIfInBounds]
      rcases eq_or_ne column j with rfl | hne
      · simp [h.size, hlt]
      · simp [hne, hne.symm, h.marks j hj]

/-- Marking a cone marks its columns, and a second-order cone bounds
something. -/
theorem Covers.coverCone {covered covered' : Array Bool} {n : ℕ} {done : List ℕ}
    {K : ConeSpec ℕ} (h : Covers covered n done) (hcover : coverCone covered K = .ok covered') :
    Covers covered' n (done ++ K.indices) ∧ ∀ bound, K ≠ .secondOrder bound [] := by
  rw [Program.coverCone.eq_def] at hcover
  split at hcover
  next => cases hcover
  next hne =>
    refine ⟨?_, hne⟩
    exact Loop.of_foldlM_eq_ok (fun marked covered => Covers covered n (done ++ marked))
      (by rwa [List.append_nil]) (fun marked column _ _ hmarked hcolumn => by
        rw [← List.append_assoc]
        exact hmarked.cover hcolumn) hcover

/-- Cones that pass the check name every column exactly once, and every
second-order cone bounds something. -/
theorem perm_of_checkPartition {cones : List (ConeSpec ℕ)} {n : ℕ}
    (h : checkPartition cones n = .ok ()) :
    (cones.flatMap ConeSpec.indices).Perm (List.range n) ∧
      ∀ bound, .secondOrder bound [] ∉ cones := by
  rw [checkPartition] at h
  obtain ⟨covered, hloop, h⟩ := bind_eq_ok_iff.mp h
  obtain ⟨hcovers, hbounds⟩ := Loop.of_foldlM_eq_ok
    (fun done covered => Covers covered n (done.flatMap ConeSpec.indices) ∧
      ∀ K ∈ done, ∀ bound, K ≠ .secondOrder bound [])
    ⟨covers_nil n, by simp⟩ (fun done K _ _ hdone hK => by
      obtain ⟨hcovers, hbounds⟩ := hdone.1.coverCone hK
      rw [List.flatMap_append, List.flatMap_singleton]
      refine ⟨hcovers, fun K' hK' => ?_⟩
      rcases List.mem_append.mp hK' with hK' | hK'
      · exact hdone.2 K' hK'
      · rwa [List.mem_singleton.mp hK']) hloop
  refine ⟨?_, fun bound hmem => hbounds _ hmem bound rfl⟩
  split at h
  next => cases h
  next hnone =>
    refine (List.perm_ext_iff_of_nodup hcovers.nodup List.nodup_range).mpr fun j => ?_
    rw [List.mem_range]
    refine ⟨hcovers.lt j, fun hj => ?_⟩
    have hj' : j < covered.size := hcovers.size.symm ▸ hj
    have hmark := Array.findIdx?_eq_none_iff.mp hnone covered[j] (Array.getElem_mem hj')
    have hmarks := hcovers.marks j hj
    rw [Array.getElem?_eq_getElem hj', Option.some.injEq] at hmarks
    simpa [hmarks] using hmark

/-- A column that has not been marked before can be marked. -/
theorem Covers.exists_cover {covered : Array Bool} {n : ℕ} {done : List ℕ} {column : ℕ}
    (h : Covers covered n done) (hlt : column < n) (hnew : column ∉ done) :
    ∃ covered', Program.cover covered column = .ok covered' ∧
      Covers covered' n (done ++ [column]) := by
  have hmark : covered[column]? = some false := by rw [h.marks column hlt, decide_eq_false hnew]
  have hcover : Program.cover covered column = .ok (covered.setIfInBounds column true) := by
    rw [Program.cover, hmark]
  exact ⟨_, hcover, h.cover hcover⟩

/-- The columns of a cone that bounds something can be marked if they are new. -/
theorem Covers.exists_coverCone {covered : Array Bool} {n : ℕ} {done : List ℕ} {K : ConeSpec ℕ}
    (h : Covers covered n done) (hK : ∀ bound, K ≠ .secondOrder bound [])
    (hlt : ∀ j ∈ K.indices, j < n) (hnodup : (done ++ K.indices).Nodup) :
    ∃ covered', Program.coverCone covered K = .ok covered' ∧
      Covers covered' n (done ++ K.indices) := by
  obtain ⟨covered', hloop, hcovers⟩ := Loop.exists_foldlM_ok (f := Program.cover) (l := K.indices)
    (fun marked covered => Covers covered n (done ++ marked)) (by rwa [List.append_nil])
    fun marked column rest heq covered hcovers => by
      rw [heq, ← List.append_assoc] at hnodup
      rw [← List.append_assoc]
      refine hcovers.exists_cover (hlt column (by simp [heq])) fun hmem => ?_
      exact (List.nodup_append.mp hnodup).2.2 column hmem column (by simp) rfl
  refine ⟨covered', ?_, hcovers⟩
  cases K with
  | nonnegative i => exact hloop
  | secondOrder bound vector =>
    cases vector with
    | nil => exact absurd rfl (hK bound)
    | cons j vector => exact hloop

/-- Every mark is set once all columns are covered. -/
theorem Covers.findIdx?_eq_none {covered : Array Bool} {n : ℕ} {done : List ℕ}
    (h : Covers covered n done) (hall : ∀ j < n, j ∈ done) : covered.findIdx? (!·) = none := by
  refine Array.findIdx?_eq_none_iff.mpr fun mark hmark => ?_
  obtain ⟨j, hj, rfl⟩ := Array.getElem_of_mem hmark
  have hmarks := h.marks j (h.size ▸ hj)
  rw [Array.getElem?_eq_getElem hj, decide_eq_true (hall j (h.size ▸ hj)),
    Option.some.injEq] at hmarks
  simp [hmarks]

/-- The check accepts exactly the cones that name every column once and bound
something wherever they are of second order. -/
theorem checkPartition_eq_ok_iff {cones : List (ConeSpec ℕ)} {n : ℕ} :
    checkPartition cones n = .ok () ↔
      (cones.flatMap ConeSpec.indices).Perm (List.range n) ∧
        ∀ bound, .secondOrder bound [] ∉ cones := by
  refine ⟨perm_of_checkPartition, fun ⟨hperm, hbounded⟩ => ?_⟩
  have hlt : ∀ K ∈ cones, ∀ j ∈ K.indices, j < n := fun K hK j hj =>
    List.mem_range.mp (hperm.mem_iff.mp (List.mem_flatMap.mpr ⟨K, hK, hj⟩))
  have hnodup : (cones.flatMap ConeSpec.indices).Nodup := hperm.nodup_iff.mpr List.nodup_range
  obtain ⟨covered, hloop, hcovers⟩ := Loop.exists_foldlM_ok (f := Program.coverCone) (l := cones)
    (fun done covered => Covers covered n (done.flatMap ConeSpec.indices)) (covers_nil n)
    fun done K rest heq covered hcovers => by
      have hmem : K ∈ cones := by simp [heq]
      rw [heq, List.flatMap_append, List.flatMap_cons, ← List.append_assoc] at hnodup
      rw [List.flatMap_append, List.flatMap_singleton]
      exact hcovers.exists_coverCone (fun bound hbound => hbounded bound (hbound ▸ hmem))
        (hlt K hmem) (List.nodup_append.mp hnodup).1
  have hall : ∀ j < n, j ∈ cones.flatMap ConeSpec.indices := fun j hj =>
    hperm.mem_iff.mpr (List.mem_range.mpr hj)
  rw [checkPartition, hloop]
  simp only [bind, Except.bind, hcovers.findIdx?_eq_none hall]
  rfl

end Program

namespace WorkingCopy

/-- The working order of the columns. -/
def order (cones : List (ConeSpec ℕ)) : List ℕ :=
  orthantColumns cones ++ (secondOrderColumns cones).flatten

theorem mem_orthantColumns {cones : List (ConeSpec ℕ)} {i : ℕ} :
    i ∈ orthantColumns cones ↔ .nonnegative i ∈ cones := by
  rw [orthantColumns, List.mem_filterMap]
  constructor
  · rintro ⟨K, hK, heq⟩
    cases K with
    | nonnegative j => exact Option.some.inj heq ▸ hK
    | secondOrder bound vector => cases heq
  · exact fun hK => ⟨_, hK, rfl⟩

theorem mem_secondOrderColumns {cones : List (ConeSpec ℕ)} {cols : List ℕ} :
    cols ∈ secondOrderColumns cones ↔
      ∃ bound vector, .secondOrder bound vector ∈ cones ∧ cols = bound :: vector := by
  rw [secondOrderColumns, List.mem_filterMap]
  constructor
  · rintro ⟨K, hK, heq⟩
    cases K with
    | nonnegative j => cases heq
    | secondOrder bound vector => exact ⟨bound, vector, hK, (Option.some.inj heq).symm⟩
  · rintro ⟨bound, vector, hK, rfl⟩
    exact ⟨_, hK, rfl⟩

theorem perm_order (cones : List (ConeSpec ℕ)) :
    (order cones).Perm (cones.flatMap ConeSpec.indices) := by
  induction cones with
  | nil => rfl
  | cons K cones ih =>
    cases K with
    | nonnegative i => exact ih.cons i
    | secondOrder bound vector =>
      have hmove : (order (.secondOrder bound vector :: cones)).Perm
          (bound :: vector ++ order cones) := by
        show (orthantColumns cones ++ (bound :: vector ++ (secondOrderColumns cones).flatten)).Perm _
        rw [← List.append_assoc, order, ← List.append_assoc]
        exact List.perm_append_comm.append_right _
      exact hmove.trans (ih.append_left (bound :: vector))

end WorkingCopy

end Conic
