import Mathlib
import Conic.Schur.Assembly
import Conic.Sparse.Search

/-!
# Looking up and sorting rows

In a strictly increasing array `Search.place` finds every row that is there
(`Search.place_eq_found`).  `Schur.sorted` makes a strictly increasing list of
any list and keeps its members (`Schur.pairwise_sorted`, `Schur.mem_sorted`).
-/

namespace Conic.Search

/-- Halving keeps the position of a row within the part. -/
theorem narrow_eq {rows : Array ℕ} (hsorted : rows.toList.Pairwise (· < ·)) {k : ℕ}
    (hk : k < rows.size) {fuel base size : ℕ} (hfuel : size ≤ fuel + 1) (hlo : base ≤ k)
    (hhi : k < base + size) (hend : base + size ≤ rows.size) :
    narrow rows rows[k] fuel base size = k := by
  have hlt (i j : ℕ) (hi : i < rows.size) (hj : j < rows.size) (hij : i < j) :
      rows[i] < rows[j] := by
    have := List.pairwise_iff_getElem.mp hsorted i j (by simpa using hi) (by simpa using hj) hij
    simpa using this
  induction fuel generalizing base size with
  | zero =>
    rw [narrow]
    omega
  | succ fuel ih =>
    rw [narrow]
    split
    next hsize => omega
    next hsize =>
      have hmid : base + size / 2 < rows.size := by omega
      have hget : rows.getD (base + size / 2) 0 = rows[base + size / 2] := by
        simp [Array.getD, hmid]
      simp only [hget]
      split
      next hrow =>
        have hkmid : k < base + size / 2 := by
          by_contra hle
          rcases (not_lt.mp hle).eq_or_lt with heq | hlt'
          · simp [heq] at hrow
          · exact lt_asymm hrow (hlt _ _ hmid hk hlt')
        exact ih (by omega) hlo (by omega) (by omega)
      next hrow =>
        have hkmid : base + size / 2 ≤ k := by
          by_contra hlt'
          exact hrow (hlt _ _ hk hmid (not_le.mp hlt'))
        exact ih (by omega) hkmid (by omega) (by omega)

/-- A row of a strictly increasing array is found. -/
theorem place_eq_found {r : Array ℕ} (hsorted : r.toList.Pairwise (· < ·)) {k : ℕ}
    (hk : k < r.size) : place r r[k] = .found k := by
  have hbase := narrow_eq hsorted hk (Nat.le_succ r.size) (Nat.zero_le k) (by omega)
    (by omega)
  simp [place, hbase, hk]

end Conic.Search

namespace Conic.Schur

/-! ## Sorting -/

theorem eraseReps_loop {l : List ℕ} (a : ℕ) (acc : List ℕ)
    (hle : (a :: l).Pairwise (· ≤ ·)) (hlt : (a :: acc).Pairwise (· > ·)) :
    (List.eraseRepsBy.loop (· == ·) a l acc).Pairwise (· < ·) ∧
      ∀ x, x ∈ List.eraseRepsBy.loop (· == ·) a l acc ↔ x = a ∨ x ∈ l ∨ x ∈ acc := by
  induction l generalizing a acc with
  | nil =>
    rw [List.eraseRepsBy.loop]
    exact ⟨List.pairwise_reverse.mpr hlt, fun x => by simp [or_comm]⟩
  | cons b l ih =>
    rw [List.eraseRepsBy.loop]
    obtain ⟨hab, hl⟩ := List.pairwise_cons.mp hle
    by_cases h : a = b
    · subst h
      obtain ⟨hsorted, hmem⟩ := ih a acc hl hlt
      simp only [beq_self_eq_true]
      refine ⟨hsorted, fun x => ?_⟩
      rw [hmem, List.mem_cons]
      tauto
    · have hab' : a < b := lt_of_le_of_ne (hab b (by simp)) h
      have hgt : (b :: a :: acc).Pairwise (· > ·) := by
        refine List.pairwise_cons.mpr ⟨fun x hx => ?_, hlt⟩
        rcases List.mem_cons.mp hx with rfl | hx
        · exact hab'
        · exact ((List.pairwise_cons.mp hlt).1 x hx).trans hab'
      obtain ⟨hsorted, hmem⟩ := ih b (a :: acc) hl hgt
      simp only [beq_eq_false_iff_ne.mpr h]
      refine ⟨hsorted, fun x => ?_⟩
      rw [hmem, List.mem_cons, List.mem_cons]
      tauto

theorem pairwise_mergeSort (l : List ℕ) :
    (l.mergeSort fun a b => decide (a ≤ b)).Pairwise (· ≤ ·) := by
  have h := @List.pairwise_mergeSort ℕ (fun a b => decide (a ≤ b))
    (fun a b c => by simpa using le_trans) (fun a b => by simpa using le_total a b) l
  simpa using h

theorem sorted_spec (l : List ℕ) :
    (sorted l).Pairwise (· < ·) ∧ ∀ x, x ∈ sorted l ↔ x ∈ l := by
  have hmem (x : ℕ) : x ∈ (l.mergeSort fun a b => decide (a ≤ b)) ↔ x ∈ l := List.mem_mergeSort
  have hle := pairwise_mergeSort l
  unfold sorted List.eraseReps
  cases hl : l.mergeSort fun a b => decide (a ≤ b) with
  | nil =>
    rw [hl] at hmem
    exact ⟨.nil, fun x => hmem x⟩
  | cons a rest =>
    rw [hl] at hle hmem
    obtain ⟨hsorted, hmem'⟩ := eraseReps_loop a [] hle (by simp)
    refine ⟨hsorted, fun x => ?_⟩
    rw [List.eraseRepsBy, hmem', ← hmem x]
    simp

theorem pairwise_sorted (l : List ℕ) : (sorted l).Pairwise (· < ·) := (sorted_spec l).1

@[simp] theorem mem_sorted {l : List ℕ} {x : ℕ} : x ∈ sorted l ↔ x ∈ l := (sorted_spec l).2 x

/-- A strictly increasing list is already sorted. -/
theorem sorted_eq_self {l : List ℕ} (h : l.Pairwise (· < ·)) : sorted l = l :=
  ((List.perm_ext_iff_of_nodup ((pairwise_sorted l).imp fun h => h.ne) (h.imp fun h => h.ne)).mpr
    fun _ => mem_sorted).eq_of_pairwise (fun _ _ _ _ h h' => absurd h (lt_asymm h'))
    (pairwise_sorted l) h

end Conic.Schur
