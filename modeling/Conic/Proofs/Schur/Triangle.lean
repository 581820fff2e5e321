import Conic.Proofs.Arrays
import Conic.Proofs.Exact.Vectors
import Conic.Schur.Assembly

/-!
# Triangles

The upper triangle of a term is a list with one value for each pair of rows,
column after column.  `Schur.pairs` lists the pairs in that order, for rows and
for any other entries.  The pair of positions `p ≤ q` stands at
`Schur.triangular p q` (`Schur.getElem?_pairs_range`), and a triangle that is
stored as an array is read off at these indices (`Schur.toList_triangle`).

A sum over the pairs in which the two keys are given is a double sum
(`Schur.sum_pairs`), if the keys increase along the list.
-/

namespace Conic.Schur

variable {β γ : Type}

/-- The pairs of an entry and an entry that does not come after it, ordered by
the first one of these. -/
def pairs (l : List β) : List (β × β) :=
  l.zipIdx.flatMap fun e => (l.take (e.2 + 1)).map fun x => (x, e.1)

@[simp] theorem pairs_nil : pairs ([] : List β) = [] := rfl

theorem pairs_concat (l : List β) (y : β) :
    pairs (l ++ [y]) = pairs l ++ (l ++ [y]).map fun x => (x, y) := by
  have hbefore : (l.zipIdx.flatMap fun e => ((l ++ [y]).take (e.2 + 1)).map fun x => (x, e.1)) =
      pairs l := by
    refine List.flatMap_congr fun e he => ?_
    have hlt := List.snd_lt_of_mem_zipIdx he
    rw [List.take_append_of_le_length (by omega)]
  rw [pairs, List.zipIdx_append, List.flatMap_append, hbefore]
  simp

theorem pairs_map (f : β → γ) (l : List β) : pairs (l.map f) = (pairs l).map (Prod.map f f) := by
  induction l using List.reverseRecOn with
  | nil => rfl
  | append_singleton l y ih =>
    rw [List.map_append, List.map_singleton, pairs_concat, ih, pairs_concat, List.map_append]
    simp

/-- The entries of a pair, when a key increases along the list. -/
theorem mem_pairs {k : β → ℕ} {l : List β} (h : l.Pairwise fun x y => k x < k y) {p : β × β}
    (hp : p ∈ pairs l) : p.1 ∈ l ∧ p.2 ∈ l ∧ k p.1 ≤ k p.2 := by
  induction l using List.reverseRecOn with
  | nil => simp at hp
  | append_singleton l y ih =>
    obtain ⟨hl, -, hlt⟩ := List.pairwise_append.mp h
    rw [pairs_concat, List.mem_append] at hp
    rcases hp with hp | hp
    · obtain ⟨h₁, h₂, hle⟩ := ih hl hp
      exact ⟨List.mem_append_left _ h₁, List.mem_append_left _ h₂, hle⟩
    · obtain ⟨x, hx, rfl⟩ := List.mem_map.mp hp
      refine ⟨hx, by simp, ?_⟩
      rcases List.mem_append.mp hx with hx | hx
      · exact (hlt x hx y (by simp)).le
      · rw [List.mem_singleton.mp hx]

/-- A sum over the pairs with given keys. -/
theorem sum_pairs {k : β → ℕ} {l : List β} (h : l.Pairwise fun x y => k x < k y) {r c : ℕ}
    (hrc : r ≤ c) (f : β → β → ℝ) :
    ((pairs l).map fun p => if k p.1 = r ∧ k p.2 = c then f p.1 p.2 else 0).sum =
      (l.map fun y => if k y = c then (l.map fun x => if k x = r then f x y else 0).sum
        else 0).sum := by
  induction l using List.reverseRecOn with
  | nil => rfl
  | append_singleton l z ih =>
    obtain ⟨hl, -, hlt⟩ := List.pairwise_append.mp h
    -- the new entry is behind all others, so it is never the first of an older pair
    have hold : (l.map fun y => if k y = c then
        ((l ++ [z]).map fun x => if k x = r then f x y else 0).sum else 0) =
        l.map fun y => if k y = c then (l.map fun x => if k x = r then f x y else 0).sum
          else 0 := by
      refine List.map_congr_left fun y hy => ?_
      have hyz := hlt y hy z (by simp)
      by_cases hc : k y = c
      · have hr : k z ≠ r := by omega
        simp [hc, hr]
      · simp only [if_neg hc]
    have hnew : ((l ++ [z]).map fun x => if k x = r ∧ k z = c then f x z else 0).sum =
        if k z = c then ((l ++ [z]).map fun x => if k x = r then f x z else 0).sum else 0 := by
      by_cases hc : k z = c
      · simp only [hc, and_true, if_true]
      · simp only [hc, and_false, if_false]
        simp
    rw [pairs_concat, List.map_append, List.sum_append, ih hl, List.map_map]
    simp only [Function.comp_def]
    have hconcat (g : β → ℝ) : ((l ++ [z]).map g).sum = (l.map g).sum + g z := by simp
    rw [hnew, ← hold]
    exact (hconcat _).symm

/-- An entry that occurs at most once, singled out of a sum. -/
theorem sum_map_ite_of_nodup {l : List ℕ} (h : l.Nodup) {k : ℕ} {f : ℕ → ℝ}
    (hf : k ∉ l → f k = 0) : (l.map fun x => if x = k then f x else 0).sum = f k := by
  by_cases hk : k ∈ l
  · rw [List.sum_map_ite_eq]
    simp [List.count_eq_one_of_mem h hk]
  · rw [hf hk]
    refine List.sum_eq_zero fun y hy => ?_
    obtain ⟨x, hx, rfl⟩ := List.mem_map.mp hy
    exact if_neg fun heq => hk (by rwa [heq] at hx)

/-- The pair of two rows, singled out of a sum. -/
theorem sum_pairs_eq {l : List ℕ} (h : l.Pairwise (· < ·)) {r c : ℕ} (hrc : r ≤ c)
    {f : ℕ → ℕ → ℝ} (hleft : r ∉ l → ∀ y, f r y = 0) (hright : c ∉ l → ∀ x, f x c = 0) :
    ((pairs l).map fun p => if p.1 = r ∧ p.2 = c then f p.1 p.2 else 0).sum = f r c := by
  have hnodup : l.Nodup := h.imp fun h => h.ne
  have hfirst (y : ℕ) : (l.map fun x => if x = r then f x y else 0).sum = f r y :=
    sum_map_ite_of_nodup hnodup (f := fun x => f x y) fun hr => hleft hr y
  refine (sum_pairs (k := fun x => x) h hrc f).trans ?_
  simp only [hfirst]
  exact sum_map_ite_of_nodup hnodup (f := f r) fun hc => hright hc r

/-! ## Pairs of positions -/

theorem triangular_succ (q : ℕ) : (q + 1) * (q + 2) / 2 = q * (q + 1) / 2 + (q + 1) := by
  have h : (q + 1) * (q + 2) = q * (q + 1) + (q + 1) * 2 := by ring
  rw [h, Nat.add_mul_div_right _ _ (by norm_num)]

theorem triangular_lt {p q n : ℕ} (hpq : p ≤ q) (hq : q < n) :
    triangular p q < n * (n + 1) / 2 := by
  have hmono : Monotone fun q : ℕ => q * (q + 1) / 2 :=
    monotone_nat_of_le_succ fun q => (triangular_succ q).symm ▸ Nat.le_add_right _ _
  have hstep := triangular_succ q
  have hle : (q + 1) * (q + 2) / 2 ≤ n * (n + 1) / 2 := hmono hq
  rw [triangular]
  omega

theorem triangular_inj {p q p' q' : ℕ} (hpq : p ≤ q) (hpq' : p' ≤ q')
    (h : triangular p q = triangular p' q') : p = p' ∧ q = q' := by
  have hlt (a b a' b' : ℕ) (hab : a ≤ b) (hb : b < b') : triangular a b < triangular a' b' :=
    (triangular_lt hab hb).trans_le (Nat.le_add_right _ _)
  rcases lt_trichotomy q q' with hq | rfl | hq
  · exact absurd h (hlt p q p' q' hpq hq).ne
  · exact ⟨Nat.add_left_cancel h, rfl⟩
  · exact absurd h (hlt p' q' p q hpq' hq).ne'

/-- The indices of the pairs of positions follow one another. -/
theorem map_triangular (n : ℕ) :
    (pairs (List.range n)).map (fun p => triangular p.1 p.2) = List.range (n * (n + 1) / 2) := by
  induction n with
  | zero => rfl
  | succ n ih =>
    rw [List.range_succ, pairs_concat, List.map_append, ih, ← List.range_succ, List.map_map,
      triangular_succ, List.range_add]
    rfl

theorem length_pairs_range (n : ℕ) : (pairs (List.range n)).length = n * (n + 1) / 2 := by
  simpa using congrArg List.length (map_triangular n)

theorem le_of_mem_pairs_range {n : ℕ} {p : ℕ × ℕ} (hp : p ∈ pairs (List.range n)) :
    p.1 ≤ p.2 ∧ p.2 < n := by
  obtain ⟨-, hlt, hle⟩ := mem_pairs (k := id) List.pairwise_lt_range hp
  exact ⟨hle, List.mem_range.mp hlt⟩

/-- Where a pair of positions stands. -/
theorem getElem?_pairs_range {p q n : ℕ} (hpq : p ≤ q) (hq : q < n) :
    (pairs (List.range n))[triangular p q]? = some (p, q) := by
  have hlt : triangular p q < (pairs (List.range n)).length := by
    rw [length_pairs_range]
    exact triangular_lt hpq hq
  have hindex : triangular (pairs (List.range n))[triangular p q].1
      (pairs (List.range n))[triangular p q].2 = triangular p q := by
    have hget := List.getElem_map (fun p : ℕ × ℕ => triangular p.1 p.2)
      (l := pairs (List.range n)) (i := triangular p q) (h := by simpa using hlt)
    rw [← hget]
    simp only [map_triangular, List.getElem_range]
  obtain ⟨hle, -⟩ := le_of_mem_pairs_range (List.getElem_mem hlt)
  obtain ⟨hp, hq'⟩ := triangular_inj hle hpq hindex
  rw [List.getElem?_eq_getElem hlt]
  exact congrArg some (Prod.ext hp hq')

/-- The pairs of a list, by their positions. -/
theorem pairs_eq_map (l : List β) (d : β) :
    pairs l = (pairs (List.range l.length)).map fun p => (l.getD p.1 d, l.getD p.2 d) := by
  have hl : l = (List.range l.length).map fun i => l.getD i d := by
    apply List.ext_getElem (by simp)
    intro i hi _
    simp [hi]
  conv_lhs => rw [hl]
  exact pairs_map _ _

/-- A triangle in an array, by its pairs of positions. -/
theorem toList_triangle {n : ℕ} {t : Array ℝ} (h : t.size = n * (n + 1) / 2) :
    t.toList = (pairs (List.range n)).map fun p => t.getD (triangular p.1 p.2) 0 := by
  rw [(Holds.of_getD t 0).toList, h, ← map_triangular, List.map_map]
  rfl

/-- A value of a triangle that is given by a function of the pairs of a list. -/
theorem getD_map_pairs (f : β → β → ℝ) (l : List β) (d : β) {p q : ℕ} (hpq : p ≤ q)
    (hq : q < l.length) :
    (((pairs l).map fun x => f x.1 x.2).toArray.getD (triangular p q) 0) =
      f (l.getD p d) (l.getD q d) := by
  rw [Array.getD_eq_getD_getElem?, List.getElem?_toArray, pairs_eq_map l d, List.map_map,
    List.getElem?_map, getElem?_pairs_range hpq hq]
  rfl

theorem length_pairs (l : List β) : (pairs l).length = l.length * (l.length + 1) / 2 := by
  cases l with
  | nil => simp
  | cons x l => rw [pairs_eq_map _ x, List.length_map, length_pairs_range]

end Conic.Schur
