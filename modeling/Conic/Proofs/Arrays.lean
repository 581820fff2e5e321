import Conic.Proofs.Loops

/-!
# Arrays as functions

The factorisation works on arrays that are read and changed one entry at a
time.  `Holds xs n f` says that the array has length `n` and that `f i` is its
entry at `i`.  A checked access below `n` then succeeds, and a change of one
entry becomes a change of the function at one argument (`Holds.update`), so an
invariant can speak of functions alone.
-/

namespace Conic

/-- Arrays of one length with the same entries are equal. -/
theorem ext_of_lt {β : Type} {xs ys : Array β} {n : ℕ} (hxs : xs.size = n) (hys : ys.size = n)
    (h : ∀ i < n, xs[i]? = ys[i]?) : xs = ys := by
  apply Array.ext_getElem?
  intro i
  by_cases hi : i < n
  · exact h i hi
  · rw [Array.getElem?_eq_none (by omega), Array.getElem?_eq_none (by omega)]

/-- The array has length `n`, and its entries are the values of `f`. -/
structure Holds {β : Type} (xs : Array β) (n : ℕ) (f : ℕ → β) : Prop where
  size : xs.size = n
  get : ∀ i < n, xs[i]? = some (f i)

namespace Holds

variable {β γ : Type} {xs ys : Array β} {n : ℕ} {f g : ℕ → β}

theorem congr (h : Holds xs n f) (hfg : ∀ i < n, f i = g i) : Holds xs n g :=
  ⟨h.size, fun i hi => hfg i hi ▸ h.get i hi⟩

theorem getD (h : Holds xs n f) {i : ℕ} (hi : i < n) (d : β) : xs.getD i d = f i := by
  rw [Array.getD_eq_getD_getElem?, h.get i hi, Option.getD_some]

theorem getElem (h : Holds xs n f) {i : ℕ} (hi : i < xs.size) : xs[i] = f i := by
  have hget := h.get i (h.size ▸ hi)
  rwa [Array.getElem?_eq_getElem hi, Option.some.injEq] at hget

/-- Every array holds its own entries. -/
theorem of_getD (xs : Array β) (d : β) : Holds xs xs.size fun i => xs.getD i d :=
  ⟨rfl, fun i hi => by simp [Array.getD, hi]⟩

theorem replicate (n : ℕ) (b : β) : Holds (Array.replicate n b) n fun _ => b :=
  ⟨by simp, fun i hi => by simp [hi]⟩

/-- The functions of an array agree. -/
theorem eq_of_lt (h : Holds xs n f) (h' : Holds xs n g) {i : ℕ} (hi : i < n) : f i = g i :=
  Option.some.inj ((h.get i hi).symm.trans (h'.get i hi))

/-- Arrays that hold the same entries are equal. -/
theorem ext (h : Holds xs n f) (h' : Holds ys n f) : xs = ys := by
  refine ext_of_lt h.size h'.size fun i hi => ?_
  rw [h.get i hi, h'.get i hi]

/-- Changing one entry changes the function at one argument. -/
theorem update (h : Holds xs n f) {i : ℕ} (hi : i < n) (u : β → β) :
    ∃ zs, update? xs i u = some zs ∧ Holds zs n (Function.update f i (u (f i))) := by
  have hi' : i < xs.size := h.size ▸ hi
  refine ⟨xs.modify i u, update?_of_lt u hi', by simpa using h.size, fun j hj => ?_⟩
  have hj' : j < xs.size := h.size ▸ hj
  rw [Array.getElem?_eq_getElem (by simpa using hj'), Array.getElem_modify, h.getElem hj']
  by_cases hij : i = j
  · subst hij
    simp
  · simp [hij, Function.update_of_ne (Ne.symm hij)]

theorem toList (h : Holds xs n f) : xs.toList = (List.range n).map f := by
  apply List.ext_getElem (by simp [h.size])
  intro i hi _
  rw [Array.getElem_toList, List.getElem_map, List.getElem_range, h.getElem]

theorem of_toList (h : xs.toList = (List.range n).map f) : Holds xs n f := by
  have hsize : xs.size = n := by simpa using congrArg List.length h
  refine ⟨hsize, fun i hi => ?_⟩
  rw [← Array.getElem?_toList, h]
  simp [hi]

/-- Reading the entries through a function. -/
theorem map (h : Holds xs n f) (u : β → γ) : Holds (xs.map u) n fun i => u (f i) :=
  of_toList (by simp [h.toList])

/-- Filling an array with one entry. -/
theorem const_map (hsize : xs.size = n) (c : γ) : Holds (xs.map fun _ => c) n fun _ => c :=
  ⟨by simpa using hsize, fun i hi => by simp [hsize ▸ hi]⟩

end Holds

/-- Storing values at different places succeeds and leaves the other entries as
they were. -/
theorem Loop.exists_foldlM_store {β : Type} {n : ℕ} {d : ℕ → ℕ} (v : ℕ → β) {a : Array β}
    (hlt : ∀ k < n, d k < a.size) (hinj : ∀ k < n, ∀ l < n, d k = d l → k = l) :
    ∃ ys, (List.range n).foldlM (fun a k => update? a (d k) fun _ => v k) a = some ys ∧
      ys.size = a.size ∧ (∀ k < n, ys[d k]? = some (v k)) ∧
      ∀ i, (∀ k < n, d k ≠ i) → ys[i]? = a[i]? := by
  obtain ⟨ys, hys, hsize, hdone, hother⟩ := Loop.exists_foldlM_range (n := n) (s := a)
    (f := fun a k => update? a (d k) fun _ => v k)
    (fun k ys => ys.size = a.size ∧ (∀ l < k, ys[d l]? = some (v l)) ∧
      ∀ i, (∀ l < k, d l ≠ i) → ys[i]? = a[i]?) ⟨rfl, by simp, by simp⟩ (by
      rintro k hk ys ⟨hsize, hdone, hother⟩
      have hk' : d k < ys.size := hsize.symm ▸ hlt k hk
      obtain ⟨zs, hzs⟩ := exists_update? (fun _ => v k) hk'
      refine ⟨zs, hzs, (size_of_update?_eq_some hzs).trans hsize, fun l hl => ?_, fun i hi => ?_⟩
      · rw [getElem?_of_update?_eq_some hzs]
        rcases Nat.lt_succ_iff_lt_or_eq.mp hl with hl | rfl
        · rw [if_neg fun heq => hl.ne' (hinj k hk l (hl.trans hk) heq)]
          exact hdone l hl
        · simp [hk']
      · rw [getElem?_of_update?_eq_some hzs, if_neg (hi k (Nat.lt_succ_self k))]
        exact hother i fun l hl => hi l (Nat.lt_succ_of_lt hl))
  exact ⟨ys, hys, hsize, hdone, hother⟩

end Conic
