import Mathlib
import Conic.Fault

/-!
# Loops that can fail

A loop over checked accesses is a `foldlM` in `Option`.  To prove that it
succeeds one needs an invariant, since an access is in bounds only because of
what the earlier passes have left.  `Loop.exists_foldlM` takes an invariant that
is indexed by the entries done so far, and gives success together with the
invariant of the whole list.  `Loop.exists_foldlM_range` is its form for a loop
that counts.

If the invariant is not needed, `Loop.foldlM_eq_some` turns the loop into a
plain fold.  `Loop.of_foldlM_eq_some` is for loops whose success is given.

The module also opens the checked accesses and the two kinds of results: an
`Except` that is `ok`, and a fault that is none.
-/

namespace Conic

/-! ## Checked access -/

section

variable {β : Type}

theorem update?_of_lt {v : Array β} {i : ℕ} (f : β → β) (h : i < v.size) :
    update? v i f = some (v.modify i f) := by
  simp only [update?, h, dif_pos, Option.some.injEq]
  apply Array.ext (by simp)
  intro j hj _
  rw [Array.getElem_modify, Array.getElem_set]
  by_cases hij : i = j
  · subst hij
    simp
  · simp [hij]

theorem lt_size_of_update?_eq_some {xs ys : Array β} {i : ℕ} {f : β → β}
    (h : update? xs i f = some ys) : i < xs.size := by
  by_contra hi
  rw [update?_eq_none_iff.mpr (not_lt.mp hi)] at h
  cases h

/-- The entries after an update. -/
theorem getElem?_of_update?_eq_some {xs ys : Array β} {i : ℕ} {f : β → β}
    (h : update? xs i f = some ys) (j : ℕ) : ys[j]? = if i = j then xs[j]?.map f else xs[j]? := by
  rw [update?_of_lt f (lt_size_of_update?_eq_some h), Option.some.injEq] at h
  rw [← h, Array.getElem?_modify]

/-- The entry that has been replaced. -/
theorem getElem?_of_update?_const {xs ys : Array β} {i : ℕ} {b : β}
    (h : update? xs i (fun _ => b) = some ys) : ys[i]? = some b := by
  rw [getElem?_of_update?_eq_some h, if_pos rfl,
    Array.getElem?_eq_getElem (lt_size_of_update?_eq_some h)]
  rfl

theorem exists_update? {xs : Array β} {i : ℕ} (f : β → β) (h : i < xs.size) :
    ∃ ys, update? xs i f = some ys := ⟨_, update?_of_lt f h⟩

theorem slice?_of_le {xs : Array β} {a b : ℕ} (hab : a ≤ b) (hb : b ≤ xs.size) :
    slice? xs a b = some (xs.extract a b) :=
  slice?_eq_some_iff.mpr ⟨⟨hab, hb⟩, rfl⟩

end

namespace Loop

variable {β γ : Type}

/-! ## Loops in `Option` -/

/-- A loop succeeds from every state in `R` if it follows an abstract one.  What the
abstract loop computes is the same for all of these states. -/
theorem exists_foldlM_of_simulation {τ : Type} {f : β → γ → Option β} (I : List γ → τ → Prop)
    (R : β → List γ → τ → β → Prop) {l : List γ} {t : τ} (h₀ : I [] t)
    (hstep : ∀ done x rest, l = done ++ x :: rest → ∀ t, I done t → ∃ t', I (done ++ [x]) t' ∧
      ∀ s₀ s, R s₀ done t s → ∃ s', f s x = some s' ∧ R s₀ (done ++ [x]) t' s') :
    ∃ t', I l t' ∧ ∀ s, R s [] t s → ∃ s', l.foldlM f s = some s' ∧ R s l t' s' := by
  suffices H : ∀ (rest done : List γ) (t : τ), done ++ rest = l → I done t → ∃ t', I l t' ∧
      ∀ s₀ s, R s₀ done t s → ∃ s', rest.foldlM f s = some s' ∧ R s₀ l t' s' by
    obtain ⟨t', ht', hR⟩ := H l [] t rfl h₀
    exact ⟨t', ht', fun s => hR s s⟩
  intro rest
  induction rest with
  | nil =>
    rintro done t rfl ht
    exact ⟨t, by simpa using ht, fun s₀ s hs => ⟨s, rfl, by simpa using hs⟩⟩
  | cons x rest ih =>
    rintro done t rfl ht
    obtain ⟨t', ht', hR⟩ := hstep done x rest rfl t ht
    obtain ⟨t'', ht'', hR'⟩ := ih (done ++ [x]) t' (by simp) ht'
    refine ⟨t'', ht'', fun s₀ s hs => ?_⟩
    obtain ⟨s', hs', hR₁⟩ := hR s₀ s hs
    obtain ⟨s'', hs'', hR₂⟩ := hR' s₀ s' hR₁
    exact ⟨s'', by simp [hs', hs''], hR₂⟩

/-- A loop succeeds if each pass succeeds from what the passes before it
establish. -/
theorem exists_foldlM {f : β → γ → Option β} (I : List γ → β → Prop) {l : List γ} {s : β}
    (h₀ : I [] s)
    (hstep : ∀ done x rest, l = done ++ x :: rest → ∀ s, I done s →
      ∃ s', f s x = some s' ∧ I (done ++ [x]) s') :
    ∃ s', l.foldlM f s = some s' ∧ I l s' := by
  -- the loop follows itself
  obtain ⟨t, ht, hloop⟩ := exists_foldlM_of_simulation (f := f) I (fun _ _ t s => s = t) h₀
    fun done x rest heq t ht => by
      obtain ⟨s', hs', hI⟩ := hstep done x rest heq t ht
      exact ⟨s', hI, fun _ s hs => ⟨s', hs ▸ hs', rfl⟩⟩
  obtain ⟨s', hs', rfl⟩ := hloop s rfl
  exact ⟨s', hs', ht⟩

/-- The same for a loop that counts from zero. -/
theorem exists_foldlM_range {f : β → ℕ → Option β} (I : ℕ → β → Prop) {n : ℕ} {s : β}
    (h₀ : I 0 s) (hstep : ∀ k < n, ∀ s, I k s → ∃ s', f s k = some s' ∧ I (k + 1) s') :
    ∃ s', (List.range n).foldlM f s = some s' ∧ I n s' := by
  induction n with
  | zero => exact ⟨s, rfl, h₀⟩
  | succ n ih =>
    obtain ⟨t, ht, hI⟩ := ih fun k hk => hstep k (Nat.lt_succ_of_lt hk)
    obtain ⟨t', ht', hI'⟩ := hstep n (Nat.lt_succ_self n) t hI
    exact ⟨t', by simp [List.range_succ, ht, ht'], hI'⟩

/-- The same for a loop that counts down to zero. -/
theorem exists_foldlM_range_reverse {f : β → ℕ → Option β} (I : ℕ → β → Prop) {n : ℕ} {s : β}
    (h₀ : I n s) (hstep : ∀ k < n, ∀ s, I (k + 1) s → ∃ s', f s k = some s' ∧ I k s') :
    ∃ s', (List.range n).reverse.foldlM f s = some s' ∧ I 0 s' := by
  induction n generalizing s with
  | zero => exact ⟨s, rfl, h₀⟩
  | succ n ih =>
    obtain ⟨t, ht, hI⟩ := hstep n (Nat.lt_succ_self n) s h₀
    obtain ⟨t', ht', hI'⟩ := ih hI fun k hk => hstep k (Nat.lt_succ_of_lt hk)
    refine ⟨t', ?_, hI'⟩
    rw [List.range_succ, List.reverse_append, List.reverse_singleton, List.singleton_append,
      List.foldlM_cons, ht]
    exact ht'

/-- A loop whose passes succeed as long as `P` holds is a plain fold. -/
theorem foldlM_eq_some {f : β → γ → Option β} (g : β → γ → β) (P : β → Prop) {l : List γ} {s : β}
    (h₀ : P s) (hstep : ∀ s, P s → ∀ x ∈ l, f s x = some (g s x) ∧ P (g s x)) :
    l.foldlM f s = some (l.foldl g s) := by
  induction l generalizing s with
  | nil => rfl
  | cons x l ih =>
    obtain ⟨hx, hP⟩ := hstep s h₀ x (by simp)
    rw [List.foldlM_cons, hx, List.foldl_cons]
    exact ih hP fun s hs y hy => hstep s hs y (by simp [hy])

/-- What every successful pass keeps holds after a successful loop. -/
theorem of_foldlM_eq_some {f : β → γ → Option β} (P : β → Prop) {l : List γ} {s s' : β}
    (h₀ : P s) (hstep : ∀ s x s', P s → f s x = some s' → P s') (h : l.foldlM f s = some s') :
    P s' := by
  induction l generalizing s with
  | nil =>
    cases h
    exact h₀
  | cons x l ih =>
    rw [List.foldlM_cons, Option.bind_eq_bind, Option.bind_eq_some_iff] at h
    obtain ⟨t, ht, h⟩ := h
    exact ih (hstep s x t h₀ ht) h

/-- The same for a loop that cannot fail. -/
theorem foldl_induction {f : β → γ → β} (I : List γ → β → Prop) {l : List γ} {s : β}
    (h₀ : I [] s)
    (hstep : ∀ done x rest, l = done ++ x :: rest → ∀ s, I done s → I (done ++ [x]) (f s x)) :
    I l (l.foldl f s) := by
  suffices H : ∀ (rest done : List γ) (s : β), done ++ rest = l → I done s →
      I l (rest.foldl f s) from H l [] s rfl h₀
  intro rest
  induction rest with
  | nil =>
    rintro done s rfl hs
    simpa using hs
  | cons x rest ih =>
    rintro done s rfl hs
    exact ih (done ++ [x]) (f s x) (by simp) (hstep done x rest rfl s hs)

/-- A loop succeeds together with another one whose passes are related to its own. -/
theorem exists_foldlM_of_rel {δ : Type} {f : β → γ → Option β} {g : δ → γ → Option δ}
    (R : β → δ → Prop) {l : List γ} {s s' : β} {t : δ} (h₀ : R s t)
    (hstep : ∀ x ∈ l, ∀ s t s', R s t → f s x = some s' → ∃ t', g t x = some t' ∧ R s' t')
    (h : l.foldlM f s = some s') : ∃ t', l.foldlM g t = some t' ∧ R s' t' := by
  induction l generalizing s t with
  | nil =>
    cases h
    exact ⟨t, rfl, h₀⟩
  | cons x l ih =>
    rw [List.foldlM_cons, Option.bind_eq_bind, Option.bind_eq_some_iff] at h
    obtain ⟨u, hu, h⟩ := h
    obtain ⟨t₁, ht₁, hR⟩ := hstep x (by simp) s t u h₀ hu
    obtain ⟨t', ht', hR'⟩ := ih hR (fun y hy => hstep y (by simp [hy])) h
    exact ⟨t', by simp [ht₁, ht'], hR'⟩

/-- A loop over the parts of each entry is one loop over all parts. -/
theorem foldlM_flatMap {δ : Type} (f : β → δ → Option β) (parts : γ → List δ) (l : List γ)
    (s : β) : (l.flatMap parts).foldlM f s = l.foldlM (fun s x => (parts x).foldlM f s) s := by
  induction l generalizing s with
  | nil => rfl
  | cons x l ih =>
    rw [List.flatMap_cons, List.foldlM_append, List.foldlM_cons]
    exact bind_congr fun s' => ih s'

/-- Loops that agree on every entry are the same. -/
theorem foldlM_congr {f g : β → γ → Option β} {l : List γ} (h : ∀ x ∈ l, ∀ s, f s x = g s x)
    (s : β) : l.foldlM f s = l.foldlM g s := by
  induction l generalizing s with
  | nil => rfl
  | cons x l ih =>
    rw [List.foldlM_cons, List.foldlM_cons, h x (by simp)]
    exact bind_congr fun s' => ih (fun y hy => h y (by simp [hy])) s'

/-- Reading a list entry by entry succeeds if every entry can be read. -/
theorem mapM_eq_some {f : γ → Option β} (g : γ → β) {l : List γ}
    (h : ∀ x ∈ l, f x = some (g x)) : l.mapM f = some (l.map g) := by
  induction l with
  | nil => rfl
  | cons x l ih =>
    rw [List.mapM_cons, h x (by simp), ih fun y hy => h y (by simp [hy])]
    rfl

theorem length_of_mapM_eq_some {f : γ → Option β} {l : List γ} {l' : List β}
    (h : l.mapM f = some l') : l'.length = l.length := by
  induction l generalizing l' with
  | nil =>
    obtain rfl := Option.some.inj h
    rfl
  | cons x l ih =>
    rw [List.mapM_cons] at h
    obtain ⟨b, -, h⟩ := Option.bind_eq_some_iff.mp h
    obtain ⟨bs, hbs, h⟩ := Option.bind_eq_some_iff.mp h
    obtain rfl := Option.some.inj h
    rw [List.length_cons, List.length_cons, ih hbs]

end Loop

/-! ## Results -/

section

variable {ε ε' β γ : Type}

theorem bind_eq_ok_iff {x : Except ε β} {f : β → Except ε γ} {c : γ} :
    x >>= f = .ok c ↔ ∃ b, x = .ok b ∧ f b = .ok c := by
  cases x with
  | error e => simp [bind, Except.bind]
  | ok b => simp [bind, Except.bind]

theorem bind_eq_error_iff {x : Except ε β} {f : β → Except ε γ} {e : ε} :
    x >>= f = .error e ↔ x = .error e ∨ ∃ b, x = .ok b ∧ f b = .error e := by
  cases x with
  | error e => simp [bind, Except.bind]
  | ok b => simp [bind, Except.bind]

/-- What every successful pass keeps holds after a successful loop, where it may
depend on the list of passes made. -/
theorem Loop.of_foldlM_eq_ok {f : β → γ → Except ε β} (I : List γ → β → Prop) {l : List γ}
    {s s' : β} (h₀ : I [] s)
    (hstep : ∀ done x s s', I done s → f s x = .ok s' → I (done ++ [x]) s')
    (h : l.foldlM f s = .ok s') : I l s' := by
  suffices H : ∀ (rest done : List γ) (s : β), I done s → rest.foldlM f s = .ok s' →
      I (done ++ rest) s' from H l [] s h₀ h
  intro rest
  induction rest with
  | nil =>
    intro done s hs h
    cases h
    rwa [List.append_nil]
  | cons x rest ih =>
    intro done s hs h
    rw [List.foldlM_cons] at h
    obtain ⟨t, ht, h⟩ := bind_eq_ok_iff.mp h
    rw [List.append_cons]
    exact ih _ t (hstep done x s t hs ht) h

/-- A loop whose failures have causes succeeds if each pass succeeds from what the
passes before it establish. -/
theorem Loop.exists_foldlM_ok {f : β → γ → Except ε β} (I : List γ → β → Prop) {l : List γ} {s : β}
    (h₀ : I [] s)
    (hstep : ∀ done x rest, l = done ++ x :: rest → ∀ s, I done s →
      ∃ s', f s x = .ok s' ∧ I (done ++ [x]) s') :
    ∃ s', l.foldlM f s = .ok s' ∧ I l s' := by
  suffices H : ∀ (rest done : List γ) (s : β), done ++ rest = l → I done s →
      ∃ s', rest.foldlM f s = .ok s' ∧ I l s' from H l [] s rfl h₀
  intro rest
  induction rest with
  | nil =>
    rintro done s rfl hs
    exact ⟨s, rfl, by rwa [List.append_nil]⟩
  | cons x rest ih =>
    rintro done s rfl hs
    obtain ⟨t, ht, hI⟩ := hstep done x rest rfl s hs
    obtain ⟨s', hs', hI'⟩ := ih (done ++ [x]) t (by simp) hI
    exact ⟨s', by rw [List.foldlM_cons, ht]; exact hs', hI'⟩

/-- A list is mapped if each of its members is. -/
theorem Loop.mapM_eq_ok_iff {f : γ → Except ε β} {l : List γ} {l' : List β} :
    l.mapM f = .ok l' ↔ l.map f = l'.map .ok := by
  induction l generalizing l' with
  | nil =>
    rw [List.mapM_nil, List.map_nil, eq_comm (a := []), List.map_eq_nil_iff]
    exact ⟨fun h => (Except.ok.inj h).symm, fun h => h ▸ rfl⟩
  | cons x l ih =>
    simp only [List.mapM_cons, bind_eq_ok_iff, ih]
    constructor
    · rintro ⟨b, hb, bs, hbs, h⟩
      cases h
      rw [List.map_cons, List.map_cons, hb, hbs]
    · intro h
      cases l' with
      | nil => cases h
      | cons b bs =>
        obtain ⟨hb, hbs⟩ := List.cons.inj h
        exact ⟨b, hb, bs, hbs, rfl⟩

theorem Loop.mapM_eq_ok {f : γ → Except ε β} (g : γ → β) {l : List γ}
    (h : ∀ x ∈ l, f x = .ok (g x)) : l.mapM f = .ok (l.map g) := by
  rw [Loop.mapM_eq_ok_iff, List.map_map]
  exact List.map_congr_left h

theorem Loop.exists_of_mapM_eq_ok {f : γ → Except ε β} {l : List γ} {l' : List β}
    (h : l.mapM f = .ok l') {x : γ} (hx : x ∈ l) : ∃ b ∈ l', f x = .ok b := by
  have hmem : f x ∈ l'.map .ok := Loop.mapM_eq_ok_iff.mp h ▸ List.mem_map_of_mem hx
  obtain ⟨b, hb, heq⟩ := List.mem_map.mp hmem
  exact ⟨b, hb, heq.symm⟩

theorem Fault.ofOption_eq_ok_iff {x : Option β} {b : β} :
    (Fault.ofOption x : Except (Fault ε) β) = .ok b ↔ x = some b := by
  cases x <;> simp [Fault.ofOption]

theorem Fault.lift_eq_ok_iff {x : Except ε β} {b : β} : Fault.lift x = .ok b ↔ x = .ok b := by
  cases x <;> simp [Fault.lift]

theorem Fault.mapCause_eq_ok_iff {f : ε → ε'} {x : Except (Fault ε) β} {b : β} :
    Fault.mapCause f x = .ok b ↔ x = .ok b := by
  cases x with
  | ok b => simp [Fault.mapCause]
  | error e => cases e <;> simp [Fault.mapCause]

/-- A guard that fails or goes on. -/
theorem guard_eq_ok_iff {c : Prop} [Decidable c] {e : ε} {f : β → Except ε γ} {g : Except ε γ}
    {r : γ} : (if c then (throw e : Except ε β) >>= f else g) = .ok r ↔ ¬ c ∧ g = .ok r := by
  by_cases h : c
  · simp [h, bind, Except.bind, throw, throwThe, MonadExceptOf.throw]
  · simp [h]

theorem guard_eq_error_iff {c : Prop} [Decidable c] {e e' : ε} {f : β → Except ε γ}
    {g : Except ε γ} : (if c then (throw e : Except ε β) >>= f else g) = .error e' ↔
      c ∧ e = e' ∨ ¬ c ∧ g = .error e' := by
  by_cases h : c
  · simp [h, bind, Except.bind, throw, throwThe, MonadExceptOf.throw]
  · simp [h]

/-- A loop that only checks succeeds if every pass does. -/
theorem forIn_eq_ok_iff {l : List γ} {f : γ → Unit → Except ε (ForInStep Unit)}
    (hf : ∀ x, f x () ≠ .ok (.done ())) {u : Unit} :
    forIn l () f = .ok u ↔ ∀ x ∈ l, f x () = .ok (.yield ()) := by
  induction l with
  | nil => simp [pure, Except.pure]
  | cons x l ih =>
    rw [List.forIn_cons, bind_eq_ok_iff, List.forall_mem_cons]
    constructor
    · rintro ⟨step, hx, h⟩
      cases step with
      | done => exact absurd hx (hf x)
      | yield => exact ⟨hx, ih.mp h⟩
    · rintro ⟨hx, h⟩
      exact ⟨_, hx, ih.mpr h⟩

end

end Conic
