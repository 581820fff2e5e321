import Mathlib
import Conic.Timers

/-!
# Phases beneath a timer

A timer is stopped by position: `stop` ends the innermost one, whatever it is.  So
a timer is ended by its own stop only if everything started beneath it has been
stopped before.  Here the two things are treated that are done beneath a running
timer: a *phase*, which is started and stopped, and a *pause*, in which nothing
counts.  Neither of them changes which timers run (`Alone.phase`, `Alone.pause`).

If the answers of the clock never decrease, a timer covers its phases: it has
measured, or would be charged if it were stopped now, at least the time that they
have measured together (`Covers`).  Phases and pauses keep that, and stopping the
timer turns it into a statement about the totals (`Covers.stop`).
-/

namespace Conic

/-- The time between the next two answers of a clock. -/
def Clock.gap (c : Clock) : ℕ := c.answer (c.asked + 1) - c.answer c.asked

namespace Timers

/-! ## Totals -/

/-- The time measured by the timer of a path.  A timer that was never started has
measured none. -/
def time (T : Timers) (path : List String) : ℕ := (T.elapsed? path).getD 0

section Totals

variable (running : List Running) (suspended : Bool) (path other : List String) (n : ℕ)
  (totals : List (List String × ℕ))

/-- Time that is added to a path is measured by its timer and by no other. -/
theorem elapsed?_addTo : elapsed? ⟨running, suspended, addTo path n totals⟩ other =
    if other = path then some (time ⟨running, suspended, totals⟩ path + n)
    else elapsed? ⟨running, suspended, totals⟩ other := by
  induction totals with
  | nil =>
    by_cases h : other = path
    · simp [addTo, elapsed?, time, h]
    · simp [addTo, elapsed?, h, Ne.symm h]
  | cons entry rest ih =>
    obtain ⟨p, m⟩ := entry
    rw [addTo]
    by_cases hp : p = path
    · by_cases h : other = path
      · simp [elapsed?, time, hp, h]
      · simp [elapsed?, hp, h, Ne.symm h]
    · by_cases h : p = other
      · simp [elapsed?, h, show other ≠ path from h ▸ hp]
      · simpa [elapsed?, time, hp, h] using ih

theorem time_addTo : time ⟨running, suspended, addTo path n totals⟩ other =
    time ⟨running, suspended, totals⟩ other + if other = path then n else 0 := by
  rw [time, elapsed?_addTo]
  split
  next h => rw [h, Option.getD_some]
  next => rfl

end Totals

/-- The totals alone say what has been measured. -/
theorem time_mk (running : List Running) (suspended : Bool) (T : Timers) (path : List String) :
    time ⟨running, suspended, T.totals⟩ path = T.time path := rfl

/-- Only timers of the given paths have been started. -/
def Only (paths : List (List String)) (totals : List (List String × ℕ)) : Prop :=
  ∀ entry ∈ totals, entry.1 ∈ paths

theorem mem_addTo {path : List String} {n : ℕ} {totals : List (List String × ℕ)}
    {entry : List String × ℕ} (h : entry ∈ addTo path n totals) :
    entry.1 = path ∨ entry ∈ totals := by
  induction totals with
  | nil => exact .inl (congrArg Prod.fst (List.mem_singleton.mp h))
  | cons first rest ih =>
    rw [addTo] at h
    split at h
    next hpath =>
      rcases List.mem_cons.mp h with rfl | h
      · exact .inl hpath
      · exact .inr (List.mem_cons_of_mem _ h)
    next =>
      rcases List.mem_cons.mp h with rfl | h
      · exact .inr List.mem_cons_self
      · exact (ih h).imp_right (List.mem_cons_of_mem _)

theorem Only.addTo {paths : List (List String)} {totals : List (List String × ℕ)}
    (h : Only paths totals) {path : List String} (hpath : path ∈ paths) (n : ℕ) :
    Only paths (addTo path n totals) := by
  intro entry hentry
  rcases mem_addTo hentry with heq | hmem
  · exact heq ▸ hpath
  · exact h entry hmem

/-! ## Phases and pauses -/

/-- Starts a timer and stops it. -/
def phase (key : String) (s : Clock × Timers) : Clock × Timers := stop (start key s)

/-- Suspends the running timers and resumes them. -/
def pause (s : Clock × Timers) : Clock × Timers := resume (suspend s)

/-- A phase leaves the running timers as they are, and its time is added to the path
beneath them. -/
theorem phase_eq (key : String) {s : Clock × Timers} (hs : s.2.suspended = false) :
    phase key s = ({ s.1 with asked := s.1.asked + 2 }, { s.2 with
      totals := addTo (s.2.path ++ [key]) s.1.gap (addTo (s.2.path ++ [key]) 0 s.2.totals) }) := by
  simp [phase, start, stop, charge, Clock.now, Clock.gap, path, hs]

/-- The timer `key` runs since the time `since`, alone, and it counts. -/
structure Alone (key : String) (since : ℕ) (s : Clock × Timers) : Prop where
  /-- No other timer runs. -/
  running : s.2.running = [⟨key, since⟩]
  /-- It counts. -/
  counting : s.2.suspended = false

namespace Alone

variable {key : String} {since : ℕ} {s : Clock × Timers}

theorem path_eq (h : Alone key since s) : s.2.path = [key] := by
  rw [path, h.running]
  rfl

/-- A pause charges the timer, and lets it count from the end of the pause. -/
theorem pause_eq (h : Alone key since s) : pause s = ({ s.1 with asked := s.1.asked + 2 },
    ⟨[⟨key, s.1.answer (s.1.asked + 1)⟩], false,
      addTo [key] (s.1.answer s.1.asked - since) s.2.totals⟩) := by
  simp [Timers.pause, suspend, resume, chargeAll, charge, Clock.now, h.running, h.counting]

/-- Stopping the timer charges it. -/
theorem stop_eq (h : Alone key since s) : stop s = (s.1.now.2,
    ⟨[], false, addTo [key] (s.1.answer s.1.asked - since) s.2.totals⟩) := by
  simp [stop, charge, Clock.now, path, h.running, h.counting]

theorem phase (h : Alone key since s) (beneath : String) :
    Alone key since (phase beneath s) := by
  rw [phase_eq beneath h.counting]
  exact ⟨h.running, h.counting⟩

theorem pause (h : Alone key since s) : Alone key (s.1.answer (s.1.asked + 1)) (pause s) := by
  rw [h.pause_eq]
  exact ⟨rfl, rfl⟩

end Alone

/-! ## Covering -/

/-- The time measured by the given timers beneath the timer `key`. -/
def beneath (key : String) (keys : List String) (T : Timers) : ℕ :=
  (keys.map fun k => T.time [key, k]).sum

/-- A timer that runs since the time `since` covers those beneath it, and the clock
never goes back. -/
structure Covers (key : String) (keys : List String) (since : ℕ) (s : Clock × Timers) : Prop where
  /-- The answers do not decrease. -/
  monotone : Monotone s.1.answer
  /-- The timer was started in the past. -/
  since_le : since ≤ s.1.answer s.1.asked
  /-- With what it would be charged, it has measured enough. -/
  beneath_le : beneath key keys s.2 + since ≤ s.2.time [key] + s.1.answer s.1.asked

section Covers

variable {key : String} {keys : List String}

theorem beneath_mk (running : List Running) (suspended : Bool) (T : Timers) :
    beneath key keys ⟨running, suspended, T.totals⟩ = beneath key keys T := rfl

section

variable (running : List Running) (suspended : Bool) (n : ℕ) (totals : List (List String × ℕ))

/-- Time added to a timer is not measured beneath it. -/
theorem beneath_addTo_self : beneath key keys ⟨running, suspended, addTo [key] n totals⟩ =
    beneath key keys ⟨running, suspended, totals⟩ := by
  simp [beneath, time_addTo]

/-- Time added to one of the timers beneath is measured once. -/
theorem beneath_addTo (hkeys : keys.Nodup) {k : String} (hk : k ∈ keys) :
    beneath key keys ⟨running, suspended, addTo [key, k] n totals⟩ =
      beneath key keys ⟨running, suspended, totals⟩ + n := by
  have hsum : (keys.map fun k' => if k' = k then n else 0).sum = n := by
    rw [List.sum_map_eq_nsmul_single k _ fun k' hne _ => if_neg hne,
      List.count_eq_one_of_mem hkeys hk, if_pos rfl, one_nsmul]
  simp only [beneath, time_addTo, List.cons.injEq, and_true, true_and, List.sum_map_add, hsum]

end

namespace Covers

variable {since : ℕ} {s : Clock × Timers}

/-- A phase takes no longer than the clock goes on meanwhile. -/
theorem phase (h : Covers key keys since s) (halone : Alone key since s) (hkeys : keys.Nodup)
    {k : String} (hk : k ∈ keys) : Covers key keys since (phase k s) := by
  have hnext : s.1.answer s.1.asked ≤ s.1.answer (s.1.asked + 1) := h.monotone (Nat.le_succ _)
  have hlast : s.1.answer (s.1.asked + 1) ≤ s.1.answer (s.1.asked + 2) :=
    h.monotone (Nat.le_succ _)
  have hsince := h.since_le
  have hbeneath := h.beneath_le
  rw [phase_eq k halone.counting, halone.path_eq, List.singleton_append]
  refine ⟨h.monotone, hsince.trans (hnext.trans hlast), ?_⟩
  show beneath key keys ⟨_, _, _⟩ + since ≤ time ⟨_, _, _⟩ [key] + s.1.answer (s.1.asked + 2)
  simp only [beneath_addTo _ _ _ _ hkeys hk, beneath_mk, time_addTo, time_mk, List.cons.injEq,
    List.nil_eq, reduceCtorEq, and_false, if_false, Clock.gap]
  omega

/-- Time in which the timer is charged for what it has run is time in which it covers
those beneath it. -/
theorem beneath_le_charged (h : Covers key keys since s) (running : List Running)
    (suspended : Bool) :
    let T : Timers := ⟨running, suspended, addTo [key] (s.1.answer s.1.asked - since) s.2.totals⟩
    beneath key keys T ≤ T.time [key] := by
  have hsince := h.since_le
  have hbeneath := h.beneath_le
  simp only [beneath_addTo_self, beneath_mk, time_addTo, time_mk, if_true]
  omega

/-- A pause is charged to nobody. -/
theorem pause (h : Covers key keys since s) (halone : Alone key since s) :
    Covers key keys (s.1.answer (s.1.asked + 1)) (pause s) := by
  have hlater : s.1.answer (s.1.asked + 1) ≤ s.1.answer (s.1.asked + 2) :=
    h.monotone (Nat.le_succ _)
  rw [halone.pause_eq]
  exact ⟨h.monotone, hlater, Nat.add_le_add (h.beneath_le_charged _ _) hlater⟩

/-- The clock may be asked in between. -/
theorem now (h : Covers key keys since s) : Covers key keys since (s.1.now.2, s.2) := by
  have hnext : s.1.answer s.1.asked ≤ s.1.answer (s.1.asked + 1) := h.monotone (Nat.le_succ _)
  exact ⟨h.monotone, h.since_le.trans hnext, h.beneath_le.trans (Nat.add_le_add_left hnext _)⟩

/-- A timer that has been stopped has measured at least what those beneath it have. -/
theorem stop (h : Covers key keys since s) (halone : Alone key since s) :
    beneath key keys (stop s).2 ≤ (stop s).2.time [key] := by
  rw [halone.stop_eq]
  exact h.beneath_le_charged _ _

end Covers

end Covers

end Timers

end Conic
