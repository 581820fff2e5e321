import Mathlib
import Conic.Proofs.Timers

/-!
# Timers inside timers

Timers may be started inside each other to any depth, with the same keys or different
ones, and be stopped, suspended and resumed in any order.  A timer should have measured
at least as much as those inside it together.

That holds of the totals once no timer runs.  Before, the running timers have to be
charged.  `Timers.settled` is what each timer would have measured if all of them were
charged at one time, and `Timers.Nested` says that these times cover each other.  It
stays true while time passes, since beneath a timer at most one timer runs
(`Timers.sum_owed_le`).  Starting, stopping and resuming do not change the settled times.

Suspending is different.  It asks the clock once for each running timer, the outermost
first, so a timer may be charged less than the one inside it
(`Timers.inside_lt_of_suspend`).  What is missing is no more than the time from the first
of these answers to the last one.  So after any calls a timer covers those inside it up to
the time that suspending took (`Timers.inside_le_of_calls`).
-/

namespace Conic.Timers

/-! ## What running timers are owed -/

/-- What the timer of a path is charged if all running timers are charged, each of them at
the reading for its depth. -/
def owed (reading : ℕ → ℕ) : List Running → List String → ℕ
  | [], _ => 0
  | _ :: _, [] => 0
  | r :: _, [key] => if r.key = key then reading 0 - r.since else 0
  | r :: rest, key :: next :: path =>
    if r.key = key then owed (fun d => reading (d + 1)) rest (next :: path) else 0

section Owed

variable {reading : ℕ → ℕ} {running : List Running} {t lag : ℕ}

@[simp] theorem owed_nil (reading : ℕ → ℕ) (path : List String) : owed reading [] path = 0 := by
  rw [owed]

theorem owed_cons_cons (reading : ℕ → ℕ) (r : Running) (rest : List Running) (key : String)
    {path : List String} (h : path ≠ []) : owed reading (r :: rest) (key :: path) =
      if r.key = key then owed (fun d => reading (d + 1)) rest path else 0 := by
  cases path with
  | nil => exact absurd rfl h
  | cons next path => rw [owed]

theorem owed_of_ne (reading : ℕ → ℕ) {r : Running} (rest : List Running) {key : String}
    (h : r.key ≠ key) (path : List String) : owed reading (r :: rest) (key :: path) = 0 := by
  cases path with
  | nil => rw [owed, if_neg h]
  | cons next path => rw [owed, if_neg h]

/-- The innermost timer is charged at the last reading. -/
theorem owed_concat (reading : ℕ → ℕ) (running : List Running) (r : Running)
    (path : List String) : owed reading (running ++ [r]) path = owed reading running path +
      if path = (running ++ [r]).map (·.key) then reading running.length - r.since else 0 := by
  induction running generalizing reading path with
  | nil =>
    match path with
    | [] => rfl
    | [key] => simp [owed, eq_comm]
    | key :: next :: path => simp [owed]
  | cons r' rest ih =>
    match path with
    | [] => simp [owed]
    | [key] => simp [owed]
    | key :: next :: path =>
      simp only [List.cons_append, owed_cons_cons _ _ _ _ (List.cons_ne_nil _ _), ih,
        List.map_cons, List.cons.injEq, List.length_cons]
      by_cases h : r'.key = key
      · simp [h]
      · simp [h, Ne.symm h]

/-- Nothing is owed at the time at which all timers were started. -/
theorem owed_eq_zero (h : ∀ r ∈ running, r.since = t) (path : List String) :
    owed (fun _ => t) running path = 0 := by
  induction running using List.reverseRecOn with
  | nil => rw [owed_nil]
  | append_singleton running r ih =>
    rw [owed_concat, ih fun r' hr' => h r' (by simp [hr']), h r (by simp), Nat.sub_self, ite_self]

/-- Beneath a timer at most one timer runs.  So if the readings grow by little from one depth
to the next, those beneath are charged little more than the timer itself. -/
theorem sum_owed_le (hsince : ∀ r ∈ running, r.since ≤ t) (hreading : ∀ d, t ≤ reading d)
    (hlag : ∀ d, d + 1 < running.length → reading (d + 1) ≤ reading d + lag)
    {path : List String} (hpath : path ≠ []) (keys : Finset String) :
    ∑ k ∈ keys, owed reading running (path ++ [k]) + owed (fun _ => t) running path ≤
      ∑ k ∈ keys, owed (fun _ => t) running (path ++ [k]) + owed reading running path + lag := by
  induction running generalizing reading path with
  | nil => simp
  | cons r rest ih =>
    have hr := hsince r List.mem_cons_self
    have hrest : ∀ r' ∈ rest, r'.since ≤ t := fun r' hr' => hsince r' (List.mem_cons_of_mem _ hr')
    match path with
    | [] => exact absurd rfl hpath
    | [key] =>
      by_cases hkey : r.key = key
      · cases rest with
        | nil =>
          have := hreading 0
          simp only [List.singleton_append, owed_cons_cons _ _ _ _ (List.cons_ne_nil _ _), hkey,
            if_true, Finset.sum_const_zero, owed]
          omega
        | cons r' rest =>
          have hr' := hrest r' List.mem_cons_self
          have h0 := hreading 0
          have h1 := hreading 1
          have hstep := hlag 0 (by simp)
          simp only [List.singleton_append, owed, hkey, if_true, Finset.sum_ite_eq]
          split <;> omega
      · simp [owed_of_ne _ _ hkey]
    | key :: next :: path =>
      by_cases hkey : r.key = key
      · simp only [List.cons_append, owed_cons_cons _ _ _ _ (List.cons_ne_nil _ _), hkey, if_true]
        exact ih hrest (fun d => hreading (d + 1))
          (fun d hd => hlag (d + 1) (by simpa using hd)) (List.cons_ne_nil _ _)
      · simp [owed_of_ne _ _ hkey]

end Owed

/-! ## Charging all running timers -/

section ChargeAll

/-- Charging all running timers asks the clock once for each of them and changes the totals
only. -/
theorem chargeAll_eq (outer : List String) (running : List Running) (s : Clock × Timers) :
    ∃ totals, chargeAll outer running s =
      ({ s.1 with asked := s.1.asked + running.length }, { s.2 with totals := totals }) := by
  induction running generalizing outer s with
  | nil => exact ⟨s.2.totals, rfl⟩
  | cons r rest ih =>
    obtain ⟨totals, h⟩ := ih (outer ++ [r.key]) (charge (outer ++ [r.key]) r.since s)
    refine ⟨totals, ?_⟩
    rw [chargeAll, h]
    simp [charge, Clock.now, Nat.add_comm, Nat.add_left_comm]

theorem time_charge (path : List String) (since : ℕ) (s : Clock × Timers) (other : List String) :
    (charge path since s).2.time other =
      s.2.time other + if other = path then s.1.answer s.1.asked - since else 0 := by
  simp only [charge, Clock.now, time_addTo, time_mk]

/-- Charging the timers beneath a path changes the paths that go on from there. -/
theorem time_chargeAll_of_forall_ne {outer : List String} {running : List Running}
    {s : Clock × Timers} {other : List String}
    (h : ∀ key path, other ≠ outer ++ key :: path) :
    (chargeAll outer running s).2.time other = s.2.time other := by
  induction running generalizing outer s with
  | nil => rfl
  | cons r rest ih =>
    rw [chargeAll, ih fun key path => by simpa using h r.key (key :: path), time_charge,
      if_neg (h r.key []), Nat.add_zero]

theorem time_chargeAll (outer : List String) (running : List Running) (s : Clock × Timers)
    {path : List String} (hpath : path ≠ []) :
    (chargeAll outer running s).2.time (outer ++ path) = s.2.time (outer ++ path) +
      owed (fun d => s.1.answer (s.1.asked + d)) running path := by
  induction running generalizing outer s path with
  | nil => simp [chargeAll]
  | cons r rest ih =>
    cases path with
    | nil => exact absurd rfl hpath
    | cons key path =>
      by_cases hkey : r.key = key
      · subst hkey
        rw [chargeAll]
        by_cases hpath : path = []
        · subst hpath
          rw [time_chargeAll_of_forall_ne (by simp), time_charge]
          simp [owed]
        · rw [show outer ++ r.key :: path = outer ++ [r.key] ++ path by simp, ih _ _ hpath,
            time_charge, if_neg (by simpa using hpath), owed_cons_cons _ _ _ _ hpath, if_pos rfl]
          simp [charge, Clock.now, Nat.add_assoc, Nat.add_comm 1]
      · have hother (path' : List String) : outer ++ key :: path ≠ outer ++ r.key :: path' := by
          simp [Ne.symm hkey]
        rw [chargeAll, time_chargeAll_of_forall_ne fun key' path' => by simpa using hother _,
          time_charge, if_neg (hother []), owed_of_ne _ _ hkey]

end ChargeAll

/-! ## Calls -/

section

variable {s : Clock × Timers} {outer : List Running} {r : Running}

theorem stop_of_nil (h : s.2.running = []) : stop s = s := by
  rw [stop, h, List.getLast?_nil]

theorem stop_of_suspended (h : s.2.running = outer ++ [r]) (hs : s.2.suspended = true) :
    stop s = (s.1, ⟨outer, true, s.2.totals⟩) := by
  simp [stop, h, hs]

theorem stop_of_counting (h : s.2.running = outer ++ [r]) (hs : s.2.suspended = false) :
    stop s = (s.1.now.2,
      ⟨outer, false, addTo s.2.path (s.1.answer s.1.asked - r.since) s.2.totals⟩) := by
  simp [stop, h, hs, charge, Clock.now]

theorem resume_of_suspended (hs : s.2.suspended = true) : resume s = (s.1.now.2,
    ⟨s.2.running.map fun r => { r with since := s.1.answer s.1.asked }, false, s.2.totals⟩) := by
  simp [resume, hs, Clock.now]

theorem resume_of_counting (hs : s.2.suspended = false) : resume s = s := by
  simp [resume, hs]

theorem suspend_of_suspended (hs : s.2.suspended = true) : suspend s = s := by
  simp [suspend, hs]

theorem suspend_of_counting (hs : s.2.suspended = false) : ∃ totals,
    suspend s = ({ s.1 with asked := s.1.asked + s.2.running.length },
      ⟨s.2.running, true, totals⟩) ∧
    ∀ path ≠ [], time ⟨s.2.running, true, totals⟩ path = s.2.time path +
      owed (fun d => s.1.answer (s.1.asked + d)) s.2.running path := by
  obtain ⟨totals, h⟩ := chargeAll_eq [] s.2.running s
  refine ⟨totals, by rw [suspend, hs, if_neg Bool.false_ne_true, h], fun path hpath => ?_⟩
  have htime := time_chargeAll [] s.2.running s hpath
  rw [h] at htime
  exact htime

end

/-! ## Covering -/

/-- Each timer has measured as much as any timers beneath it together, up to some time. -/
def Covering (lag : ℕ) (time : List String → ℕ) : Prop :=
  ∀ path ≠ [], ∀ keys : Finset String, ∑ k ∈ keys, time (path ++ [k]) ≤ time path + lag

theorem Covering.congr {lag : ℕ} {time time' : List String → ℕ} (h : Covering lag time)
    (heq : ∀ path ≠ [], time path = time' path) : Covering lag time' := by
  intro path hpath keys
  have := h path hpath keys
  rwa [heq path hpath, Finset.sum_congr rfl fun k _ => heq (path ++ [k]) (by simp)] at this

/-- What each timer would have measured if all running timers were charged at the time `t`. -/
def settled (t : ℕ) (T : Timers) (path : List String) : ℕ :=
  T.time path + if T.suspended then 0 else owed (fun _ => t) T.running path

/-- All running timers were started before the time `t`.  If they were charged then, each
timer would have measured as much as those beneath it, up to some time. -/
structure Nested (lag t : ℕ) (T : Timers) : Prop where
  since_le : ∀ r ∈ T.running, r.since ≤ t
  covering : Covering lag (settled t T)

namespace Nested

variable {lag t t' : ℕ} {T : Timers} {s : Clock × Timers}

theorem charged (h : Nested lag t T) {lag' : ℕ} {reading : ℕ → ℕ} (hT : T.suspended = false)
    (hreading : ∀ d, t ≤ reading d)
    (hlag : ∀ d, d + 1 < T.running.length → reading (d + 1) ≤ reading d + lag') :
    Covering (lag + lag') fun path => T.time path + owed reading T.running path := by
  intro path hpath keys
  have hcovering := h.covering path hpath keys
  have howed := sum_owed_le h.since_le hreading hlag hpath keys
  simp only [settled, hT, Bool.false_eq_true, if_false, Finset.sum_add_distrib] at hcovering ⊢
  omega

/-- Time passes for all running timers. -/
theorem later (h : Nested lag t T) (ht : t ≤ t') : Nested lag t' T := by
  refine ⟨fun r hr => (h.since_le r hr).trans ht, ?_⟩
  cases hT : T.suspended with
  | true =>
    exact h.covering.congr fun path _ => by rw [settled, settled, hT, if_pos rfl, if_pos rfl]
  | false =>
    have hcharged : Covering lag fun path => T.time path + owed (fun _ => t') T.running path :=
      h.charged hT (fun _ => ht) fun _ _ => Nat.le_add_right _ 0
    exact hcharged.congr fun path _ => by rw [settled, hT, if_neg Bool.false_ne_true]

/-- A timer that has just been started has measured nothing. -/
theorem start (key : String) (h : Nested lag (s.1.answer s.1.asked) s.2) :
    Nested lag (s.1.answer s.1.asked) (start key s).2 := by
  refine ⟨fun r hr => ?_, h.covering.congr fun path _ => ?_⟩
  · rcases List.mem_append.mp hr with hr | hr
    · exact h.since_le r hr
    · rw [List.mem_singleton.mp hr]
  · simp only [Timers.start, Clock.now, settled, time_addTo, time_mk, owed_concat, Nat.sub_self,
      ite_self, Nat.add_zero]

/-- Stopping a timer that counts charges it what it is owed. -/
theorem stop (h : Nested lag (s.1.answer s.1.asked) s.2) :
    Nested lag (s.1.answer s.1.asked) (stop s).2 := by
  rcases List.eq_nil_or_concat' s.2.running with hnil | ⟨outer, r, hrunning⟩
  · rwa [stop_of_nil hnil]
  · have hsince : ∀ r' ∈ outer, r'.since ≤ s.1.answer s.1.asked := fun r' hr' =>
      h.since_le r' (hrunning ▸ List.mem_append_left _ hr')
    cases hs : s.2.suspended with
    | true =>
      rw [stop_of_suspended hrunning hs]
      exact ⟨hsince, h.covering.congr fun path _ => by simp only [settled, hs, if_true]; rfl⟩
    | false =>
      rw [stop_of_counting hrunning hs]
      refine ⟨hsince, h.covering.congr fun path _ => ?_⟩
      simp only [settled, hs, Bool.false_eq_true, if_false, time_addTo, time_mk, hrunning,
        owed_concat, Timers.path]
      omega

/-- Resumed timers are owed nothing. -/
theorem resume (h : Nested lag (s.1.answer s.1.asked) s.2) :
    Nested lag (s.1.answer s.1.asked) (resume s).2 := by
  cases hs : s.2.suspended with
  | true =>
    have hsince : ∀ r ∈ s.2.running.map fun r => { r with since := s.1.answer s.1.asked },
        r.since = s.1.answer s.1.asked := by simp
    rw [resume_of_suspended hs]
    refine ⟨fun r hr => (hsince r hr).le, h.covering.congr fun path _ => ?_⟩
    simp only [settled, hs, if_true, Bool.false_eq_true, if_false, owed_eq_zero hsince]
    rfl
  | false => rwa [resume_of_counting hs]

/-- Suspending charges each timer at a reading of its own.  A timer may be charged less than
one beneath it, but not by more than the time that all of this takes. -/
theorem suspend (hmono : Monotone s.1.answer) (h : Nested lag (s.1.answer s.1.asked) s.2)
    (hs : s.2.suspended = false) :
    Nested (lag + (s.1.answer (s.1.asked + (s.2.running.length - 1)) - s.1.answer s.1.asked))
      (s.1.answer s.1.asked) (suspend s).2 := by
  obtain ⟨totals, hsuspend, htime⟩ := suspend_of_counting hs
  have hreading (d : ℕ) : s.1.answer s.1.asked ≤ s.1.answer (s.1.asked + d) :=
    hmono (Nat.le_add_right _ _)
  have hspread (d : ℕ) (hd : d + 1 < s.2.running.length) : s.1.answer (s.1.asked + (d + 1)) ≤
      s.1.answer (s.1.asked + d) +
        (s.1.answer (s.1.asked + (s.2.running.length - 1)) - s.1.answer s.1.asked) := by
    have hlast : s.1.answer (s.1.asked + (d + 1)) ≤
        s.1.answer (s.1.asked + (s.2.running.length - 1)) := hmono (by omega)
    have := hreading d
    omega
  rw [hsuspend]
  refine ⟨h.since_le, (h.charged hs hreading hspread).congr fun path hpath => ?_⟩
  rw [settled, if_pos rfl, Nat.add_zero, htime path hpath]

end Nested

/-! ## Lists of calls -/

/-- A call on timers. -/
inductive Call where
  /-- Starts a timer beneath the innermost running one. -/
  | start (key : String)
  /-- Stops the innermost running timer. -/
  | stop
  /-- Suspends the running timers. -/
  | suspend
  /-- Resumes the running timers. -/
  | resume

/-- The clock and the timers after a call. -/
def call (s : Clock × Timers) : Call → Clock × Timers
  | .start key => start key s
  | .stop => stop s
  | .suspend => suspend s
  | .resume => resume s

/-- The time from the first to the last reading of a call that suspends running timers.
Other calls take one reading at most. -/
def spread (s : Clock × Timers) : Call → ℕ
  | .suspend =>
    if s.2.suspended then 0
    else s.1.answer (s.1.asked + (s.2.running.length - 1)) - s.1.answer s.1.asked
  | _ => 0

/-- The time that suspending takes in a list of calls. -/
def spreads (s : Clock × Timers) : List Call → ℕ
  | [] => 0
  | c :: calls => spread s c + spreads (call s c) calls

/-- A call goes on with the same clock. -/
theorem exists_clock_call (s : Clock × Timers) (c : Call) :
    ∃ asked, s.1.asked ≤ asked ∧ (call s c).1 = { s.1 with asked := asked } := by
  cases c with
  | start key => exact ⟨s.1.asked + 1, Nat.le_succ _, rfl⟩
  | stop =>
    rw [call]
    rcases List.eq_nil_or_concat' s.2.running with hnil | ⟨outer, r, hrunning⟩
    · exact ⟨s.1.asked, le_rfl, by rw [stop_of_nil hnil]⟩
    · cases hs : s.2.suspended with
      | true => exact ⟨s.1.asked, le_rfl, by rw [stop_of_suspended hrunning hs]⟩
      | false => exact ⟨s.1.asked + 1, Nat.le_succ _, by rw [stop_of_counting hrunning hs]; rfl⟩
  | suspend =>
    rw [call]
    cases hs : s.2.suspended with
    | true => exact ⟨s.1.asked, le_rfl, by rw [suspend_of_suspended hs]⟩
    | false =>
      obtain ⟨totals, hsuspend, -⟩ := suspend_of_counting hs
      exact ⟨s.1.asked + s.2.running.length, Nat.le_add_right _ _, by rw [hsuspend]⟩
  | resume =>
    rw [call]
    cases hs : s.2.suspended with
    | true => exact ⟨s.1.asked + 1, Nat.le_succ _, by rw [resume_of_suspended hs]; rfl⟩
    | false => exact ⟨s.1.asked, le_rfl, by rw [resume_of_counting hs]⟩

/-- One call keeps what holds of the timers, up to the time that it takes. -/
theorem Nested.call {lag : ℕ} {s : Clock × Timers} (hmono : Monotone s.1.answer)
    (h : Nested lag (s.1.answer s.1.asked) s.2) (c : Call) :
    Nested (lag + spread s c) ((call s c).1.answer (call s c).1.asked) (call s c).2 := by
  have hnow : Nested (lag + spread s c) (s.1.answer s.1.asked) (Timers.call s c).2 := by
    cases c with
    | start key => exact h.start key
    | stop => exact h.stop
    | resume => exact h.resume
    | suspend =>
      cases hs : s.2.suspended with
      | true =>
        rw [spread, Timers.call, suspend_of_suspended hs, if_pos hs]
        exact h
      | false =>
        rw [spread, if_neg (by simp [hs])]
        exact h.suspend hmono hs
  obtain ⟨asked, hasked, hclock⟩ := exists_clock_call s c
  rw [hclock]
  exact hnow.later (hmono hasked)

/-- A list of calls keeps it, too. -/
theorem Nested.calls {lag : ℕ} {s : Clock × Timers} (hmono : Monotone s.1.answer)
    (h : Nested lag (s.1.answer s.1.asked) s.2) (calls : List Call) :
    let s' := calls.foldl Timers.call s
    Nested (lag + spreads s calls) (s'.1.answer s'.1.asked) s'.2 := by
  induction calls generalizing lag s with
  | nil => exact h
  | cons c calls ih =>
    obtain ⟨asked, -, hclock⟩ := exists_clock_call s c
    have := ih (hclock ▸ hmono) (h.call hmono c)
    rw [spreads, ← Nat.add_assoc]
    exact this

/-! ## Recorded paths -/

theorem nodup_addTo {totals : List (List String × ℕ)} (h : (totals.map Prod.fst).Nodup)
    (path : List String) (n : ℕ) : ((addTo path n totals).map Prod.fst).Nodup := by
  induction totals with
  | nil => exact List.nodup_singleton _
  | cons entry rest ih =>
    obtain ⟨hnew, hrest⟩ := List.nodup_cons.mp h
    rw [addTo]
    split
    next => exact h
    next hne =>
      refine List.nodup_cons.mpr ⟨fun hmem => ?_, ih hrest⟩
      obtain ⟨entry', hentry', heq⟩ := List.mem_map.mp hmem
      rcases mem_addTo hentry' with hpath | hmem
      · exact hne (heq.symm.trans hpath)
      · exact hnew (heq ▸ List.mem_map_of_mem hmem)

/-- Calls change the totals by adding to them. -/
theorem totals_call {P : List (List String × ℕ) → Prop}
    (hP : ∀ path n totals, P totals → P (addTo path n totals)) {s : Clock × Timers}
    (h : P s.2.totals) (c : Call) : P (call s c).2.totals := by
  have hall (outer : List String) (running : List Running) (s : Clock × Timers)
      (h : P s.2.totals) : P (chargeAll outer running s).2.totals := by
    induction running generalizing outer s with
    | nil => exact h
    | cons r rest ih => exact ih _ _ (hP _ _ _ h)
  cases c with
  | start key => exact hP _ _ _ h
  | stop =>
    rw [call]
    rcases List.eq_nil_or_concat' s.2.running with hnil | ⟨outer, r, hrunning⟩
    · rwa [stop_of_nil hnil]
    · cases hs : s.2.suspended with
      | true => rwa [stop_of_suspended hrunning hs]
      | false =>
        rw [stop_of_counting hrunning hs]
        exact hP _ _ _ h
  | suspend =>
    rw [call, suspend]
    split
    · exact h
    · exact hall _ _ _ h
  | resume =>
    rw [call]
    cases hs : s.2.suspended with
    | true => rwa [resume_of_suspended hs]
    | false => rwa [resume_of_counting hs]

/-- No path is recorded twice. -/
theorem nodup_calls (c : Clock) (calls : List Call) :
    ((calls.foldl call (c, initial)).2.totals.map Prod.fst).Nodup := by
  induction calls using List.reverseRecOn with
  | nil => exact List.nodup_nil
  | append_singleton calls call ih =>
    rw [List.foldl_concat]
    exact totals_call (P := fun totals => (totals.map Prod.fst).Nodup)
      (fun path n _ h => nodup_addTo h path n) ih call

/-- The keys of the timers that were started beneath a path. -/
def inside (T : Timers) (path : List String) : List String :=
  T.totals.filterMap fun entry => if entry.1.dropLast = path then entry.1.getLast? else none

theorem eq_concat_of_inside {path q : List String} {k : String}
    (h : (if q.dropLast = path then q.getLast? else none) = some k) : q = path ++ [k] := by
  split at h
  next hpath =>
    obtain ⟨init, rfl⟩ := List.getLast?_eq_some_iff.mp h
    rw [← hpath, List.dropLast_concat]
  next => cases h

theorem nodup_inside {T : Timers} (h : (T.totals.map Prod.fst).Nodup) (path : List String) :
    (T.inside path).Nodup := by
  have hfilter : T.inside path = (T.totals.map Prod.fst).filterMap fun q =>
      if q.dropLast = path then q.getLast? else none := by
    rw [inside, List.filterMap_map]
    rfl
  rw [hfilter]
  refine h.filterMap fun q q' k hk hk' => ?_
  rw [eq_concat_of_inside hk, eq_concat_of_inside hk']

theorem time_of_mem {T : Timers} (h : (T.totals.map Prod.fst).Nodup)
    {entry : List String × ℕ} (hentry : entry ∈ T.totals) : T.time entry.1 = entry.2 := by
  rw [time, elapsed?]
  cases hfind : T.totals.find? fun p => p.1 == entry.1 with
  | none => exact absurd (beq_self_eq_true _) (List.find?_eq_none.mp hfind entry hentry)
  | some found =>
    have hkey : found.1 = entry.1 := by simpa using List.find?_some hfind
    rw [List.inj_on_of_nodup_map h (List.mem_of_find?_eq_some hfind) hentry hkey]
    rfl

/-- The total is the time of the timers that were started with none running. -/
theorem total_eq_sum {T : Timers} (h : (T.totals.map Prod.fst).Nodup) :
    T.total = ((T.inside []).map fun k => T.time [k]).sum := by
  have hsum (l : List (List String × ℕ)) (hl : l ⊆ T.totals) :
      (l.filter fun p => p.1.length == 1).foldr (fun p n => p.2 + n) 0 =
        ((inside ⟨[], false, l⟩ []).map fun k => T.time [k]).sum := by
    induction l with
    | nil => rfl
    | cons entry l ih =>
      obtain ⟨q, n⟩ := entry
      obtain ⟨hmem, hrest⟩ := List.cons_subset.mp hl
      have htime := time_of_mem h hmem
      match q with
      | [] => simpa [inside] using ih hrest
      | [key] => simpa [inside, htime] using ih hrest
      | key :: next :: q => simpa [inside] using ih hrest
  exact hsum T.totals (List.Subset.refl _)

/-- Whatever calls are made and whatever the clock answers, as long as it never goes back:
when no timer runs, each has measured as much as those inside it together, up to the time
that suspending took.  The total is what the outermost timers have measured. -/
theorem inside_le_of_calls (c : Clock) (hmono : Monotone c.answer) (calls : List Call)
    (hidle : (calls.foldl call (c, initial)).2.running = []) :
    let T := (calls.foldl call (c, initial)).2
    (∀ path ≠ [], ((T.inside path).map fun k => T.time (path ++ [k])).sum ≤
      T.time path + spreads (c, initial) calls) ∧
    T.total = ((T.inside []).map fun k => T.time [k]).sum := by
  intro T
  have hnodup := nodup_calls c calls
  have hinitial : Nested 0 (c.answer c.asked) initial :=
    ⟨by simp [initial], fun path _ keys => by simp [settled, initial, time, elapsed?]⟩
  have hcovering := (Nested.calls (s := (c, initial)) hmono hinitial calls).covering
  refine ⟨fun path hpath => ?_, total_eq_sum hnodup⟩
  have hsettled (t : ℕ) (q : List String) : settled t T q = T.time q := by
    rw [settled, hidle, owed_nil, ite_self, Nat.add_zero]
  have := hcovering path hpath (T.inside path).toFinset
  rw [List.sum_toFinset _ (nodup_inside hnodup path), Nat.zero_add] at this
  simpa only [T, hsettled] using this

/-- Suspending may charge a timer less than the one inside it, if the clock goes on between
its readings. -/
theorem inside_lt_of_suspend :
    let c : Clock := ⟨fun n => if n < 3 then 0 else 1, 0⟩
    let calls : List Call := [.start "solve", .start "step", .suspend, .stop, .stop]
    let T := (calls.foldl call (c, initial)).2
    Monotone c.answer ∧ T.running = [] ∧ T.elapsed? ["solve"] = some 0 ∧
      T.elapsed? ["solve", "step"] = some 1 ∧ spreads (c, initial) calls = 1 := by
  refine ⟨fun m n hmn => ?_, rfl, rfl, rfl, rfl⟩
  dsimp only
  split <;> split <;> omega

end Conic.Timers
