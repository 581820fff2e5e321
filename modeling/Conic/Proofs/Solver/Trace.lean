import Conic.Proofs.Solver.Outcome

/-!
# The passes of a solve

A pass does not look at what surrounds it: `Task.next` is what it makes of an
iterate, whatever the clock, the sink and the observer are (`Task.advance_eq`).
So the iterates of a run are known beforehand, and clock and limits only decide
at which of them the run ends.  `Task.Passes` is the list of the iterates, and
`Task.Ends` says what the last of them decides.

`Task.exists_passes` says that every run has these passes and ends like that.  No
law of arithmetic is needed for it.
-/

namespace Conic

variable {α σ ω : Type} [Scalar α]

/-- Shows records to the observer, one after the other. -/
def Callbacks.observeAll (c : Callbacks α ω) (rs : List (Record α)) (seen : ω) : ω :=
  rs.foldl (fun seen r => c.observe r seen) seen

/-! ## One pass -/

namespace Task

/-- What a pass makes of an iterate. -/
def next (t : Task α ω) (it : Iterate α) : Except (SolverError α) (Iterate α) :=
  match ScaledPoint.compute t.program t.settings it.cones it.schur it.point with
  | .error e => .error (.numericalBreakdown e)
  | .ok P =>
    match Direction.ofPass t.program t.settings (.of t.program it.point) it.point P
        (Iterate.centre t.program it.point) with
    | .error e => .error (.numericalBreakdown e)
    | .ok (d, sigma) => it.move t.settings P d sigma

/-- A pass changes the timers, and nothing else that surrounds it. -/
theorem advance_eq (t : Task α ω) (it : Iterate α) (h : Surroundings σ ω) :
    ∃ timing, t.advance it h = (t.next it, { h with timing := timing }) := by
  rw [advance, next]
  simp only
  cases ScaledPoint.compute t.program t.settings it.cones it.schur it.point with
  | error e => exact ⟨_, rfl⟩
  | ok P =>
    simp only
    cases Direction.ofPass t.program t.settings (.of t.program it.point) it.point P
        (Iterate.centre t.program it.point) with
    | error e => exact ⟨_, rfl⟩
    | ok d => exact ⟨_, rfl⟩

variable {t : Task α ω} {it it' : Iterate α}

/-- A pass that takes a step has scaled the point and computed a direction. -/
theorem next_eq_ok_iff : t.next it = .ok it' ↔ ∃ P d sigma,
    ScaledPoint.compute t.program t.settings it.cones it.schur it.point = .ok P ∧
    Direction.ofPass t.program t.settings (.of t.program it.point) it.point P
      (Iterate.centre t.program it.point) = .ok (d, sigma) ∧
    it.move t.settings P d sigma = .ok it' := by
  rw [next]
  cases ScaledPoint.compute t.program t.settings it.cones it.schur it.point with
  | error e => simp
  | ok P =>
    simp only
    cases hd : Direction.ofPass t.program t.settings (.of t.program it.point) it.point P
        (Iterate.centre t.program it.point) with
    | error e => simp [hd]
    | ok d =>
      obtain ⟨d, sigma⟩ := d
      simp [hd]

/-- A pass that takes no step could not scale its point or not compute a direction, or
its step is too short. -/
theorem exists_of_next_eq_error {e : SolverError α} (h : t.next it = .error e) :
    (∃ cause, e = .numericalBreakdown cause ∧
      ScaledPoint.compute t.program t.settings it.cones it.schur it.point = .error cause) ∨
    (∃ cause P, e = .numericalBreakdown cause ∧
      Direction.ofPass t.program t.settings (.of t.program it.point) it.point P
        (Iterate.centre t.program it.point) = .error cause) ∨
    ∃ step, e = .insufficientProgress step := by
  rw [next] at h
  split at h
  next hcompute => exact .inl ⟨_, (Except.error.inj h).symm, hcompute⟩
  next =>
    split at h
    next hdirection => exact .inr (.inl ⟨_, _, (Except.error.inj h).symm, hdirection⟩)
    next =>
      rw [Iterate.move] at h
      split at h
      · exact .inr (.inr ⟨_, (Except.error.inj h).symm⟩)
      · cases h

/-- A pass that takes no step has broken down, or its step is too short. -/
theorem cases_of_next_eq_error {e : SolverError α} (h : t.next it = .error e) :
    (∃ cause, e = .numericalBreakdown cause) ∨ ∃ step, e = .insufficientProgress step := by
  rcases exists_of_next_eq_error h with ⟨cause, he, -⟩ | ⟨cause, _, he, -⟩ | hstep
  · exact .inl ⟨cause, he⟩
  · exact .inl ⟨cause, he⟩
  · exact .inr hstep

/-- A pass counts itself. -/
theorem iteration_of_next (h : t.next it = .ok it') : it'.iteration = it.iteration + 1 := by
  obtain ⟨P, d, sigma, -, -, hmove⟩ := next_eq_ok_iff.mp h
  rw [Iterate.move] at hmove
  split at hmove
  · cases hmove
  · cases hmove
    rfl

/-! ## The passes of a run -/

/-- The record of a pass. -/
def record (t : Task α ω) (it : Iterate α) : Record α := (it.measures t.program).record

/-- No predicate holds for the measures of an iterate, and the caller does not ask
to stop there. -/
@[mk_iff]
structure Undecided (t : Task α ω) (it : Iterate α) : Prop where
  notSolved : (it.measures t.program).isSolved t.settings = false
  notInfeasible : (t.record it).isInfeasible t.settings = false
  notIllPosed : (t.record it).isIllPosed t.settings (Iterate.baseline t.program) = false
  notStopped : t.callbacks.stops (t.record it) = false

/-- The passes from an iterate on: those that are followed by another one, and the
last one. -/
inductive Passes (t : Task α ω) : Iterate α → List (Iterate α) → Iterate α → Prop
  /-- No pass follows. -/
  | last (it : Iterate α) : Passes t it [] it
  /-- An iterate that is not decided is moved. -/
  | next {it it' last : Iterate α} {its : List (Iterate α)} : t.Undecided it →
    t.next it = .ok it' → Passes t it' its last → Passes t it (it :: its) last

/-- The records of passes. -/
def records (t : Task α ω) (its : List (Iterate α)) (last : Iterate α) : List (Record α) :=
  (its ++ [last]).map t.record

/-- What the last pass decides.  The predicates come first, then the caller, then
the limit of the iterations, and then the time and the pass itself. -/
def Ends {β : Type} (t : Task α ω) (it : Iterate α) (found : β)
    (result : Except (SolverError α) β) : Prop :=
  if (it.measures t.program).isSolved t.settings then result = .ok found
  else if (t.record it).isInfeasible t.settings then result = .error .programInfeasible
  else if (t.record it).isIllPosed t.settings (Iterate.baseline t.program) then
    result = .error .illPosed
  else if t.callbacks.stops (t.record it) then result = .error .callback
  else if it.iteration = t.settings.maxIter then result = .error (.maxIterations it.iteration)
  else result = .error .maxTime ∨ ∃ e, t.next it = .error e ∧ result = .error e

/-- A result that follows another one is decided in the same way. -/
theorem Ends.imp {β γ : Type} {found : β} {found' : γ} {result : Except (SolverError α) β}
    {result' : Except (SolverError α) γ} (h : t.Ends it found result)
    (hok : result = .ok found → result' = .ok found')
    (herror : ∀ e, result = .error e → result' = .error e) : t.Ends it found' result' := by
  unfold Ends at h ⊢
  split_ifs at h ⊢
  · exact hok h
  · exact herror _ h
  · exact herror _ h
  · exact herror _ h
  · exact herror _ h
  · exact h.imp (herror _) fun ⟨e, hnext, he⟩ => ⟨e, hnext, herror e he⟩

/-- Only what was found can be returned, and only if it is a solution. -/
theorem Ends.of_ok {β : Type} {found b : β} (h : t.Ends it found (.ok b)) :
    (it.measures t.program).isSolved t.settings = true ∧ b = found := by
  unfold Ends at h
  split_ifs at h with hsolved
  · exact ⟨hsolved, Except.ok.inj h⟩
  · rcases h with h | ⟨e, -, h⟩ <;> cases h

/-- An error that no predicate, limit or caller has caused is that of the pass. -/
theorem Ends.of_error {β : Type} {found : β} {e : SolverError α}
    (h : t.Ends it found (.error e)) : e = .programInfeasible ∨ e = .illPosed ∨ e = .callback ∨
      e = .maxIterations it.iteration ∨ e = .maxTime ∨ t.next it = .error e := by
  unfold Ends at h
  split_ifs at h
  · exact .inl (Except.error.inj h)
  · exact .inr (.inl (Except.error.inj h))
  · exact .inr (.inr (.inl (Except.error.inj h)))
  · exact .inr (.inr (.inr (.inl (Except.error.inj h))))
  · rcases h with h | ⟨e', hnext, h⟩
    · exact .inr (.inr (.inr (.inr (.inl (Except.error.inj h)))))
    · cases h
      exact .inr (.inr (.inr (.inr (.inr hnext))))

namespace Passes

variable {its : List (Iterate α)} {last : Iterate α}

/-- All passes but the last one are undecided. -/
theorem undecided (h : t.Passes it its last) : ∀ it' ∈ its, t.Undecided it' := by
  induction h with
  | last => simp
  | next hundecided _ _ ih => simpa using ⟨hundecided, ih⟩

/-- What every pass keeps holds of all iterates. -/
theorem forall_mem {I : Iterate α → Prop} (h : t.Passes it its last) (hit : I it)
    (hstep : ∀ it it', I it → t.Undecided it → t.next it = .ok it' → I it') :
    ∀ it' ∈ its ++ [last], I it' := by
  induction h with
  | last => simpa using hit
  | next hundecided hnext _ ih =>
    exact List.forall_mem_cons.mpr ⟨hit, ih (hstep _ _ hit hundecided hnext)⟩

/-- In particular of the last one. -/
theorem invariant {I : Iterate α → Prop} (h : t.Passes it its last) (hit : I it)
    (hstep : ∀ it it', I it → t.Undecided it → t.next it = .ok it' → I it') : I last :=
  h.forall_mem hit hstep last (by simp)

end Passes

/-- At an undecided pass only the limits and the pass itself can end a run. -/
theorem ends_of_undecided {β : Type} {found : β} {result : Except (SolverError α) β}
    (hundecided : t.Undecided it) (h : if it.iteration = t.settings.maxIter then
        result = .error (.maxIterations it.iteration)
      else result = .error .maxTime ∨ ∃ e, t.next it = .error e ∧ result = .error e) :
    t.Ends it found result := by
  obtain ⟨hsolved, hinfeasible, hillPosed, hstops⟩ := hundecided
  simpa [Ends, hsolved, hinfeasible, hillPosed, hstops] using h

variable [Written α] [Sink σ]

/-- A run ends at a pass that is decided. -/
theorem run_of_decided {n : ℕ} (h : Surroundings σ ω) (hdecided : ¬ t.Undecided it) :
    t.Ends it (it.point, t.record it) (t.run n it h).1 ∧
      (t.run n it h).2 = t.show (t.record it) h := by
  have hrecord : t.record it = (it.measures t.program).record := rfl
  rw [run.eq_def]
  simp only [Measures.status]
  cases hsolved : (it.measures t.program).isSolved t.settings with
  | true => simp [Ends, hsolved, hrecord]
  | false =>
    cases hinfeasible : (it.measures t.program).record.isInfeasible t.settings with
    | true => simp [Ends, hsolved, hinfeasible, hrecord]
    | false =>
      cases hillPosed : (it.measures t.program).record.isIllPosed t.settings
          (Iterate.baseline t.program) with
      | true => simp [Ends, hsolved, hinfeasible, hillPosed, hrecord]
      | false =>
        cases hstops : t.callbacks.stops (it.measures t.program).record with
        | true => simp [Ends, hsolved, hinfeasible, hillPosed, hstops, hrecord]
        | false => exact absurd ⟨hsolved, hinfeasible, hillPosed, hstops⟩ hdecided

/-- A run without a pass left ends at an undecided one. -/
theorem run_zero_of_undecided (h : Surroundings σ ω) (hundecided : t.Undecided it) :
    t.run 0 it h = (.error (.maxIterations it.iteration), t.show (t.record it) h) := by
  obtain ⟨hsolved, hinfeasible, hillPosed, hstops⟩ := hundecided
  rw [record] at hinfeasible hillPosed hstops ⊢
  simp [run, Measures.status, hsolved, hinfeasible, hillPosed, hstops]

/-- A run goes on from an undecided pass, unless the time is over or the pass takes
no step. -/
theorem run_succ_of_undecided {n : ℕ} (h : Surroundings σ ω) (hundecided : t.Undecided it) :
    ∃ h' : Surroundings σ ω, h'.seen = t.callbacks.observe (t.record it) h.seen ∧
      ((t.settings.timeLimit.isFinite = true ∧ t.run (n + 1) it h = (.error .maxTime, h')) ∨
        (∃ e, t.next it = .error e ∧ t.run (n + 1) it h = (.error e, h')) ∨
        ∃ it', t.next it = .ok it' ∧ t.run (n + 1) it h = t.run n it' h') := by
  obtain ⟨hsolved, hinfeasible, hillPosed, hstops⟩ := hundecided
  rw [record] at hinfeasible hillPosed hstops ⊢
  set h₁ := (t.show (it.measures t.program).record h).now.2 with hh₁
  obtain ⟨timing, hadvance⟩ := t.advance_eq it h₁
  have hseen : h₁.seen = t.callbacks.observe (it.measures t.program).record h.seen := rfl
  rw [run]
  simp only [Measures.status, hsolved, hinfeasible, hillPosed, hstops, Bool.false_eq_true, if_false,
    ← hh₁, hadvance]
  split
  next hexceeds =>
    rw [exceeds, Bool.and_eq_true] at hexceeds
    exact ⟨h₁, hseen, .inl ⟨hexceeds.1, rfl⟩⟩
  next =>
    refine ⟨{ h₁ with timing := timing }, hseen, .inr ?_⟩
    cases hnext : t.next it with
    | error e => exact .inl ⟨e, rfl, rfl⟩
    | ok it' => exact .inr ⟨it', rfl, rfl⟩

/-- A run makes passes, shows their records to the observer, and ends as the last
of them decides. -/
theorem exists_passes (t : Task α ω) {n : ℕ} (it : Iterate α)
    (hlimit : it.iteration + n = t.settings.maxIter) (h : Surroundings σ ω) :
    ∃ its last, t.Passes it its last ∧ its.length ≤ n ∧
      (t.run n it h).2.seen =
        t.callbacks.observeAll (t.records its last) h.seen ∧
      t.Ends last (last.point, t.record last) (t.run n it h).1 := by
  by_cases hundecided : t.Undecided it
  case neg =>
    obtain ⟨hends, hsurroundings⟩ := t.run_of_decided (n := n) h hundecided
    exact ⟨[], it, .last it, Nat.zero_le n, congrArg Surroundings.seen hsurroundings, hends⟩
  cases n with
  | zero =>
    rw [t.run_zero_of_undecided h hundecided]
    exact ⟨[], it, .last it, le_rfl, rfl, ends_of_undecided hundecided (by rw [if_pos (by omega)])⟩
  | succ n =>
    have hne : it.iteration ≠ t.settings.maxIter := by omega
    obtain ⟨h', hseen, ⟨-, hrun⟩ | ⟨e, hnext, hrun⟩ | ⟨it', hnext, hrun⟩⟩ :=
      t.run_succ_of_undecided (n := n) h hundecided
    · rw [hrun]
      exact ⟨[], it, .last it, Nat.zero_le _, hseen,
        ends_of_undecided hundecided (by rw [if_neg hne]; exact .inl rfl)⟩
    · rw [hrun]
      exact ⟨[], it, .last it, Nat.zero_le _, hseen,
        ends_of_undecided hundecided (by rw [if_neg hne]; exact .inr ⟨e, hnext, rfl⟩)⟩
    · have hlimit' : it'.iteration + n = t.settings.maxIter := by
        rw [iteration_of_next hnext]
        omega
      obtain ⟨its, last, hpasses, hlength, hseen', hends⟩ := exists_passes t it' hlimit' h'
      rw [hrun]
      refine ⟨it :: its, last, .next hundecided hnext hpasses, Nat.succ_le_succ hlength, ?_, hends⟩
      rw [hseen', hseen]
      rfl

end Task

end Conic
