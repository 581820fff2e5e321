import Conic.Proofs.Solver.Protocol

/-!
# What a solve does not depend on

A solve prints, shows its records to an observer and leaves something behind in
the solver and in the program.  None of this comes back to it.  Two solves that
may differ in all of it, and in the answers of the clock, come to the same result
in the same passes, as long as there is no time limit (`Solver.unaffected`).

The two solves are compared pass by pass.  `Task.Same` says what their tasks have
in common, which is all that a pass reads (`Task.Same.next`).  The names of the
columns are not among it, so the programs themselves may differ, as long as their
working copies agree in everything else (`Solver.Parallel.of_workingCopy`).
-/

namespace Conic

variable {α σ₁ σ₂ ω₁ ω₂ : Type} [Scalar α]

/-! ## What passes read -/

namespace Task

/-- Tasks that differ in the names of the columns, the printing, the observer and the
start only. -/
structure Same (t₁ : Task α ω₁) (t₂ : Task α ω₂) : Prop where
  program : t₂.program = { t₁.program with perm := t₂.program.perm }
  settings : t₂.settings = { t₁.settings with verbose := t₂.settings.verbose }
  stop : t₂.callbacks.stop = t₁.callbacks.stop

/-- A pass that is decided can end in one way only. -/
theorem Ends.unique {β : Type} {t : Task α ω₁} {it : Iterate α} {found : β}
    {r₁ r₂ : Except (SolverError α) β} (hdecided : ¬ t.Undecided it) (h₁ : t.Ends it found r₁)
    (h₂ : t.Ends it found r₂) : r₁ = r₂ := by
  unfold Ends at h₁ h₂
  split_ifs at h₁ h₂ with hsolved hinfeasible hillPosed hstops hlimit
  all_goals first
    | exact h₁.trans h₂.symm
    | exact absurd ⟨eq_false_of_ne_true hsolved, eq_false_of_ne_true hinfeasible,
        eq_false_of_ne_true hillPosed, eq_false_of_ne_true hstops⟩ hdecided

namespace Same

variable {t₁ : Task α ω₁} {t₂ : Task α ω₂} (h : t₁.Same t₂)

include h

/-- Both tasks make the same of an iterate. -/
theorem next (it : Iterate α) : t₂.next it = t₁.next it := by
  obtain ⟨program₂, settings₂, callbacks₂, started₂⟩ := t₂
  obtain ⟨hprogram, hsettings, -⟩ := h
  simp only at hprogram hsettings
  rw [hprogram, hsettings]
  rfl

theorem record (it : Iterate α) : t₂.record it = t₁.record it := by
  rw [Task.record, Task.record, h.program]
  rfl

omit [Scalar α] in
theorem stops (r : Record α) : t₂.callbacks.stops r = t₁.callbacks.stops r := by
  rw [Callbacks.stops, Callbacks.stops, h.stop]

theorem ends_iff {β : Type} {it : Iterate α} {found : β} {result : Except (SolverError α) β} :
    t₂.Ends it found result ↔ t₁.Ends it found result := by
  unfold Ends
  rw [h.next, h.record, h.stops, h.program, h.settings]
  rfl

theorem undecided (it : Iterate α) : t₂.Undecided it ↔ t₁.Undecided it := by
  rw [undecided_iff, undecided_iff, h.record, h.stops, h.program, h.settings]
  rfl

end Same

/-- Two runs with the same result that show the same records. -/
structure Alongside (t₁ : Task α ω₁) (t₂ : Task α ω₂) (h₁ : Surroundings σ₁ ω₁)
    (h₂ : Surroundings σ₂ ω₂)
    (R₁ : Except (SolverError α) (Point α × Record α) × Surroundings σ₁ ω₁)
    (R₂ : Except (SolverError α) (Point α × Record α) × Surroundings σ₂ ω₂) : Prop where
  result : R₂.1 = R₁.1
  seen : ∃ rs, R₁.2.seen = t₁.callbacks.observeAll rs h₁.seen ∧
    R₂.2.seen = t₂.callbacks.observeAll rs h₂.seen

section

variable [Written α] [Sink σ₁] [Sink σ₂] {t₁ : Task α ω₁} {t₂ : Task α ω₂} {it : Iterate α}

theorem Same.run_of_decided (h : t₁.Same t₂) (hdecided : ¬ t₁.Undecided it) (n : ℕ)
    (h₁ : Surroundings σ₁ ω₁) (h₂ : Surroundings σ₂ ω₂) :
    Alongside t₁ t₂ h₁ h₂ (t₁.run n it h₁) (t₂.run n it h₂) := by
  obtain ⟨hends₁, hseen₁⟩ := t₁.run_of_decided (n := n) h₁ hdecided
  obtain ⟨hends₂, hseen₂⟩ := t₂.run_of_decided (n := n) h₂ ((h.undecided it).not.mpr hdecided)
  rw [h.ends_iff, h.record] at hends₂
  rw [h.record] at hseen₂
  exact ⟨Ends.unique hdecided hends₂ hends₁, [t₁.record it], congrArg Surroundings.seen hseen₁,
    congrArg Surroundings.seen hseen₂⟩

/-- Without a time limit, runs of both tasks come to the same result, and show the
same records to their observers. -/
theorem Same.run (h : t₁.Same t₂) (htime : t₁.settings.timeLimit.isFinite = false) (n : ℕ)
    (it : Iterate α) (h₁ : Surroundings σ₁ ω₁) (h₂ : Surroundings σ₂ ω₂) :
    Alongside t₁ t₂ h₁ h₂ (t₁.run n it h₁) (t₂.run n it h₂) := by
  have htime₂ : t₂.settings.timeLimit.isFinite = false := by
    rw [h.settings]
    exact htime
  induction n generalizing it h₁ h₂ with
  | zero =>
    by_cases hundecided : t₁.Undecided it
    case neg => exact h.run_of_decided hundecided 0 h₁ h₂
    rw [t₁.run_zero_of_undecided h₁ hundecided,
      t₂.run_zero_of_undecided h₂ ((h.undecided it).mpr hundecided)]
    exact ⟨rfl, [t₁.record it], rfl, congrArg (t₂.callbacks.observe · h₂.seen) (h.record it)⟩
  | succ n ih =>
    by_cases hundecided : t₁.Undecided it
    case neg => exact h.run_of_decided hundecided (n + 1) h₁ h₂
    obtain ⟨h₁', hseen₁, ⟨hfinite, -⟩ | hrun₁⟩ := t₁.run_succ_of_undecided (n := n) h₁ hundecided
    · cases htime.symm.trans hfinite
    obtain ⟨h₂', hseen₂, ⟨hfinite, -⟩ | hrun₂⟩ :=
      t₂.run_succ_of_undecided (n := n) h₂ ((h.undecided it).mpr hundecided)
    · cases htime₂.symm.trans hfinite
    -- both tasks make the same of the iterate, so they fail or go on together
    rw [h.next] at hrun₂
    rw [h.record] at hseen₂
    cases hnext : t₁.next it with
    | error e =>
      have hrun₁ : t₁.run (n + 1) it h₁ = (.error e, h₁') := by simpa [hnext] using hrun₁
      have hrun₂ : t₂.run (n + 1) it h₂ = (.error e, h₂') := by simpa [hnext] using hrun₂
      rw [hrun₁, hrun₂]
      exact ⟨rfl, [t₁.record it], hseen₁, hseen₂⟩
    | ok it' =>
      have hrun₁ : t₁.run (n + 1) it h₁ = t₁.run n it' h₁' := by simpa [hnext] using hrun₁
      have hrun₂ : t₂.run (n + 1) it h₂ = t₂.run n it' h₂' := by simpa [hnext] using hrun₂
      obtain ⟨hresult, rs, hrs₁, hrs₂⟩ := ih it' h₁' h₂'
      rw [hrun₁, hrun₂]
      refine ⟨hresult, t₁.record it :: rs, ?_, ?_⟩
      · rw [hrs₁, hseen₁]
        rfl
      · rw [hrs₂, hseen₂]
        rfl

end

end Task

/-! ## What the rest of a solve reads -/

theorem Settings.validate_verbose (s : Settings α) (v : Bool) :
    Settings.validate { s with verbose := v } = s.validate := by
  cases s
  rfl

omit [Scalar α] in
/-- A point replaces all that was there before. -/
theorem WorkingCopy.Receives.point_eq {W : WorkingCopy α} {p₁ p₂ p₁' p₂' : Program α}
    {x w s : Array α} (h₁ : W.Receives p₁ x w s p₁') (h₂ : W.Receives p₂ x w s p₂') :
    p₂'.x = p₁'.x ∧ p₂'.w = p₁'.w ∧ p₂'.s = p₁'.s := by
  have hncols : p₂.A.ncols = p₁.A.ncols := h₂.given.1.symm.trans h₁.given.1
  have hentries (column : ℕ) (hcolumn : column < p₁.A.ncols) :
      p₂'.x[column]? = p₁'.x[column]? ∧ p₂'.s[column]? = p₁'.s[column]? := by
    have hmem : column ∈ W.perm := h₁.perm.mem_iff.mpr (List.mem_range.mpr hcolumn)
    obtain ⟨place, hplace⟩ := List.mem_iff_getElem?.mp hmem
    obtain ⟨hx₁, hs₁⟩ := h₁.entries place column hplace
    obtain ⟨hx₂, hs₂⟩ := h₂.entries place column hplace
    exact ⟨hx₂.trans hx₁.symm, hs₂.trans hs₁.symm⟩
  refine ⟨?_, ?_, ?_⟩
  · refine Array.ext (h₂.sizes.1.trans (hncols.trans h₁.sizes.1.symm)) fun j hj₂ hj₁ => ?_
    have hj := (hentries j (h₁.sizes.1 ▸ hj₁)).1
    rwa [Array.getElem?_eq_getElem hj₂, Array.getElem?_eq_getElem hj₁, Option.some.injEq] at hj
  · rw [h₁.data, h₂.data]
  · refine Array.ext (h₂.sizes.2.2.trans (hncols.trans h₁.sizes.2.2.symm)) fun j hj₂ hj₁ => ?_
    have hj := (hentries j (h₁.sizes.2.2 ▸ hj₁)).2
    rwa [Array.getElem?_eq_getElem hj₂, Array.getElem?_eq_getElem hj₁, Option.some.injEq] at hj

/-- A solution without the time that it took. -/
def Solution.untimed (s : Solution α) : Solution α := { s with solveTime := 0 }

namespace Solver

omit [Scalar α] in
theorem untimed_solution (r : Record α) (ns : ℕ) : (solution r ns).untimed =
    ⟨r.mu, r.objective, r.iteration, 0, r.tau, r.kappa⟩ := rfl

/-- A working copy does not depend on the point of the program. -/
theorem workingCopy_congr {p₁ p₂ : Program α}
    (hdata : p₂ = { p₁ with x := p₂.x, w := p₂.w, s := p₂.s })
    (hsizes : p₂.x.size = p₁.x.size ∧ p₂.w.size = p₁.w.size ∧ p₂.s.size = p₁.s.size) :
    workingCopy p₂ = workingCopy p₁ := by
  have hcheckOut : WorkingCopy.checkOut p₂ = WorkingCopy.checkOut p₁ := by
    rw [WorkingCopy.checkOut, Program.validate_congr hdata hsizes, hdata]
    rfl
  rw [workingCopy, hcheckOut]
  rfl

/-- The solver with an observer that keeps all records. -/
def recording {σ ω : Type} (S : Solver α σ ω) : Solver α σ (List (Record α)) :=
  ⟨S.settings, ⟨some fun r seen => seen ++ [r], S.callbacks.stop⟩, S.output, [], S.timers⟩

section

variable {σ ω : Type} [Written α] [Sink σ]

/-- The records of a solve. -/
def records (S : Solver α σ ω) (clock : Clock) (p : Program α) : List (Record α) :=
  (S.recording.solve clock p).solver.seen

/-- The solver after some solves, each at its own time. -/
def after (S : Solver α σ ω) (earlier : List (Clock × Program α)) : Solver α σ ω :=
  earlier.foldl (fun S e => (S.solve e.1 e.2).solver) S

theorem after_nil (S : Solver α σ ω) : S.after [] = S := rfl

theorem solver_solve (S : Solver α σ ω) (clock : Clock) (p : Program α) :
    (S.solve clock p).solver.settings = S.settings ∧
      (S.solve clock p).solver.callbacks = S.callbacks := by
  rw [solve]
  split
  · exact ⟨rfl, rfl⟩
  · simp only
    split <;> exact ⟨rfl, rfl⟩

/-- Solves change neither the settings nor the callbacks. -/
theorem solver_after (S : Solver α σ ω) (earlier : List (Clock × Program α)) :
    (S.after earlier).settings = S.settings ∧ (S.after earlier).callbacks = S.callbacks := by
  induction earlier generalizing S with
  | nil => exact ⟨rfl, rfl⟩
  | cons e earlier ih =>
    obtain ⟨hsettings, hcallbacks⟩ := ih (S.solve e.1 e.2).solver
    obtain ⟨hsettings', hcallbacks'⟩ := S.solver_solve e.1 e.2
    exact ⟨hsettings.trans hsettings', hcallbacks.trans hcallbacks'⟩

omit [Scalar α] [Written α] [Sink σ] in
theorem observeAll_recording (S : Solver α σ ω) (rs seen : List (Record α)) :
    S.recording.callbacks.observeAll rs seen = seen ++ rs := by
  induction rs generalizing seen with
  | nil => exact (List.append_nil seen).symm
  | cons r rs ih => exact (ih _).trans (List.append_assoc seen [r] rs)

end

/-- Two solves that take the same course on two programs: the results are the same up to
the time, the observers are shown the same records, and if there is a solution, both
programs receive the same point from their working copies. -/
structure Parallel (S₁ : Solver α σ₁ ω₁) (S₂ : Solver α σ₂ ω₂) (p₁ p₂ : Program α)
    (O₁ : Outcome α σ₁ ω₁) (O₂ : Outcome α σ₂ ω₂) : Prop where
  /-- The results are the same but for the time. -/
  result : O₂.result.map Solution.untimed = O₁.result.map Solution.untimed
  /-- The observers are shown the same records. -/
  seen : ∃ rs, O₁.solver.seen = S₁.callbacks.observeAll rs S₁.seen ∧
    O₂.solver.seen = S₂.callbacks.observeAll rs S₂.seen
  /-- Without a solution the programs stay what they were. -/
  kept : ∀ e, O₁.result = .error e → O₁.program = p₁ ∧ O₂.program = p₂
  /-- With a solution they receive the same point. -/
  received : ∀ sol, O₁.result = .ok sol → ∃ W₁ W₂ x w s, workingCopy p₁ = .ok W₁ ∧
    workingCopy p₂ = .ok W₂ ∧ W₁.Receives p₁ x w s O₁.program ∧ W₂.Receives p₂ x w s O₂.program

theorem Parallel.of_error {S₁ : Solver α σ₁ ω₁} {S₂ : Solver α σ₂ ω₂} (e : SolverError α)
    (p₁ p₂ : Program α) (clock₁ clock₂ : Clock) :
    Parallel S₁ S₂ p₁ p₂ ⟨.error e, p₁, S₁, clock₁⟩ ⟨.error e, p₂, S₂, clock₂⟩ where
  result := rfl
  seen := ⟨[], rfl, rfl⟩
  kept _ _ := ⟨rfl, rfl⟩
  received _ := nofun

/-- Programs with the same working copy receive the same point. -/
theorem Parallel.point_eq {S₁ : Solver α σ₁ ω₁} {S₂ : Solver α σ₂ ω₂} {p₁ p₂ : Program α}
    {O₁ : Outcome α σ₁ ω₁} {O₂ : Outcome α σ₂ ω₂} (h : Parallel S₁ S₂ p₁ p₂ O₁ O₂)
    (hcopy : workingCopy p₂ = workingCopy p₁) (sol : Solution α) (hsol : O₁.result = .ok sol) :
    O₂.program.x = O₁.program.x ∧ O₂.program.w = O₁.program.w ∧ O₂.program.s = O₁.program.s := by
  obtain ⟨W₁, W₂, x, w, s, hW₁, hW₂, hreceives₁, hreceives₂⟩ := h.received sol hsol
  cases (hcopy.trans hW₁).symm.trans hW₂
  exact hreceives₁.point_eq hreceives₂

/-- Two solves that come to the same: the result up to the time, what the observers
are shown, and the point of the program if there is a solution. -/
structure Coincides (S₁ : Solver α σ₁ ω₁) (S₂ : Solver α σ₂ ω₂) (O₁ : Outcome α σ₁ ω₁)
    (O₂ : Outcome α σ₂ ω₂) : Prop where
  /-- The results are the same but for the time. -/
  result : O₂.result.map Solution.untimed = O₁.result.map Solution.untimed
  /-- The observers are shown the same records. -/
  seen : ∃ rs, O₁.solver.seen = S₁.callbacks.observeAll rs S₁.seen ∧
    O₂.solver.seen = S₂.callbacks.observeAll rs S₂.seen
  /-- The points are the same if there is a solution. -/
  point : ∀ sol, O₁.result = .ok sol →
    O₂.program.x = O₁.program.x ∧ O₂.program.w = O₁.program.w ∧ O₂.program.s = O₁.program.s

section

variable [Written α] [Sink σ₁] [Sink σ₂] (S₁ : Solver α σ₁ ω₁) (S₂ : Solver α σ₂ ω₂)
  (hsettings : S₂.settings = { S₁.settings with verbose := S₂.settings.verbose })
  (hstop : S₂.callbacks.stop = S₁.callbacks.stop)
  (htime : S₁.settings.timeLimit.isFinite = false) (p₁ p₂ : Program α) (clock₁ clock₂ : Clock)

include hsettings hstop htime

/-- Solves whose working copies differ in the names of the columns only run in
parallel. -/
theorem Parallel.of_workingCopy (hvalid₁ : S₁.settings.validate = .ok ())
    (hvalid₂ : S₂.settings.validate = .ok ()) {W : WorkingCopy α} {perm : List ℕ}
    (hW₁ : workingCopy p₁ = .ok W) (hW₂ : workingCopy p₂ = .ok { W with perm := perm }) :
    Parallel S₁ S₂ p₁ p₂ (S₁.solve clock₁ p₁) (S₂.solve clock₂ p₂) := by
  obtain ⟨ns₁, h₁, hseen₁, hresult₁, hprogram₁, hsolver₁⟩ := exists_run hvalid₁ hW₁ clock₁
  obtain ⟨ns₂, h₂, hseen₂, hresult₂, hprogram₂, hsolver₂⟩ := exists_run hvalid₂ hW₂ clock₂
  have hlimit : S₂.settings.maxIter = S₁.settings.maxIter := by rw [hsettings]
  have hfirst : Iterate.first { W with perm := perm } = Iterate.first W := rfl
  have hsame : Task.Same ⟨W, S₁.settings, S₁.callbacks, clock₁.now.1⟩
      ⟨{ W with perm := perm }, S₂.settings, S₂.callbacks, clock₂.now.1⟩ :=
    ⟨rfl, hsettings, hstop⟩
  obtain ⟨hrun, rs, hrs₁, hrs₂⟩ := hsame.run htime S₁.settings.maxIter (.first W) h₁ h₂
  rw [hlimit, hfirst] at hresult₂ hprogram₂ hsolver₂
  rw [hrun] at hresult₂ hprogram₂
  have hseen : ∃ rs, (S₁.solve clock₁ p₁).solver.seen = S₁.callbacks.observeAll rs S₁.seen ∧
      (S₂.solve clock₂ p₂).solver.seen = S₂.callbacks.observeAll rs S₂.seen :=
    ⟨rs, hseen₁ ▸ hsolver₁.trans hrs₁, hseen₂ ▸ hsolver₂.trans hrs₂⟩
  cases hr : (Task.run ⟨W, S₁.settings, S₁.callbacks, clock₁.now.1⟩ S₁.settings.maxIter
    (.first W) h₁).1 with
  | error e =>
    rw [hr] at hresult₁ hresult₂ hprogram₁ hprogram₂
    refine ⟨by rw [hresult₁, hresult₂]; rfl, hseen, fun _ _ => ⟨hprogram₁, hprogram₂⟩,
      fun sol hsol => ?_⟩
    cases hresult₁.symm.trans hsol
  | ok found =>
    have hr₂ := hr
    rw [← hrun, ← hlimit] at hr₂
    rw [hr] at hresult₁ hresult₂ hprogram₁ hprogram₂
    -- both programs receive the point of the same pass
    obtain ⟨p₁', hconclude₁, hreceives₁⟩ := conclude_of_run (copies_of_workingCopy hW₁) hr ns₁
    obtain ⟨p₂', hconclude₂, hreceives₂⟩ := conclude_of_run (copies_of_workingCopy hW₂) hr₂ ns₂
    rw [hconclude₁] at hresult₁ hprogram₁
    rw [hconclude₂] at hresult₂ hprogram₂
    refine ⟨?_, hseen, fun e he => ?_, fun sol _ => ?_⟩
    · simp only [hresult₁, hresult₂, Except.map, untimed_solution]
    · cases hresult₁.symm.trans he
    · rw [hprogram₁, hprogram₂]
      exact ⟨_, _, _, _, _, hW₁, hW₂, hreceives₁, hreceives₂⟩

/-- Solves of programs that have the same working copy, or fail to have one in the same way, run
in parallel. -/
theorem Parallel.of_eq (hcopy : workingCopy p₂ = workingCopy p₁) :
    Parallel S₁ S₂ p₁ p₂ (S₁.solve clock₁ p₁) (S₂.solve clock₂ p₂) := by
  have hvalidate : S₂.settings.validate = S₁.settings.validate := by
    rw [hsettings, Settings.validate_verbose]
  cases hvalid : S₁.settings.validate with
  | error e =>
    rw [solve_of_validate_eq_error hvalid, solve_of_validate_eq_error (hvalidate.trans hvalid)]
    exact .of_error _ _ _ _ _
  | ok u =>
    rw [hvalid] at hvalidate
    cases hW : workingCopy p₁ with
    | error e =>
      obtain ⟨_, hsolve₁⟩ := exists_solve_of_workingCopy_eq_error hvalid hW clock₁
      obtain ⟨_, hsolve₂⟩ :=
        exists_solve_of_workingCopy_eq_error hvalidate (hcopy.trans hW) clock₂
      rw [hsolve₁, hsolve₂]
      exact .of_error _ _ _ _ _
    | ok W =>
      exact .of_workingCopy S₁ S₂ hsettings hstop htime p₁ p₂ clock₁ clock₂ hvalid hvalidate hW
        (hcopy.trans hW)

/-- Solves of programs that differ in the point only coincide. -/
theorem Coincides.of_data (hdata : p₂ = { p₁ with x := p₂.x, w := p₂.w, s := p₂.s })
    (hsizes : p₂.x.size = p₁.x.size ∧ p₂.w.size = p₁.w.size ∧ p₂.s.size = p₁.s.size) :
    Coincides S₁ S₂ (S₁.solve clock₁ p₁) (S₂.solve clock₂ p₂) := by
  have hcopy := workingCopy_congr hdata hsizes
  have hparallel := Parallel.of_eq S₁ S₂ hsettings hstop htime p₁ p₂ clock₁ clock₂ hcopy
  exact ⟨hparallel.result, hparallel.seen, hparallel.point_eq hcopy⟩

end

/-- What the observer of a solver has seen are the records of the solve. -/
theorem seen_solve {σ ω : Type} [Written α] [Sink σ] (S : Solver α σ ω)
    (htime : S.settings.timeLimit.isFinite = false) (clock : Clock) (p : Program α) :
    (S.solve clock p).solver.seen = S.callbacks.observeAll (S.records clock p) S.seen := by
  have hcoincides := Coincides.of_data S.recording S rfl rfl htime p p clock clock rfl
    ⟨rfl, rfl, rfl⟩
  obtain ⟨rs, hrecording, hseen⟩ := hcoincides.seen
  rw [hseen, records, hrecording, observeAll_recording]
  rfl

variable [Written α] [Sink σ₁] [Sink σ₂]

/-- Without a time limit nothing that is printed, observed or left behind by earlier
solves has an influence on a solve: the result but for its time, the records of the
passes, and the point of a solution. -/
theorem unaffected (S₁ : Solver α σ₁ ω₁) (S₂ : Solver α σ₂ ω₂)
    (hsettings : S₂.settings = { S₁.settings with verbose := S₂.settings.verbose })
    (hstop : S₂.callbacks.stop = S₁.callbacks.stop)
    (htime : S₁.settings.timeLimit.isFinite = false) (p₁ p₂ : Program α)
    (hdata : p₂ = { p₁ with x := p₂.x, w := p₂.w, s := p₂.s })
    (hsizes : p₂.x.size = p₁.x.size ∧ p₂.w.size = p₁.w.size ∧ p₂.s.size = p₁.s.size)
    (earlier₁ earlier₂ : List (Clock × Program α)) (clock₁ clock₂ : Clock) :
    let T₁ := S₁.after earlier₁
    let T₂ := S₂.after earlier₂
    let O₁ := T₁.solve clock₁ p₁
    let O₂ := T₂.solve clock₂ p₂
    O₂.result.map Solution.untimed = O₁.result.map Solution.untimed ∧
      T₂.records clock₂ p₂ = T₁.records clock₁ p₁ ∧
      O₁.solver.seen = S₁.callbacks.observeAll (T₁.records clock₁ p₁) T₁.seen ∧
      O₂.solver.seen = S₂.callbacks.observeAll (T₂.records clock₂ p₂) T₂.seen ∧
      ∀ sol, O₁.result = .ok sol →
        O₂.program.x = O₁.program.x ∧ O₂.program.w = O₁.program.w ∧ O₂.program.s = O₁.program.s := by
  intro T₁ T₂ O₁ O₂
  obtain ⟨hafter₁, hcallbacks₁⟩ := S₁.solver_after earlier₁
  obtain ⟨hafter₂, hcallbacks₂⟩ := S₂.solver_after earlier₂
  have hsettings' : T₂.settings = { T₁.settings with verbose := T₂.settings.verbose } := by
    rw [hafter₁, hafter₂]
    exact hsettings
  have hstop' : T₂.callbacks.stop = T₁.callbacks.stop := by
    rw [hcallbacks₁, hcallbacks₂]
    exact hstop
  have htime₁ : T₁.settings.timeLimit.isFinite = false := by
    rw [hafter₁]
    exact htime
  have htime₂ : T₂.settings.timeLimit.isFinite = false := by
    rw [hsettings']
    exact htime₁
  have hcoincides := Coincides.of_data _ _ hsettings' hstop' htime₁ _ _ clock₁ clock₂ hdata hsizes
  have hrecording := Coincides.of_data T₁.recording T₂.recording hsettings' hstop' htime₁ p₁ p₂
    clock₁ clock₂ hdata hsizes
  obtain ⟨rs, hrecords₁, hrecords₂⟩ := hrecording.seen
  refine ⟨hcoincides.result, ?_, ?_, ?_, hcoincides.point⟩
  · rw [records, records, hrecords₁, hrecords₂, observeAll_recording, observeAll_recording]
    rfl
  · rw [← hcallbacks₁]
    exact T₁.seen_solve htime₁ clock₁ p₁
  · rw [← hcallbacks₂]
    exact T₂.seen_solve htime₂ clock₂ p₂

/-- A solver with the exact settings that prints to a stream which takes nothing,
and counts the passes. -/
noncomputable def noisy [Machine] : Solver ℝ PrintTarget ℕ where
  settings := { Settings.exact with verbose := true }
  callbacks := ⟨some fun _ n => n + 1, none⟩
  output := { PrintTarget.initial with place := .failing }
  seen := 0
  timers := none

/-- The half line is solved in the same way by a solver that prints and counts, after
it has solved it before. -/
theorem unaffected_halfLine : letI := Machine.double
    letI := Written.silent
    let p : Program ℝ := { Program.halfLine with x := #[5] }
    let T := noisy.after [(⟨fun _ => 0, 0⟩, .halfLine)]
    (noisy.settings = { exact.settings with verbose := noisy.settings.verbose } ∧
      noisy.callbacks.stop = exact.callbacks.stop ∧ exact.settings.timeLimit.isFinite = false ∧
      p = { Program.halfLine with x := p.x, w := p.w, s := p.s } ∧
      p.x.size = Program.halfLine.x.size ∧ p.w.size = Program.halfLine.w.size ∧
        p.s.size = Program.halfLine.s.size) ∧
      (T.solve ⟨fun i => i, 0⟩ p).result.map Solution.untimed =
        (exact.solve ⟨fun _ => 0, 0⟩ .halfLine).result.map Solution.untimed := by
  let _ := Machine.double
  let _ := Written.silent
  have htime : exact.settings.timeLimit.isFinite = false := by
    show (1.0 / 0.0 : Float).isFinite = false
    decide
  refine ⟨⟨rfl, rfl, htime, rfl, rfl, rfl, rfl⟩, ?_⟩
  have h := (unaffected exact noisy rfl rfl htime .halfLine { Program.halfLine with x := #[5] } rfl
    ⟨rfl, rfl, rfl⟩ [] [(⟨fun _ => 0, 0⟩, .halfLine)] ⟨fun _ => 0, 0⟩ ⟨fun i => i, 0⟩).1
  rwa [after_nil] at h

end Solver

end Conic
