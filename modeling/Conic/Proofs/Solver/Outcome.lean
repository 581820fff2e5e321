import Conic.Proofs.Program.CheckIn
import Conic.Solver.Basic

/-!
# What a solve does to the program

A solve changes the program only at its end, when the point of the last pass is
brought back, and bringing a point back either changes nothing or replaces all
of it (`Solver.conclude_cases`).  A solve that fails before its first pass has
nothing to bring back, and every other one concludes a run on the working copy
(`Solver.solve_cases`).  No law of arithmetic is needed for that.
-/

namespace Conic.Solver

variable {α σ ω : Type} [Scalar α]

theorem copies_of_workingCopy {p : Program α} {W : WorkingCopy α}
    (h : workingCopy p = .ok W) : W.Copies p := by
  rw [workingCopy] at h
  split at h
  next hW =>
    cases h
    exact WorkingCopy.copies_of_checkOut hW
  next => cases h
  next => cases h

/-- A point of other lengths is refused without a change, and all of a point of
the right lengths is brought back. -/
theorem writeBack_cases {W : WorkingCopy α} {p : Program α} (h : W.Copies p) (q : Point α) :
    (¬ (q.x.size = p.A.ncols ∧ q.w.size = p.A.nrows ∧ q.s.size = p.A.ncols) ∧
      ∃ e, writeBack W p q = (.error e, p)) ∨
    ∃ p', writeBack W p q = (.ok (), p') ∧ W.Receives p q.x q.w q.s p' := by
  rw [writeBack]
  rcases h.checkIn_cases q.x q.w q.s with ⟨hne, e, he⟩ | ⟨p', hp', hreceives⟩
  · rw [he]
    exact .inl ⟨hne, e, rfl⟩
  · rw [hp']
    exact .inr ⟨p', rfl, hreceives⟩

/-- The conclusion fails without a change of the program, or it brings back the
point that the passes have found. -/
theorem conclude_cases {W : WorkingCopy α} {p : Program α} (h : W.Copies p) (ns : ℕ)
    (r : Except (SolverError α) (Point α × Record α)) :
    (∃ e, conclude W p ns r = (.error e, p)) ∨
    ∃ q record p', r = .ok (q, record) ∧ conclude W p ns r = (.ok (solution record ns), p') ∧
      W.Receives p q.normalized.x q.normalized.w q.normalized.s p' := by
  cases r with
  | error e => exact .inl ⟨e, rfl⟩
  | ok result =>
    obtain ⟨q, record⟩ := result
    rw [conclude]
    rcases writeBack_cases h q.normalized with ⟨-, e, he⟩ | ⟨p', hp', hreceives⟩
    · rw [he]
      exact .inl ⟨.program e, rfl⟩
    · rw [hp']
      exact .inr ⟨q, record, p', rfl, rfl, hreceives⟩

variable [Written α] [Sink σ]

theorem solve_of_validate_eq_error {S : Solver α σ ω} {e : SettingsError}
    (h : S.settings.validate = .error e) (clock : Clock) (p : Program α) :
    S.solve clock p = ⟨.error (.settings e), p, S, clock⟩ := by
  rw [solve, h]

theorem exists_solve_of_workingCopy_eq_error {S : Solver α σ ω}
    (hvalid : S.settings.validate = .ok ()) {p : Program α} {e : ProgramError}
    (h : workingCopy p = .error e) (clock : Clock) :
    ∃ clock', S.solve clock p = ⟨.error (.program e), p, S, clock'⟩ := by
  rw [solve, hvalid]
  simp only [h]
  exact ⟨_, rfl⟩

/-- A solve with valid settings concludes a run on the working copy, which starts
with what the observer has seen so far. -/
theorem exists_run {S : Solver α σ ω} (hvalid : S.settings.validate = .ok ()) {p : Program α}
    {W : WorkingCopy α} (hW : workingCopy p = .ok W) (clock : Clock) :
    ∃ (ns : ℕ) (h : Surroundings σ ω), h.seen = S.seen ∧
      let run := Task.run ⟨W, S.settings, S.callbacks, clock.now.1⟩ S.settings.maxIter (.first W) h
      (S.solve clock p).result = (conclude W p ns run.1).1 ∧
      (S.solve clock p).program = (conclude W p ns run.1).2 ∧
      (S.solve clock p).solver.seen = run.2.seen := by
  rw [solve, hvalid]
  simp only [hW]
  exact ⟨_, _, rfl, rfl, rfl, rfl⟩

/-- A solve fails before its first pass, for a reason that is no breakdown, or
concludes a run from the first iterate. -/
theorem solve_cases (S : Solver α σ ω) (clock : Clock) (p : Program α) :
    (∃ e, (S.solve clock p).result = .error e ∧ (S.solve clock p).program = p ∧
      ∀ cause, e ≠ .numericalBreakdown cause) ∨
    ∃ (W : WorkingCopy α) (started ns : ℕ) (h : Surroundings σ ω)
      (r : Except (SolverError α) (Point α × Record α)),
      S.settings.validate = .ok () ∧ workingCopy p = .ok W ∧
      (Task.run ⟨W, S.settings, S.callbacks, started⟩ S.settings.maxIter (.first W) h).1 = r ∧
      (S.solve clock p).result = (conclude W p ns r).1 ∧
      (S.solve clock p).program = (conclude W p ns r).2 := by
  cases hvalid : S.settings.validate with
  | error e =>
    rw [solve_of_validate_eq_error hvalid]
    exact .inl ⟨_, rfl, rfl, fun _ => nofun⟩
  | ok u =>
    cases hW : workingCopy p with
    | error e =>
      obtain ⟨clock', hsolve⟩ := exists_solve_of_workingCopy_eq_error hvalid hW clock
      rw [hsolve]
      exact .inl ⟨_, rfl, rfl, fun _ => nofun⟩
    | ok W =>
      obtain ⟨ns, h, -, hresult, hprogram, -⟩ := exists_run (S := S) hvalid hW clock
      exact .inr ⟨W, _, ns, h, _, rfl, rfl, rfl, hresult, hprogram⟩

end Conic.Solver
