import Conic.Proofs.Program.Correspondence
import Conic.Proofs.Program.Move
import Conic.Proofs.Solver.Independence

/-!
# The order of the columns

A solve does not depend on the order in which the columns of a program come
(`Solver.same_of_moved`).  The working copies of a program and of one whose columns
have moved differ in the names of the columns only.  No pass reads these names, so both
solves make the same passes, and the names say where the entries of the solution go.
-/

namespace Conic

variable {α σ₁ σ₂ ω₁ ω₂ : Type} [Scalar α]

/-- The points of two programs are the same, if the columns of the first one move. -/
structure Program.MovedPoint {n : ℕ} (π : Equiv.Perm (Fin n)) (p q : Program α) : Prop where
  /-- The dual points are the same. -/
  w : q.w = p.w
  /-- There is an entry for each column. -/
  sizes : p.x.size = n ∧ q.x.size = n ∧ p.s.size = n ∧ q.s.size = n
  /-- The entries of a column move with it. -/
  entries : ∀ j : Fin n, q.x[(π j : ℕ)]? = p.x[(j : ℕ)]? ∧ q.s[(π j : ℕ)]? = p.s[(j : ℕ)]?

/-- One point that is brought back into both programs moves with the columns. -/
theorem WorkingCopy.Receives.movedPoint {W : WorkingCopy α} {p q p' q' : Program α}
    {π : Equiv.Perm (Fin p.A.ncols)} (h : p.Moved π q) {x w s : Array α}
    (h₁ : W.Receives p x w s p')
    (h₂ : Receives { W with perm := W.perm.map (Program.renamed π) } q x w s q') :
    Program.MovedPoint π p' q' where
  w := by rw [h₁.data, h₂.data]
  sizes := ⟨h₁.sizes.1, h₂.sizes.1.trans h.ncols_eq, h₁.sizes.2.2, h₂.sizes.2.2.trans h.ncols_eq⟩
  entries j := by
    have hmem : (j : ℕ) ∈ W.perm := h₁.perm.mem_iff.mpr (List.mem_range.mpr j.isLt)
    obtain ⟨place, hplace⟩ := List.mem_iff_getElem?.mp hmem
    have hmoved : (W.perm.map (Program.renamed π))[place]? = some (π j : ℕ) := by
      rw [List.getElem?_map, hplace, Option.map_some, Program.renamed_of_lt π j.isLt]
    obtain ⟨hx₁, hs₁⟩ := h₁.entries place j hplace
    obtain ⟨hx₂, hs₂⟩ := h₂.entries place (π j) hmoved
    exact ⟨hx₂.trans hx₁.symm, hs₂.trans hs₁.symm⟩

namespace Solver

section

variable {p q : Program α} (hp : p.validate = .ok ()) {π : Equiv.Perm (Fin p.A.ncols)}
  (h : p.Moved π q)

include hp h

theorem workingCopy_of_moved : workingCopy p = .ok (.copy p) ∧ workingCopy q =
    .ok { WorkingCopy.copy p with perm := (WorkingCopy.copy p).perm.map (Program.renamed π) } := by
  obtain ⟨-, hW, hW'⟩ := WorkingCopy.checkOut_of_moved hp h
  rw [workingCopy, workingCopy, hW, hW']
  exact ⟨rfl, rfl⟩

variable [Written α] [Sink σ₁] [Sink σ₂] (S₁ : Solver α σ₁ ω₁) (S₂ : Solver α σ₂ ω₂)
  (hsettings : S₂.settings = { S₁.settings with verbose := S₂.settings.verbose })
  (hstop : S₂.callbacks.stop = S₁.callbacks.stop)
  (htime : S₁.settings.timeLimit.isFinite = false) (clock₁ clock₂ : Clock)

include hsettings hstop htime

/-- Solves of a program before and after its columns have moved run in parallel. -/
theorem Parallel.of_moved : Parallel S₁ S₂ p q (S₁.solve clock₁ p) (S₂.solve clock₂ q) := by
  have hvalidate : S₂.settings.validate = S₁.settings.validate := by
    rw [hsettings, Settings.validate_verbose]
  obtain ⟨hW₁, hW₂⟩ := workingCopy_of_moved hp h
  cases hvalid : S₁.settings.validate with
  | error e =>
    rw [solve_of_validate_eq_error hvalid, solve_of_validate_eq_error (hvalidate.trans hvalid)]
    exact .of_error _ _ _ _ _
  | ok u =>
    exact .of_workingCopy S₁ S₂ hsettings hstop htime p q clock₁ clock₂ hvalid
      (hvalidate.trans hvalid) hW₁ hW₂

end

variable [Written α] [Sink σ₁] [Sink σ₂]

/-- Without a time limit the order of the columns has no influence on a solve.  The program
whose columns have moved is valid and has the same working copy, the results are the same but
for the time, so are the records of the passes, and the points of a solution move with the
columns. -/
theorem same_of_moved (S₁ : Solver α σ₁ ω₁) (S₂ : Solver α σ₂ ω₂)
    (hsettings : S₂.settings = { S₁.settings with verbose := S₂.settings.verbose })
    (hstop : S₂.callbacks.stop = S₁.callbacks.stop)
    (htime : S₁.settings.timeLimit.isFinite = false) {p q : Program α}
    (hp : p.validate = .ok ()) {π : Equiv.Perm (Fin p.A.ncols)} (h : p.Moved π q)
    (clock₁ clock₂ : Clock) :
    let O₁ := S₁.solve clock₁ p
    let O₂ := S₂.solve clock₂ q
    (q.validate = .ok () ∧ ∃ W, WorkingCopy.checkOut p = .ok W ∧
      WorkingCopy.checkOut q = .ok { W with perm := W.perm.map (Program.renamed π) }) ∧
      O₂.result.map Solution.untimed = O₁.result.map Solution.untimed ∧
      S₂.records clock₂ q = S₁.records clock₁ p ∧
      (∀ e, O₁.result = .error e → O₁.program = p ∧ O₂.program = q) ∧
      ∀ sol, O₁.result = .ok sol → Program.MovedPoint π O₁.program O₂.program := by
  intro O₁ O₂
  obtain ⟨hq, hcheckOut, hcheckOut'⟩ := WorkingCopy.checkOut_of_moved hp h
  obtain ⟨hW₁, hW₂⟩ := workingCopy_of_moved hp h
  have hparallel := Parallel.of_moved hp h S₁ S₂ hsettings hstop htime clock₁ clock₂
  have hrecording := Parallel.of_moved hp h S₁.recording S₂.recording hsettings hstop htime
    clock₁ clock₂
  obtain ⟨rs, hrecords₁, hrecords₂⟩ := hrecording.seen
  refine ⟨⟨hq, _, hcheckOut, hcheckOut'⟩, hparallel.result, ?_, hparallel.kept, fun sol hsol => ?_⟩
  · rw [records, records, hrecords₁, hrecords₂, observeAll_recording, observeAll_recording]
    rfl
  · obtain ⟨W₁, W₂, x, w, s, hW₁', hW₂', hreceives₁, hreceives₂⟩ := hparallel.received sol hsol
    cases hW₁.symm.trans hW₁'
    cases hW₂.symm.trans hW₂'
    exact hreceives₁.movedPoint h hreceives₂

/-- A rotation of the four columns. -/
theorem same_of_moved_interleaved : letI := Machine.double
    letI := Written.silent
    let π : Equiv.Perm (Fin Program.interleaved.A.ncols) := finRotate 4
    let q := Program.interleaved.move π
    (exact.settings = { exact.settings with verbose := exact.settings.verbose } ∧
      exact.settings.timeLimit.isFinite = false ∧ Program.interleaved.validate = .ok () ∧
      Program.interleaved.Moved π q) ∧
      (exact.solve ⟨fun i => i, 0⟩ q).result.map Solution.untimed =
        (exact.solve ⟨fun _ => 0, 0⟩ .interleaved).result.map Solution.untimed := by
  let _ := Machine.double
  let _ := Written.silent
  intro π q
  have hmoved : Program.interleaved.Moved π q :=
    WorkingCopy.moved_move Program.validate_interleaved
  exact ⟨⟨rfl, timeLimit_exact, Program.validate_interleaved, hmoved⟩,
    (same_of_moved exact exact rfl rfl timeLimit_exact Program.validate_interleaved hmoved
      ⟨fun _ => 0, 0⟩ ⟨fun i => i, 0⟩).2.1⟩

end Solver

end Conic
