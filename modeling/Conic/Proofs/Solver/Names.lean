import Conic.Proofs.Program.Names
import Conic.Proofs.Solver.Independence
import Conic.Proofs.Solver.Interior
import Conic.Proofs.Solver.Lifetime

/-!
# The names of the variables

A solve reads the columns of a program, not the names of their variables.  Programs
that differ in these names only have the same working copy, so they receive the
same point, and differ in the names only afterwards (`Program.SameButNames.solve`).
This is carried through any number of solves (`Program.SameButNames.solved`).

Two builders whose calls differ in the names of the variables build such programs.
So a variable has the same value and the same dual slack under both of its names,
after whatever solves (`Builder.same_of_renames`).
-/

namespace Conic

variable {α σ₁ σ₂ ω₁ ω₂ : Type} [Scalar α]

/-- The solvers make the same of a program: their settings agree but for the printing, they are
stopped in the same way, and there is no time limit. -/
structure Solver.Alike (S₁ : Solver α σ₁ ω₁) (S₂ : Solver α σ₂ ω₂) : Prop where
  settings : S₂.settings = { S₁.settings with verbose := S₂.settings.verbose }
  stop : S₂.callbacks.stop = S₁.callbacks.stop
  untimed : S₁.settings.timeLimit.isFinite = false

namespace Program

/-- The program after some solves, each with its own solver and at its own time. -/
def solved {σ ω : Type} [Written α] [Sink σ] (p : Program α)
    (solves : List (Solver α σ ω × Clock)) : Program α :=
  solves.foldl (fun p e => (e.1.solve e.2 p).program) p

/-- The programs are valid and differ in the names of the variables only. -/
structure SameButNames (p q : Program α) : Prop where
  data : q = { p with map := q.map }
  valid : p.validate = .ok () ∧ q.validate = .ok ()

namespace SameButNames

variable {p q : Program α}

theorem workingCopy_eq (h : p.SameButNames q) : Solver.workingCopy q = Solver.workingCopy p := by
  have hcopy : WorkingCopy.copy q = WorkingCopy.copy p := by
    rw [h.data]
    rfl
  have hp : WorkingCopy.checkOut p = .ok (.copy p) :=
    WorkingCopy.checkOut_eq_ok_iff.mpr ⟨h.valid.1, rfl⟩
  have hq : WorkingCopy.checkOut q = .ok (.copy p) :=
    WorkingCopy.checkOut_eq_ok_iff.mpr ⟨h.valid.2, hcopy.symm⟩
  rw [Solver.workingCopy, Solver.workingCopy, hp, hq]

variable [Written α] [Sink σ₁] [Sink σ₂]

/-- A solve leaves programs that differ in the names only, and changes no names. -/
theorem solve (h : p.SameButNames q) {S₁ : Solver α σ₁ ω₁} {S₂ : Solver α σ₂ ω₂}
    (hS : S₁.Alike S₂) (clock₁ clock₂ : Clock) :
    SameButNames (S₁.solve clock₁ p).program (S₂.solve clock₂ q).program ∧
      (S₁.solve clock₁ p).program.map = p.map ∧ (S₂.solve clock₂ q).program.map = q.map := by
  have hparallel := Solver.Parallel.of_eq S₁ S₂ hS.settings hS.stop hS.untimed p q clock₁ clock₂
    h.workingCopy_eq
  have hvalid : (S₁.solve clock₁ p).program.validate = .ok () ∧
      (S₂.solve clock₂ q).program.validate = .ok () :=
    ⟨(S₁.validate_solve clock₁ p).trans h.valid.1, (S₂.validate_solve clock₂ q).trans h.valid.2⟩
  cases hresult : (S₁.solve clock₁ p).result with
  | error e =>
    obtain ⟨hp, hq⟩ := hparallel.kept e hresult
    rw [hp, hq]
    exact ⟨h, rfl, rfl⟩
  | ok sol =>
    obtain ⟨hx, -, hs⟩ := hparallel.point_eq h.workingCopy_eq sol hresult
    obtain ⟨W₁, W₂, x, w, s, -, -, hreceives₁, hreceives₂⟩ := hparallel.received sol hresult
    refine ⟨⟨?_, hvalid⟩, by rw [hreceives₁.data], by rw [hreceives₂.data]⟩
    rw [hreceives₂.data, hreceives₁.data, hx, hs, h.data]

/-- Solves of both programs, one by one with solvers that make the same of them, leave programs
that differ in the names only. -/
theorem solved (h : p.SameButNames q) {solves₁ : List (Solver α σ₁ ω₁ × Clock)}
    {solves₂ : List (Solver α σ₂ ω₂ × Clock)}
    (hsolves : List.Forall₂ (fun e₁ e₂ => e₁.1.Alike e₂.1) solves₁ solves₂) :
    SameButNames (p.solved solves₁) (q.solved solves₂) ∧
      (p.solved solves₁).map = p.map ∧ (q.solved solves₂).map = q.map := by
  induction hsolves generalizing p q with
  | nil => exact ⟨h, rfl, rfl⟩
  | @cons e₁ e₂ rest₁ rest₂ hS hrest ih =>
    obtain ⟨hfirst, hmap₁, hmap₂⟩ := h.solve hS e₁.2 e₂.2
    obtain ⟨hlast, hmap₁', hmap₂'⟩ := ih hfirst
    exact ⟨hlast, hmap₁'.trans hmap₁, hmap₂'.trans hmap₂⟩

end SameButNames

end Program

namespace Builder

variable {n : ℕ} {π : Equiv.Perm (Fin n)}

omit [Scalar α] in
/-- A variable has the same values in programs that have the same columns under its names. -/
theorem SameColumns.value_eq {p q : Program α} (hcolumns : SameColumns π p.map q.map)
    (hdata : q = { p with map := q.map }) (v : VariableId) :
    q.value (v.rename π) = p.value v ∧ q.dualSlack (v.rename π) = p.dualSlack v := by
  simp only [Program.value, Program.dualSlack, hcolumns.column v]
  rw [hdata]
  exact ⟨rfl, rfl⟩

/-- If the variables are added in another order, and the constraints and the cones name each of
them by its own name, the builder still builds.  The program has the same matrix, right-hand
side, costs and cones, and its variables are renamed.  After any solves, by solvers that make
the same of a program, each variable has the same value and dual slack as before. -/
theorem same_of_renames [Written α] {calls₁ calls₂ : List (Call α)}
    (h : Renames π calls₁ calls₂) {p₁ : Program α} (hp₁ : (after calls₁).build = .ok p₁) :
    ∃ p₂, (after calls₂).build = .ok p₂ ∧
      (p₂.A = p₁.A ∧ p₂.b = p₁.b ∧ p₂.c = p₁.c ∧ p₂.cones = p₁.cones) ∧
      SameColumns π p₁.map p₂.map ∧
      ∀ (σ₁ σ₂ ω₁ ω₂ : Type) [Sink σ₁] [Sink σ₂] (solves₁ : List (Solver α σ₁ ω₁ × Clock))
        (solves₂ : List (Solver α σ₂ ω₂ × Clock)),
        List.Forall₂ (fun e₁ e₂ => e₁.1.Alike e₂.1) solves₁ solves₂ →
        ∀ v : VariableId,
          (p₂.solved solves₂).value (v.rename π) = (p₁.solved solves₁).value v ∧
          (p₂.solved solves₂).dualSlack (v.rename π) = (p₁.solved solves₁).dualSlack v := by
  obtain ⟨m, hp₂, hcolumns⟩ := h.renamed.exists_build hp₁
  have hsame : p₁.SameButNames { p₁ with map := m } :=
    ⟨rfl, Program.validate_of_build hp₁, Program.validate_of_build hp₂⟩
  refine ⟨_, hp₂, ⟨rfl, rfl, rfl, rfl⟩, hcolumns, ?_⟩
  intro σ₁ σ₂ ω₁ ω₂ _ _ solves₁ solves₂ hsolves v
  obtain ⟨hsolved, hmap₁, hmap₂⟩ := hsame.solved hsolves
  exact SameColumns.value_eq (by rwa [hmap₁, hmap₂]) hsolved.data v

/-- The calls for two variables on half lines and a constraint on their sum. -/
def Call.pair (x y : VariableId) (costs : List ℝ) : List (Call ℝ) :=
  costs.map .addVariable ++
    [.addConstraint [(x, 1), (y, 1)] 1, .addNonnegative x, .addNonnegative y]

theorem renames_pair : Renames (Equiv.swap (0 : Fin 2) 1) (Call.pair ⟨0⟩ ⟨1⟩ [1, 0])
    (Call.pair ⟨1⟩ ⟨0⟩ [0, 1]) := by
  refine ⟨⟨rfl, rfl⟩, fun i => ?_, ?_⟩
  · fin_cases i <;> simp [Call.pair, Call.cost?]
  · simp [Call.pair, Call.cost?, Call.rename, VariableId.rename, Program.renamed]

/-- The program of these calls. -/
noncomputable def pairProgram : Program ℝ where
  A := ⟨1, 2, #[0, 1, 2], #[0, 0], #[1, 1]⟩
  b := #[1]
  c := #[1, 0]
  x := #[0, 0]
  w := #[0]
  s := #[0, 0]
  cones := [.nonnegative 0, .nonnegative 1]
  map := .identity 2

/-- Two variables that are added in both orders, and a solve of each program. -/
theorem same_of_renames_pair : letI := Machine.double
    letI := Written.silent
    (Renames (Equiv.swap (0 : Fin 2) 1) (Call.pair ⟨0⟩ ⟨1⟩ [1, 0]) (Call.pair ⟨1⟩ ⟨0⟩ [0, 1]) ∧
      (after (Call.pair ⟨0⟩ ⟨1⟩ [1, 0])).build = .ok pairProgram ∧
      Solver.exact.Alike Solver.exact) ∧
    ∃ p, (after (Call.pair ⟨1⟩ ⟨0⟩ [0, 1])).build = .ok p ∧ p.A = pairProgram.A ∧
      ∀ v : VariableId,
        (p.solved [(Solver.exact, ⟨fun _ => 0, 0⟩)]).value (v.rename (Equiv.swap (0 : Fin 2) 1)) =
          (pairProgram.solved [(Solver.exact, ⟨fun i => i, 0⟩)]).value v := by
  let _ := Machine.double
  let _ := Written.silent
  have hbuild : (after (Call.pair ⟨0⟩ ⟨1⟩ [1, 0])).build = .ok pairProgram := by cbv
  have halike : Solver.exact.Alike Solver.exact := ⟨rfl, rfl, Solver.timeLimit_exact⟩
  obtain ⟨p, hp, ⟨hA, -⟩, -, hsolved⟩ := same_of_renames renames_pair hbuild
  exact ⟨⟨renames_pair, hbuild, halike⟩, p, hp, hA, fun v =>
    (hsolved _ _ _ _ _ _ (.cons halike .nil) v).1⟩

end Builder

end Conic
