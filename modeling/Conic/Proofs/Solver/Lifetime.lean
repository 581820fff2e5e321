import Conic.Program.Builder
import Conic.Program.File
import Conic.Proofs.Solver.Protocol

/-!
# The life of a program

A program comes from data, from a builder or from a file (`Program.Constructed`),
and then it is checked out, checked in and solved, any number of times
(`Program.Step`).  It is validated when it is constructed, and no step changes
more than the entries of its point.  So it stays valid, and what can only fail on
an invalid program never fails (`Program.valid_of_steps`).
-/

namespace Conic

/-! ## Construction -/

namespace Program

/-- The programs that can be constructed. -/
inductive Constructed : {α : Type} → [Scalar α] → Program α → Prop
  /-- The variables are the columns of the matrix. -/
  | new {α : Type} [Scalar α] {A : Csc α} {b c : Array α} {cones : List (ConeSpec ℕ)}
    {p : Program α} : new A b c cones = .ok p → Constructed p
  /-- The parts have been collected by a builder. -/
  | build {α : Type} [Scalar α] {B : Builder α} {p : Program α} : B.build = .ok p → Constructed p
  /-- The bytes of a file have been read. -/
  | read {bytes : ByteArray} {p : Program Float} {settings : Option (Settings Float)} :
    ProgramFile.read bytes = .ok (p, settings) → Constructed p
  /-- The record of a file has been decoded, in whatever arithmetic. -/
  | decoded {α : Type} [Scalar α] {A : Csc α} {b c : Array α} {cones : List (ConeSpec ℕ)}
    {map : VariableMap} {p : Program α} : ofData A b c cones map = .ok p → Constructed p

variable {α : Type} [Scalar α] {A : Csc α} {b c : Array α} {cones : List (ConeSpec ℕ)}
  {map : VariableMap} {p : Program α}

theorem validate_of_ofData (h : ofData A b c cones map = .ok p) : p.validate = .ok () := by
  rw [ofData] at h
  split at h
  · cases h
  · exact (ofParts_eq_ok_iff.mp h).2

theorem validate_of_build {B : Builder α} (h : B.build = .ok p) : p.validate = .ok () := by
  simp only [Builder.build, bind_eq_ok_iff] at h
  obtain ⟨_, -, _, -, _, -, _, -, hparts⟩ := h
  exact (ofParts_eq_ok_iff.mp hparts).2

theorem validate_of_read {bytes : ByteArray} {p : Program Float}
    {settings : Option (Settings Float)} (h : ProgramFile.read bytes = .ok (p, settings)) :
    p.validate = .ok () := by
  rw [ProgramFile.read] at h
  split at h
  next =>
    simp only [bind_eq_ok_iff, Fault.mapCause_eq_ok_iff] at h
    obtain ⟨_, -, _, -, q, hq, hp⟩ := h
    cases hp
    exact validate_of_ofData hq
  next => cases h

/-- Whoever constructs a program validates it. -/
theorem Constructed.validate (h : p.Constructed) : p.validate = .ok () := by
  cases h with
  | new h => exact validate_of_ofData h
  | build h => exact validate_of_build h
  | read h => exact validate_of_read h
  | decoded h => exact validate_of_ofData h

end Program

/-! ## Steps -/

namespace WorkingCopy

variable {α : Type} [Scalar α] {W : WorkingCopy α} {p p' : Program α} {x w s : Array α}

theorem Copies.validate_of_receives (h : W.Copies p) (hp' : W.Receives p x w s p') :
    p'.validate = p.validate :=
  Program.validate_congr (by rw [hp'.data]) ⟨hp'.sizes.1.trans h.sizes.2.2.1.symm,
    hp'.sizes.2.1.trans h.sizes.2.2.2.1.symm, hp'.sizes.2.2.trans h.sizes.2.2.2.2.symm⟩

/-- A point that is brought back, or refused, leaves a valid program. -/
theorem Copies.validate_checkIn (h : W.Copies p) (x w s : Array α) :
    ((W.checkIn x w s).run p).2.validate = p.validate := by
  rcases h.checkIn_cases x w s with ⟨-, e, he⟩ | ⟨p', hp', hreceives⟩
  · rw [he]
  · rw [hp']
    exact h.validate_of_receives hreceives

/-- A point that is refused changes nothing. -/
theorem Copies.eq_of_checkIn_eq_error (h : W.Copies p) {e : Fault ProgramError}
    (he : (W.checkIn x w s).run p = (.error e, p')) : p' = p := by
  rcases h.checkIn_cases x w s with ⟨-, e', he'⟩ | ⟨q, hq, -⟩
  · exact (Prod.mk.inj (he.symm.trans he')).2
  · cases (Prod.mk.inj (he.symm.trans hq)).1

end WorkingCopy

namespace Solver

variable {α σ ω : Type} [Scalar α] [Written α] [Sink σ]

theorem validate_solve (S : Solver α σ ω) (clock : Clock) (p : Program α) :
    (S.solve clock p).program.validate = p.validate := by
  rcases S.solve_cases clock p with ⟨-, -, hprogram, -⟩ |
    ⟨W, -, ns, -, r, -, hW, -, -, hprogram⟩
  · rw [hprogram]
  · have hcopies := copies_of_workingCopy hW
    rw [hprogram]
    rcases conclude_cases hcopies ns r with ⟨e, he⟩ | ⟨q, record, p', -, hp', hreceives⟩
    · rw [he]
    · rw [hp']
      exact hcopies.validate_of_receives hreceives

/-- A solve of a valid program does not fail because of the program. -/
theorem solve_ne_program {p : Program α} (hp : p.validate = .ok ()) (S : Solver α σ ω)
    (clock : Clock) (e : ProgramError) : (S.solve clock p).result ≠ .error (.program e) := by
  intro herror
  cases hvalid : S.settings.validate with
  | error e' =>
    rw [solve_of_validate_eq_error hvalid] at herror
    cases herror
  | ok u =>
    obtain ⟨t, its, last, -, -, -, -, ns, hends⟩ := exists_passes S hvalid hp clock
    rw [herror] at hends
    rcases hends.of_error with h | h | h | h | h | hnext
    case inr.inr.inr.inr.inr =>
      rcases Task.cases_of_next_eq_error hnext with ⟨_, h⟩ | ⟨_, h⟩ <;> cases h
    all_goals cases h

end Solver

/-- One operation on a program. -/
inductive Program.Step {α : Type} [Scalar α] : Program α → Program α → Prop
  /-- The program is checked out, and the copy is dropped. -/
  | checkOut {p : Program α} {W : WorkingCopy α} : WorkingCopy.checkOut p = .ok W → Step p p
  /-- The program is checked out, and vectors of any lengths are checked in. -/
  | checkIn {p : Program α} {W : WorkingCopy α} (x w s : Array α) :
    WorkingCopy.checkOut p = .ok W → Step p ((W.checkIn x w s).run p).2
  /-- The program is solved, by any solver at any time. -/
  | solve {σ ω : Type} [Written α] [Sink σ] {p : Program α} (S : Solver α σ ω) (clock : Clock) :
    Step p (S.solve clock p).program

theorem Program.Step.validate {α : Type} [Scalar α] {p p' : Program α} (h : p.Step p') :
    p'.validate = p.validate := by
  cases h with
  | checkOut => rfl
  | checkIn x w s hW => exact (WorkingCopy.copies_of_checkOut hW).validate_checkIn x w s
  | solve S clock => exact S.validate_solve clock p

/-- Nothing that is done with a program makes it invalid. -/
theorem Program.Constructed.validate_of_steps {α : Type} [Scalar α] {p₀ p : Program α}
    (h₀ : p₀.Constructed) (hsteps : Relation.ReflTransGen Program.Step p₀ p) :
    p.validate = .ok () := by
  induction hsteps with
  | refl => exact h₀.validate
  | tail _ hstep ih => exact hstep.validate.trans ih

/-- A program that was constructed stays valid, whatever is done with it.  It can be checked
out, no solve fails because of it, and a point that is refused leaves it as it was. -/
theorem Program.valid_of_steps {α : Type} [Scalar α] {p₀ p : Program α} (h₀ : p₀.Constructed)
    (hsteps : Relation.ReflTransGen Program.Step p₀ p) :
    p.validate = .ok () ∧ (∃ W, WorkingCopy.checkOut p = .ok W) ∧
      (∀ (σ ω : Type) [Written α] [Sink σ] (S : Solver α σ ω) (clock : Clock) (e : ProgramError),
        (S.solve clock p).result ≠ .error (.program e)) ∧
      ∀ (W : WorkingCopy α) (x w s : Array α) (e : Fault ProgramError) (p' : Program α),
        WorkingCopy.checkOut p = .ok W → (W.checkIn x w s).run p = (.error e, p') → p' = p := by
  have hvalid : p.validate = .ok () := h₀.validate_of_steps hsteps
  refine ⟨hvalid, ⟨_, WorkingCopy.checkOut_eq_ok_iff.mpr ⟨hvalid, rfl⟩⟩,
    fun σ ω _ _ S clock e => S.solve_ne_program hvalid clock e, fun W x w s e p' hW he => ?_⟩
  exact (WorkingCopy.copies_of_checkOut hW).eq_of_checkIn_eq_error he

/-- The half line is valid after another point has been checked in. -/
theorem Program.valid_of_steps_halfLine : letI := Machine.double
    let p : Program ℝ := { halfLine with x := #[2], w := #[3], s := #[4] }
    (halfLine.Constructed ∧ Relation.ReflTransGen Step halfLine p) ∧
      p.validate = .ok () ∧ ∃ W, WorkingCopy.checkOut p = .ok W := by
  let _ := Machine.double
  intro p
  have hnew : new (.single 1) #[1] #[1] [.nonnegative 0] = .ok halfLine := by
    rw [new, ofData, if_neg (by simp [Csc.single, maxLength])]
    cbv
  have hcheckOut : WorkingCopy.checkOut halfLine = .ok .halfLine := by cbv
  have hcheckIn : ((WorkingCopy.halfLine.checkIn #[2] #[3] #[4]).run halfLine).2 = p := by rfl
  have hstep : Step halfLine p := hcheckIn ▸ .checkIn #[2] #[3] #[4] hcheckOut
  obtain ⟨hvalid, hW, -⟩ := valid_of_steps (.new hnew) (.single hstep)
  exact ⟨⟨.new hnew, .single hstep⟩, hvalid, hW⟩

end Conic
