import Conic.Proofs.Solver.Lifetime

/-!
# What may be in a file

Nothing is known about the arrays of a file until they have been checked, and the
checks read the very arrays that they check.  They come in an order in which none of
them reads out of bounds: the lengths and the ends of the pointers are checked before
the order of the pointers, and that before the rows are read column by column
(`Csc.checkFormat_ne_outOfBounds`).  So validating a program always gives an answer
(`Program.validate_ne_outOfBounds`).

Only the point of the program is made before the checks.  It takes its length from
the sizes that the file claims, and a size beyond every vector is a fault
(`ProgramFile.Oversized`).  `ProgramFile.read_cases` says that this is the only one, and
what is known about a program that has been read.
-/

namespace Conic

/-! ## The checks -/

theorem Fault.lift_ne_outOfBounds {ε β : Type} (x : Except ε β) :
    Fault.lift x ≠ .error .outOfBounds := by
  cases x <;> nofun

theorem Fault.mapCause_eq_outOfBounds_iff {ε ε' β : Type} {f : ε → ε'} {x : Except (Fault ε) β} :
    Fault.mapCause f x = .error .outOfBounds ↔ x = .error .outOfBounds := by
  cases x with
  | ok b => simp [Fault.mapCause]
  | error e => cases e <;> simp [Fault.mapCause]

/-- A loop that only checks fails in one of its passes. -/
theorem exists_of_forIn_eq_error {ε γ : Type} {l : List γ}
    {f : γ → Unit → Except ε (ForInStep Unit)} {e : ε} (h : forIn l () f = .error e) :
    ∃ x ∈ l, f x () = .error e := by
  induction l with
  | nil => cases h
  | cons x l ih =>
    rw [List.forIn_cons] at h
    rcases bind_eq_error_iff.mp h with hx | ⟨step, -, h⟩
    · exact ⟨x, List.mem_cons_self, hx⟩
    · cases step with
      | done => cases h
      | yield =>
        obtain ⟨x', hx', herror⟩ := ih h
        exact ⟨x', List.mem_cons_of_mem _ hx', herror⟩

namespace Csc

variable {α : Type} {A : Csc α}

theorem checkColumn_ne_outOfBounds (hA : A.Divided) {j : ℕ} (hj : j < A.ncols) :
    A.checkColumn j () ≠ .error .outOfBounds := by
  rw [checkColumn, hA.rows?_eq hj]
  intro h
  rcases bind_eq_error_iff.mp h with h | ⟨rows, -, h⟩
  · cases h
  · rcases guard_eq_error_iff.mp h with ⟨-, h⟩ | ⟨-, h⟩ <;> cases h

/-- The format check reads the rows of a column only when the column lies within the
entries. -/
theorem checkFormat_ne_outOfBounds (A : Csc α) : A.checkFormat ≠ .error .outOfBounds := by
  intro h
  unfold checkFormat at h
  rcases guard_eq_error_iff.mp h with ⟨-, h⟩ | ⟨hdimensions, h⟩
  · cases h
  rcases guard_eq_error_iff.mp h with ⟨-, h⟩ | ⟨hpointers, h⟩
  · cases h
  have hdimensions : A.dimensionsAgree = true := by simpa using hdimensions
  have hpointers : chained (fun a b => decide (a ≤ b)) A.colPtr.toList = true := by
    simpa using hpointers
  obtain ⟨hcol, hrow, hzero, hncols⟩ := dimensionsAgree_iff.mp hdimensions
  have hA : A.Divided :=
    ⟨hcol, hrow, hzero, hncols, (pairwise_colPtr_iff hcol).mp ((chained_le_iff _).mp hpointers)⟩
  rcases bind_eq_error_iff.mp h with h | ⟨_, -, h⟩
  · obtain ⟨j, hj, hcolumn⟩ := exists_of_forIn_eq_error (f := A.checkColumn) h
    exact checkColumn_ne_outOfBounds hA (List.mem_range.mp hj) hcolumn
  · cases h

end Csc

namespace Program

variable {α : Type}

/-- Validating a program never reads out of bounds, whatever its arrays are. -/
theorem validate_ne_outOfBounds (p : Program α) : p.validate ≠ .error .outOfBounds := by
  intro h
  simp only [validate, bind_eq_error_iff, Fault.lift_ne_outOfBounds, false_or,
    Fault.mapCause_eq_outOfBounds_iff, Csc.checkFormat_ne_outOfBounds, and_false, exists_false]
    at h

/-- Data makes a fault only if there is no room for its point. -/
theorem ofData_eq_outOfBounds_iff [Scalar α] {A : Csc α} {b c : Array α}
    {cones : List (ConeSpec ℕ)} {map : VariableMap} :
    ofData A b c cones map = .error .outOfBounds ↔
      maxLength < A.ncols ∨ maxLength < A.nrows := by
  rw [ofData]
  split
  next h => exact iff_of_true rfl h
  next h =>
    refine iff_of_false (fun herror => ?_) h
    rw [ofParts] at herror
    rcases bind_eq_error_iff.mp herror with herror | ⟨_, -, herror⟩
    · exact validate_ne_outOfBounds _ herror
    · cases herror

/-- The point of a program that was made from data is zero. -/
theorem point_of_ofData [Scalar α] {A : Csc α} {b c : Array α} {cones : List (ConeSpec ℕ)}
    {map : VariableMap} {p : Program α} (h : ofData A b c cones map = .ok p) :
    p.x = Vec.zeros p.A.ncols ∧ p.w = Vec.zeros p.A.nrows ∧ p.s = Vec.zeros p.A.ncols := by
  obtain ⟨hb, hc, -⟩ := (WorkingCopy.validated_of_validate (validate_of_ofData h)).sizes
  rw [ofData] at h
  split at h
  · cases h
  · obtain ⟨rfl, -⟩ := ofParts_eq_ok_iff.mp h
    exact ⟨congrArg Vec.zeros hc, congrArg Vec.zeros hb, congrArg Vec.zeros hc⟩

end Program

/-! ## Solving what has been read -/

/-- A solve with valid settings of a valid program does not fail because of the settings. -/
theorem Solver.solve_ne_settings {α σ ω : Type} [Scalar α] [Written α] [Sink σ]
    {S : Solver α σ ω} (hvalid : S.settings.validate = .ok ()) {p : Program α}
    (hp : p.validate = .ok ()) (clock : Clock) (e : SettingsError) :
    (S.solve clock p).result ≠ .error (.settings e) := by
  intro herror
  obtain ⟨t, its, last, -, -, -, -, ns, hends⟩ := exists_passes S hvalid hp clock
  rw [herror] at hends
  rcases hends.of_error with h | h | h | h | h | hnext
  case inr.inr.inr.inr.inr =>
    rcases Task.cases_of_next_eq_error hnext with ⟨_, h⟩ | ⟨_, h⟩ <;> cases h
  all_goals cases h

namespace ProgramFile

/-- The bytes are the text of a record with admissible settings, and the matrix of the
record claims a size that no vector can have. -/
def Oversized (bytes : ByteArray) : Prop :=
  ∃ text file, String.fromUTF8? bytes = some text ∧ ofText text = .ok file ∧
    (∀ s ∈ file.settings, (openTimeLimit s).validate = .ok ()) ∧
    (maxLength < file.A.ncols ∨ maxLength < file.A.nrows)

/-- What is known of a program that has been read, and of the settings beside it. -/
structure Accepted (p : Program Float) (settings : Option (Settings Float)) : Prop where
  /-- The parts of the program fit together. -/
  valid : p.validate = .ok ()
  /-- Its point is zero. -/
  point : p.x = Vec.zeros p.A.ncols ∧ p.w = Vec.zeros p.A.nrows ∧ p.s = Vec.zeros p.A.ncols
  /-- The settings are admissible. -/
  admissible : ∀ s ∈ settings, s.validate = .ok ()
  /-- No solver with these settings refuses the program or the settings. -/
  solvable : ∀ (σ ω : Type) [Sink σ] (S : Solver Float σ ω) (clock : Clock),
    S.settings ∈ settings → (∀ e, (S.solve clock p).result ≠ .error (.program e)) ∧
      ∀ e, (S.solve clock p).result ≠ .error (.settings e)

/-- The settings of a file are checked if it has any. -/
theorem forM_validate_eq_ok_iff {settings : Option (Settings Float)} :
    (settings.forM fun s => Fault.mapCause FileError.settings (Fault.lift s.validate)) = .ok () ↔
      ∀ s ∈ settings, s.validate = .ok () := by
  cases settings with
  | none => exact iff_of_true rfl (by simp)
  | some s => simp [Option.forM, Fault.mapCause_eq_ok_iff, Fault.lift_eq_ok_iff]

theorem forM_validate_ne_outOfBounds (settings : Option (Settings Float)) :
    (settings.forM fun s => Fault.mapCause FileError.settings (Fault.lift s.validate)) ≠
      .error .outOfBounds := by
  cases settings with
  | none => nofun
  | some s =>
    exact fun h => Fault.lift_ne_outOfBounds _ (Fault.mapCause_eq_outOfBounds_iff.mp h)

/-- The bytes of a string are its text. -/
theorem fromUTF8?_toUTF8 (text : String) : String.fromUTF8? text.toUTF8 = some text :=
  dif_pos text.isValidUTF8

/-- A file is read exactly if it goes through all checks. -/
theorem read_eq_ok_iff {bytes : ByteArray} {p : Program Float}
    {settings : Option (Settings Float)} : read bytes = .ok (p, settings) ↔
      ∃ text file, String.fromUTF8? bytes = some text ∧ ofText text = .ok file ∧
        settings = file.settings.map openTimeLimit ∧ (∀ s ∈ settings, s.validate = .ok ()) ∧
        Program.ofData file.A file.b file.c file.cones file.map = .ok p := by
  rw [read]
  cases htext : String.fromUTF8? bytes with
  | none =>
    refine iff_of_false (by simp) ?_
    rintro ⟨_, _, htext', -⟩
    cases htext'
  | some text =>
    simp only [bind_eq_ok_iff, Fault.mapCause_eq_ok_iff, Fault.lift_eq_ok_iff]
    constructor
    · rintro ⟨file, hfile, u, hsettings, q, hq, hpair⟩
      cases hpair
      exact ⟨text, file, rfl, hfile, rfl, forM_validate_eq_ok_iff.mp hsettings, hq⟩
    · rintro ⟨text', file, htext', hfile, rfl, hsettings, hp⟩
      cases htext'
      exact ⟨file, hfile, (), forM_validate_eq_ok_iff.mpr hsettings, p, hp, rfl⟩

theorem read_eq_outOfBounds_iff {bytes : ByteArray} :
    read bytes = .error .outOfBounds ↔ Oversized bytes := by
  constructor
  · intro h
    rw [read] at h
    cases htext : String.fromUTF8? bytes with
    | none =>
      rw [htext] at h
      cases h
    | some text =>
      rw [htext] at h
      simp only [bind_eq_error_iff, Fault.mapCause_eq_outOfBounds_iff, Fault.lift_ne_outOfBounds,
        forM_validate_ne_outOfBounds, false_or, Fault.mapCause_eq_ok_iff, Fault.lift_eq_ok_iff] at h
      obtain ⟨file, hfile, u, hsettings, hdata | ⟨q, -, hq⟩⟩ := h
      · refine ⟨text, file, htext, hfile, fun s hs => ?_,
          Program.ofData_eq_outOfBounds_iff.mp hdata⟩
        exact forM_validate_eq_ok_iff.mp hsettings _ (Option.mem_map_of_mem _ hs)
      · cases hq
  · rintro ⟨text, file, htext, hfile, hsettings, hsize⟩
    have hchecked : ((file.settings.map openTimeLimit).forM fun s =>
        Fault.mapCause FileError.settings (Fault.lift s.validate)) = .ok () := by
      refine forM_validate_eq_ok_iff.mpr fun s hs => ?_
      obtain ⟨s', hs', rfl⟩ := Option.mem_map.mp hs
      exact hsettings s' hs'
    rw [read, htext]
    simp only [hfile, Fault.lift, Fault.mapCause]
    refine bind_eq_error_iff.mpr (.inr ⟨file, rfl, ?_⟩)
    refine bind_eq_error_iff.mpr (.inr ⟨(), hchecked, ?_⟩)
    refine bind_eq_error_iff.mpr (.inl ?_)
    exact Fault.mapCause_eq_outOfBounds_iff.mpr (Program.ofData_eq_outOfBounds_iff.mpr hsize)

/-- A file makes a fault only if it claims a size that no vector can have.  Every other file
is refused with a cause, or holds a valid program at the point zero and admissible settings. -/
theorem read_cases (bytes : ByteArray) :
    (read bytes = .error .outOfBounds ↔ Oversized bytes) ∧
    ∀ p settings, read bytes = .ok (p, settings) → Accepted p settings := by
  refine ⟨read_eq_outOfBounds_iff, fun p settings h => ?_⟩
  obtain ⟨text, file, -, -, -, hsettings, hdata⟩ := read_eq_ok_iff.mp h
  have hvalid := Program.validate_of_ofData hdata
  exact {
    valid := hvalid
    point := Program.point_of_ofData hdata
    admissible := hsettings
    solvable := fun σ ω _ S clock hS => ⟨fun e => S.solve_ne_program hvalid clock e,
      fun e => Solver.solve_ne_settings (hsettings _ hS) hvalid clock e⟩ }

/-- A file with the program that minimizes `x` on the half line, and the default settings. -/
def halfLineText : String :=
  "\x7b\"A\":\x7b\"m\":0,\"n\":1,\"colptr\":[0,0],\"rowval\":[],\"nzval\":[]\x7d," ++
  "\"b\":[],\"c\":[1],\"cones\":[\x7b\"NonnegativeConeT\":0\x7d]," ++
  "\"variables\":\x7b\"columns\":[0],\"variables\":[0]\x7d,\"settings\":\x7b\x7d\x7d"

/-- That file is read. -/
theorem read_cases_halfLine : ∃ p s,
    read halfLineText.toUTF8 = .ok (p, some s) ∧ Accepted p (some s) := by
  have hread : ((read halfLineText.toUTF8).toOption.bind Prod.snd).isSome = true := by
    rw [read, fromUTF8?_toUTF8]
    decide +kernel
  cases h : read halfLineText.toUTF8 with
  | error e =>
    rw [h] at hread
    cases hread
  | ok found =>
    rw [h] at hread
    obtain ⟨p, _ | s⟩ := found
    · cases hread
    · exact ⟨p, s, rfl, (read_cases _).2 _ _ h⟩

/-- A file whose matrix claims `2 ^ 60` rows. -/
def oversizedText : String :=
  "\x7b\"A\":\x7b\"m\":1152921504606846976,\"n\":2,\"colptr\":[0,1,2]," ++
  "\"rowval\":[0,0],\"nzval\":[1,1]\x7d,\"b\":[1.0],\"c\":[1.0,0.0]," ++
  "\"cones\":[\x7b\"NonnegativeConeT\":0\x7d,\x7b\"NonnegativeConeT\":1\x7d]," ++
  "\"variables\":\x7b\"columns\":[0,1],\"variables\":[0,1]\x7d\x7d"

/-- The right-hand side of that file is too short for the rows.  But the point is made before
the lengths are compared. -/
theorem read_oversized : read oversizedText.toUTF8 = .error .outOfBounds := by
  have hfault : (match read oversizedText.toUTF8 with
      | .error .outOfBounds => true
      | _ => false) = true := by
    rw [read, fromUTF8?_toUTF8]
    decide +kernel
  split at hfault
  next h => exact h
  next => cases hfault

end ProgramFile

end Conic
