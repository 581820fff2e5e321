import Conic.Proofs.Exact.Extended
import Conic.Proofs.Ldl.Interrupted

/-!
# Pivots that are not finite

Each row of a factorisation computes a candidate for its pivot (`Ldl.candidate?`).  The
candidate is replaced if it is below the threshold of a regularization, and then it is
refused if it is not finite or not positive.

So a candidate that is infinite or undefined ends the factorisation, with one
exception: negative infinity is below every threshold, so a regularization replaces it
before it can be refused (`Ldl.refusal?_repair_iff`).  `Ldl.ReportsPivots`
says this of an object after any calls.  An overflow in the eliminations can be repaired
in this way (`Ldl.repaired_overflow`).
-/

namespace Conic.Ldl

variable {α : Type} [Scalar α] {F : Ldl α} {k : ℕ} {w w' : Work α}

/-! ## The candidate of a row -/

/-- What the eliminations of row `k` leave of its diagonal entry, before any regularization. -/
def candidate? (F : Ldl α) (k : ℕ) (w : Work α) : Option α := do
  let (w, pattern) ← collect? F k w
  let dk ← w.y[k]?
  let w := { w with y := ← update? w.y k fun _ => 0 }
  let (_, dk) ← pattern.foldlM (eliminate? F k) (w, dk)
  pure dk

/-- The candidate of a row is repaired, and then it is refused or stored. -/
theorem exists_candidate?_of_row? {e : Option LdlError} (h : row? F k w = some (w', e)) :
    ∃ dk, F.candidate? k w = some dk ∧ e = refusal? (repair F.regularization dk).1 ∧
      (e = none → w'.diag[k]? = some (repair F.regularization dk).1) := by
  simp only [row?, Option.bind_eq_bind, Option.bind_eq_some_iff] at h
  obtain ⟨⟨w₁, pattern⟩, hcollect, d, hd, y, hy, ⟨w₂, dk⟩, hloop, hfinish⟩ := h
  refine ⟨dk, by simp [candidate?, hcollect, hd, hy, hloop], ?_⟩
  simp only at hfinish
  split at hfinish
  next e' hrefused =>
    cases hfinish
    exact ⟨hrefused.symm, nofun⟩
  next haccepted =>
    obtain ⟨diag, hdiag, heq⟩ := Option.bind_eq_some_iff.mp hfinish
    cases heq
    exact ⟨haccepted.symm, fun _ => getElem?_of_update?_const hdiag⟩

/-- A row that begins is computed. -/
theorem Symbolic.exists_row?_of_begins (hF : F.Symbolic) (h : Begins F k w) :
    ∃ w' e, row? F k w = some (w', e) := by
  obtain ⟨c, hw⟩ := hF.exists_rows_of_begins h
  obtain ⟨_, _, -, hrun⟩ := hF.exists_row? h.1 hw.mark
  obtain ⟨w', e, hrow, -⟩ := hrun w c hw rfl
  exact ⟨w', e, hrow⟩

theorem Begins.eq {w₁ w₂ : Work α} (h₁ : Begins F k w₁) (h₂ : Begins F k w₂) : w₁ = w₂ :=
  (Prod.mk.inj (Option.some.inj (h₁.2.symm.trans h₂.2))).1

/-- The factorisation stops at a row that begins and is refused. -/
theorem stopsAt_iff (h : Begins F k w) {e : LdlError} :
    (∃ F', StopsAt F k e F') ↔ ∃ w', row? F k w = some (w', some e) := by
  constructor
  · rintro ⟨F', -, w₀, hbegins, hrow⟩
    exact ⟨_, h.eq hbegins ▸ hrow⟩
  · rintro ⟨w', hrow⟩
    refine ⟨F.store w', ?_, w, h, hrow⟩
    rw [refactor?, rows?_range_of_refused h.1 h.2 hrow]
    rfl

/-- The rows of a factorisation that does not stop are accepted, and later rows keep their
pivots. -/
theorem exists_begins_of_refactor? {F' : Ldl α} (h : F.refactor? = some (F', none))
    (hk : k < F.dim) : ∃ w w', Begins F k w ∧ row? F k w = some (w', none) ∧
      F'.diag[k]? = w'.diag[k]? := by
  simp only [refactor?, Option.bind_eq_bind, Option.bind_eq_some_iff, Option.pure_def,
    Option.some.injEq, Prod.mk.injEq] at h
  obtain ⟨⟨u, _⟩, hrows, rfl, rfl⟩ := h
  obtain ⟨m, hm⟩ := Nat.exists_eq_add_of_lt hk
  rw [hm, Nat.add_assoc, List.range_add, List.range_succ_eq_map, List.map_cons,
    Nat.add_zero] at hrows
  obtain ⟨w, hbefore, hrows⟩ := exists_of_rows?_append hrows
  rw [rows?] at hrows
  split at hrows
  next => cases hrows
  next => cases hrows
  next w' hrow =>
    refine ⟨w, w', ⟨hk, hbefore⟩, hrow, (Extends.of_rows? hrows).2 k ?_⟩
    simp

/-! ## Which candidates are refused -/

/-- The value is a positive real number. -/
def Positive [Extended α] (x : α) : Prop := ∃ r : ℝ, Extended.denote x = some (r : EReal) ∧ 0 < r

/-- The candidate is infinite or undefined, and no regularization replaces it. -/
def Spoils [Extended α] (reg : Option (Regularization α)) (dk : α) : Prop :=
  (∀ r : ℝ, Extended.denote dk ≠ some (r : EReal)) ∧
    ¬ (Extended.denote dk = some ⊥ ∧ reg.isSome = true)

variable [Extended α] {reg : Option (Regularization α)} {dk : α}

theorem Positive.isFinite {x : α} (h : Positive x) : Scalar.isFinite x = true := by
  obtain ⟨r, hr, -⟩ := h
  exact Extended.isFinite_iff.mpr ⟨r, hr⟩

/-- An infinite or undefined value stands for no real number. -/
theorem isFinite_eq_false_iff {x : α} :
    Scalar.isFinite x = false ↔ ∀ r : ℝ, Extended.denote x ≠ some (r : EReal) := by
  rw [← Bool.not_eq_true, Extended.isFinite_iff, not_exists]

omit [Extended α] in
theorem refusal?_eq_nonFinitePivot_iff {d : α} :
    refusal? d = some .nonFinitePivot ↔ Scalar.isFinite d = false := by
  cases hfinite : Scalar.isFinite d with
  | false => simp [refusal?, hfinite]
  | true => by_cases hle : d ≤ 0 <;> simp [refusal?, hfinite, hle]

omit [Extended α] in
/-- A pivot is accepted if it is finite and not below or at zero. -/
theorem refusal?_eq_none_iff_isFinite {d : α} :
    refusal? d = none ↔ Scalar.isFinite d = true ∧ ¬ d ≤ 0 := by
  cases hfinite : Scalar.isFinite d with
  | false => simp [refusal?, hfinite]
  | true => by_cases hle : d ≤ 0 <;> simp [refusal?, hfinite, hle]

theorem denote_eq_bot_iff {x : α} :
    Extended.denote x = some ⊥ ↔ x < 0 ∧ Scalar.isFinite x = false := by
  rw [Extended.lt_iff, isFinite_eq_false_iff, Extended.denote_zero]
  constructor
  · intro hx
    refine ⟨⟨⊥, 0, hx, rfl, EReal.bot_lt_zero⟩, fun r hr => ?_⟩
    exact EReal.coe_ne_bot r (Option.some.inj (hr.symm.trans hx))
  · rintro ⟨⟨a, b, ha, hb, hab⟩, hreal⟩
    cases hb
    cases a with
    | bot => exact ha
    | coe r => exact absurd ha (hreal r)
    | top => exact absurd hab not_top_lt

/-- Negative infinity is below every threshold. -/
theorem lt_of_denote_eq_bot {x : α} (hdk : Extended.denote dk = some ⊥) (hx : Positive x) :
    dk < x := by
  obtain ⟨r, hr, -⟩ := hx
  exact Extended.lt_iff.mpr ⟨⊥, r, hdk, hr, EReal.bot_lt_coe r⟩

/-- A candidate is refused as not finite if it is infinite or undefined, unless it is negative
infinity and a regularization replaces it. -/
theorem refusal?_repair_iff (hreg : ∀ r ∈ reg, Positive r.eps ∧ Positive r.delta) :
    refusal? (repair reg dk).1 = some .nonFinitePivot ↔ Spoils reg dk := by
  rw [refusal?_eq_nonFinitePivot_iff]
  cases reg with
  | none => simp [repair, Spoils, isFinite_eq_false_iff]
  | some r =>
    obtain ⟨heps, hdelta⟩ := hreg r rfl
    by_cases hlt : dk < r.eps
    · -- what is below the threshold is negative infinity or real, and is replaced
      have hreplaced : ¬ Spoils (some r) dk := by
        rintro ⟨hreal, hbot⟩
        obtain ⟨a, b, ha, hb, hab⟩ := Extended.lt_iff.mp hlt
        cases a with
        | bot => exact hbot ⟨ha, rfl⟩
        | coe a => exact hreal a ha
        | top => exact not_top_lt hab
      rw [repair, if_pos hlt]
      simp [hdelta.isFinite, hreplaced]
    · have hbot : ¬ Extended.denote dk = some ⊥ := fun h => hlt (lt_of_denote_eq_bot h heps)
      rw [repair, if_neg hlt]
      simp [Spoils, isFinite_eq_false_iff, hbot]

/-- The accepted pivots are the positive real numbers. -/
theorem refusal?_eq_none_iff_positive {d : α} : refusal? d = none ↔ Positive d := by
  rw [refusal?_eq_none_iff_isFinite, Extended.isFinite_iff]
  constructor
  · rintro ⟨⟨r, hr⟩, hle⟩
    refine ⟨r, hr, lt_of_not_ge fun hneg => hle ?_⟩
    exact Extended.le_iff.mpr ⟨r, 0, hr, Extended.denote_zero, EReal.coe_nonpos.mpr hneg⟩
  · rintro ⟨r, hr, hpos⟩
    refine ⟨⟨r, hr⟩, fun hle => ?_⟩
    obtain ⟨a, b, ha, hb, hab⟩ := Extended.le_iff.mp hle
    cases hr.symm.trans ha
    cases Extended.denote_zero.symm.trans hb
    exact hpos.not_ge (EReal.coe_nonpos.mp hab)

/-! ## Any object -/

/-- A factorisation reports the candidates that are infinite or undefined, but for those that it
replaces. -/
structure ReportsPivots (F : Ldl α) : Prop where
  /-- A factorisation succeeds, up to a pivot that is refused. -/
  answers : ∃ F' e, F.refactor? = some (F', e)
  /-- Every row that begins computes a candidate. -/
  computes : ∀ k w, Begins F k w → ∃ dk, F.candidate? k w = some dk
  /-- The factorisation stops at a row that begins, for a pivot that is not finite, exactly if its
  candidate is infinite or undefined and is not replaced. -/
  stops : ∀ k w dk, Begins F k w → F.candidate? k w = some dk →
    ((∃ F', StopsAt F k .nonFinitePivot F') ↔ Spoils F.regularization dk)
  /-- Negative infinity is replaced by a regularization, and the row is accepted. -/
  replaces : ∀ k w dk r, Begins F k w → F.candidate? k w = some dk → Extended.denote dk = some ⊥ →
    F.regularization = some r → ∃ w', row? F k w = some (w', none) ∧ w'.diag[k]? = some r.delta
  /-- A factorisation that does not stop has computed no other candidates that are infinite or
  undefined, and its pivots are positive. -/
  accepts : ∀ F', F.refactor? = some (F', none) → ∀ k < F.dim, ∃ w dk d, Begins F k w ∧
    F.candidate? k w = some dk ∧ ¬ Spoils F.regularization dk ∧ F'.diag[k]? = some d ∧ Positive d

theorem Symbolic.reportsPivots (hF : F.Symbolic)
    (hreg : ∀ r ∈ F.regularization, Positive r.eps ∧ Positive r.delta) : ReportsPivots F where
  answers := by
    obtain ⟨_, e, hrefactor, -⟩ := hF.exists_store
    exact ⟨_, e, hrefactor⟩
  computes k w hbegins := by
    obtain ⟨w', e, hrow⟩ := hF.exists_row?_of_begins hbegins
    obtain ⟨dk, hdk, -⟩ := exists_candidate?_of_row? hrow
    exact ⟨dk, hdk⟩
  stops k w dk hbegins hdk := by
    obtain ⟨w', e, hrow⟩ := hF.exists_row?_of_begins hbegins
    obtain ⟨dk', hdk', he, -⟩ := exists_candidate?_of_row? hrow
    cases hdk.symm.trans hdk'
    rw [stopsAt_iff hbegins, ← refusal?_repair_iff hreg, ← he, hrow]
    simp
  replaces k w dk r hbegins hdk hbot hsome := by
    obtain ⟨heps, hdelta⟩ := hreg r hsome
    obtain ⟨w', e, hrow⟩ := hF.exists_row?_of_begins hbegins
    obtain ⟨dk', hdk', he, hstored⟩ := exists_candidate?_of_row? hrow
    cases hdk.symm.trans hdk'
    have hrepair : (repair F.regularization dk).1 = r.delta := by
      rw [hsome, repair, if_pos (lt_of_denote_eq_bot hbot heps)]
    rw [hrepair, refusal?_eq_none_iff_positive.mpr hdelta] at he
    subst he
    exact ⟨w', hrow, hrepair ▸ hstored rfl⟩
  accepts F' hrefactor k hk := by
    obtain ⟨w, w', hbegins, hrow, hkept⟩ := exists_begins_of_refactor? hrefactor hk
    obtain ⟨dk, hdk, he, hstored⟩ := exists_candidate?_of_row? hrow
    refine ⟨w, dk, _, hbegins, hdk, fun hspoils => ?_, hkept.trans (hstored rfl),
      refusal?_eq_none_iff_positive.mp he.symm⟩
    cases he.trans ((refusal?_repair_iff hreg).mpr hspoils)

/-- For every square triangle in every order, and every regularization with a positive threshold
and replacement, an object reports its pivots after any calls. -/
theorem reportsPivots_of_run {M : Csc α} (hM : M.Valid) (hsq : M.nrows = M.ncols)
    (htri : M.IsTriu) {perm : Array ℕ} (hperm : Ordering.isOrder M.ncols perm.toList = true)
    (hreg : ∀ r ∈ reg, Positive r.eps ∧ Positive r.delta) : ∃ F₀, start? M perm reg = some F₀ ∧
      ∀ calls, (∀ b, .solve b ∈ calls → b.size = M.ncols) →
        ∃ F, run? F₀ calls = some F ∧ F.regularization = reg ∧ ReportsPivots F := by
  obtain ⟨F₀, hstart, hF₀⟩ := exists_carries hM hsq htri hperm reg
  refine ⟨F₀, hstart, fun calls hb => ?_⟩
  obtain ⟨F, hrun, -, hF⟩ := hF₀.exists_run? hb
  obtain ⟨_, _, _, hbelongs'⟩ := hF.belongs
  exact ⟨F, hrun, hF.regularization_eq,
    hbelongs'.symbolic.reportsPivots (hF.regularization_eq ▸ hreg)⟩

/-- A triangle whose second pivot overflows: its row has the entry `1e200`, and the square of that
is not finite. -/
def overflowing : Csc Float where
  nrows := 2
  ncols := 2
  colPtr := #[0, 1, 3]
  rowIdx := #[0, 0, 1]
  values := #[1, 1e200, 1]

/-- The regularization of the default settings. -/
def usual : Regularization Float := ⟨1e-13, 2e-7⟩

theorem positive_usual : ∀ r ∈ some usual, Positive r.eps ∧ Positive r.delta := by
  rintro _ ⟨⟩
  exact ⟨refusal?_eq_none_iff_positive.mp (by decide +kernel),
    refusal?_eq_none_iff_positive.mp (by decide +kernel)⟩

theorem valid_overflowing : overflowing.Valid := ⟨⟨rfl, rfl, rfl, rfl, by decide⟩, by decide⟩

theorem isTriu_overflowing : overflowing.IsTriu :=
  valid_overflowing.isTriu?_eq_true_iff.mp (by decide +kernel)

/-- This triangle in the order of its columns, with the usual regularization. -/
theorem reportsPivots_overflowing : overflowing.Valid ∧ overflowing.nrows = overflowing.ncols ∧
    overflowing.IsTriu ∧ Ordering.isOrder overflowing.ncols [0, 1] = true ∧
    (∀ r ∈ some usual, Positive r.eps ∧ Positive r.delta) ∧
    ∃ F₀, start? overflowing #[0, 1] (some usual) = some F₀ ∧
      ∀ calls, (∀ b, .solve b ∈ calls → b.size = overflowing.ncols) →
        ∃ F, run? F₀ calls = some F ∧ F.regularization = some usual ∧ ReportsPivots F :=
  ⟨valid_overflowing, rfl, isTriu_overflowing, by decide, positive_usual,
    reportsPivots_of_run valid_overflowing rfl isTriu_overflowing (by decide) positive_usual⟩

/-- The candidate of the second row is negative infinity, which is no finite pivot.  The
factorisation does not stop, and stores the replacement. -/
theorem repaired_overflow : ∃ F₀ F' w dk, start? overflowing #[0, 1] (some usual) = some F₀ ∧
    Begins F₀ 1 w ∧ F₀.candidate? 1 w = some dk ∧ Extended.denote dk = some ⊥ ∧
    F₀.refactor? = some (F', none) ∧ F'.diag = #[1, 2e-7] := by
  have hrun : ((start? overflowing #[0, 1] (some usual)).any fun F =>
      decide (1 < F.dim) &&
      ((F.rows? (List.range 1) F.work).any fun r => r.2.isNone &&
        (F.candidate? 1 r.1).any fun dk => decide (dk < 0) && !Scalar.isFinite dk) &&
      F.refactor?.any fun r => r.2.isNone && r.1.diag = #[1, 2e-7]) = true := by
    decide +kernel
  simp only [Option.any_eq_true, Bool.and_eq_true, decide_eq_true_eq, Option.isNone_iff_eq_none,
    Bool.not_eq_true'] at hrun
  obtain ⟨F₀, hstart, ⟨hdim, ⟨w, e⟩, hbefore, rfl, dk, hdk, hneg, hfinite⟩, ⟨F', e'⟩, hrefactor,
    rfl, hdiag⟩ := hrun
  exact ⟨F₀, F', w, dk, hstart, ⟨hdim, hbefore⟩, hdk, denote_eq_bot_iff.mpr ⟨hneg, hfinite⟩,
    hrefactor, hdiag⟩

end Conic.Ldl
