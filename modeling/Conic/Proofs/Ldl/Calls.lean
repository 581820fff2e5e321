import Conic.Proofs.Ldl.Refactor
import Conic.Proofs.Ldl.Solve

/-!
# Sequences of calls

An object is made once and then used again and again: values are loaded, they
are factored, systems are solved.  `Ldl.run?` makes a list of such calls one
after the other, and `Ldl.current` is the matrix whose values are loaded then.

`Ldl.Carries` is what every call keeps: but for its scratch and its factors, the
object is the one from which the first factorisation of the current matrix would
start.  A solve leaves the object as it was.  So a factorisation has the outcome
that a new object would have, whatever was called before
(`Ldl.asNew_of_run`).
-/

namespace Conic.Ldl

variable {α : Type} [Scalar α]

/-! ## Calls -/

/-- A call on an object. -/
inductive Call (α : Type) where
  /-- Loads values. -/
  | load (values : Array α)
  /-- Factors the loaded values. -/
  | refactor
  /-- Solves a system. -/
  | solve (b : Array α)

/-- Whether a call is a solve. -/
def Call.isSolve : Call α → Bool
  | solve _ => true
  | _ => false

/-- The object after a call.  A factorisation may end at a pivot that is
refused. -/
def call? (F : Ldl α) : Call α → Option (Ldl α)
  | .load values => some (F.updateValues values)
  | .refactor => F.refactor?.map Prod.fst
  | .solve b => (F.solve? b).map Prod.snd

/-- The object after a list of calls. -/
def run? (F : Ldl α) (calls : List (Call α)) : Option (Ldl α) := calls.foldlM call? F

/-- The matrix with the values that are loaded after a list of calls. -/
def current (M : Csc α) (calls : List (Call α)) : Csc α :=
  calls.foldl (fun M call => match call with
    | .load values => overwrite M values
    | _ => M) M

/-- A factorisation of the object has the outcome of a new one.  Nothing but the
stack differs. -/
def AsNew (new : Except (Fault LdlError) (Ldl α)) (F : Ldl α) : Option LdlError → Prop
  | none => ∃ N, new = .ok N ∧ F = { N with stack := F.stack }
  | some e => new = .error (.cause e)

/-! ## What a call keeps -/

/-- The object holds the triangle `M` in the order `perm`.  Its scratch and its
factors may be those of other values. -/
structure Carries (F : Ldl α) (M : Csc α) (perm : Array ℕ) (reg : Option (Regularization α)) :
    Prop where
  valid : M.Valid
  square : M.nrows = M.ncols
  isTriu : M.IsTriu
  isOrder : Ordering.isOrder M.ncols perm.toList = true
  /-- What is not computed by a factorisation is as before the first one. -/
  start : ∃ G w, start? M perm reg = some G ∧ F = G.store w
  /-- The object belongs to the matrix. -/
  belongs : ∃ π ι dest, Belongs F M π ι dest

/-- An object before its first factorisation. -/
theorem exists_carries {M : Csc α} (hM : M.Valid) (hsq : M.nrows = M.ncols) (htri : M.IsTriu)
    {perm : Array ℕ} (hperm : Ordering.isOrder M.ncols perm.toList = true)
    (reg : Option (Regularization α)) : ∃ F, start? M perm reg = some F ∧ Carries F M perm reg := by
  obtain ⟨F, π, ι, dest, hstart, hbelongs, -⟩ := exists_start? hM hsq hperm reg
  exact ⟨F, hstart, hM, hsq, htri, hperm, ⟨F, F.toWork, hstart, rfl⟩, π, ι, dest, hbelongs⟩

/-- Making an object in a given order. -/
theorem Carries.of_ofOrder {M : Csc α} {perm : Array ℕ} {reg : Option (Regularization α)}
    {F : Ldl α} (hM : M.Valid) (hsq : M.nrows = M.ncols) (htri : M.IsTriu)
    (hperm : Ordering.isOrder M.ncols perm.toList = true) (h : ofOrder M perm reg = .ok F) :
    Carries F M perm reg := by
  obtain ⟨G, π, ι, dest, hG, hbelongs, -⟩ := exists_start? hM hsq hperm reg
  obtain ⟨w, e, hrefactor, hsymbolic⟩ := hbelongs.symbolic.exists_store
  rw [ofOrder_eq hG, hrefactor] at h
  cases e with
  | some e => cases h
  | none =>
    cases h
    exact ⟨hM, hsq, htri, hperm, ⟨G, w, hG, rfl⟩, π, ι, dest, hbelongs.store hsymbolic⟩

namespace Carries

variable {F : Ldl α} {M : Csc α} {perm : Array ℕ} {reg : Option (Regularization α)}
  (h : Carries F M perm reg)

include h

/-- The object before the first factorisation belongs to the matrix, too. -/
theorem exists_start : ∃ G w π ι dest, start? M perm reg = some G ∧ F = G.store w ∧
    Belongs G M π ι dest ∧ G.regularization = reg := by
  obtain ⟨G, w, hG, hF⟩ := h.start
  obtain ⟨G', π, ι, dest, hG', hbelongs, hreg⟩ := exists_start? h.valid h.square h.isOrder reg
  rw [hG, Option.some.injEq] at hG'
  subst hG'
  exact ⟨G, w, π, ι, dest, hG, hF, hbelongs, hreg⟩

theorem regularization_eq : F.regularization = reg := by
  obtain ⟨G, w, _, _, _, -, rfl, -, hreg⟩ := h.exists_start
  exact hreg

/-- The first object of the matrix with other values has them loaded. -/
theorem start?_overwrite {G : Ldl α} {w : Work α} (hG : start? M perm reg = some G)
    (hF : F = G.store w) (values : Array α) : start? (overwrite M values) perm reg =
      some { G with permuted := (F.updateValues values).permuted } := by
  subst hF
  simp only [start?, Option.bind_eq_bind, Option.bind_eq_some_iff, Option.pure_def,
    Option.some.injEq] at hG
  obtain ⟨⟨P, places⟩, hpermute, ⟨parent, colPtr⟩, hanalyse, nnz, hnnz, rfl⟩ := hG
  have hpermute' := permuteTriu?_overwrite h.valid h.square h.isOrder hpermute values
  have hanalyse' (vs : Array α) : analyse? { P with values := vs } = some (parent, colPtr) :=
    hanalyse
  have hnnz' : colPtr[(overwrite M values).ncols]? = some nnz := hnnz
  simp only [start?, hpermute', hanalyse', hnnz', Option.bind_eq_bind, Option.bind_some,
    Option.pure_def]
  rfl

/-- Loading values changes the matrix. -/
theorem updateValues (values : Array α) :
    Carries (F.updateValues values) (overwrite M values) perm reg := by
  obtain ⟨G, w, hG, hF⟩ := h.start
  obtain ⟨π, ι, dest, hbelongs⟩ := h.belongs
  exact ⟨valid_overwrite h.valid values, h.square, isTriu_overwrite h.isTriu h.valid values,
    h.isOrder, ⟨_, w, h.start?_overwrite hG hF values, hF ▸ rfl⟩,
    π, ι, dest, hbelongs.updateValues h.valid.toDivided values⟩

/-- Factoring has the outcome that a new object has. -/
theorem exists_refactor? : ∃ F' e, F.refactor? = some (F', e) ∧ Carries F' M perm reg ∧
    AsNew (ofOrder M perm reg) F' e := by
  obtain ⟨G, w, _, _, _, hG, rfl, hstart, -⟩ := h.exists_start
  obtain ⟨π, ι, dest, hbelongs⟩ := h.belongs
  obtain ⟨u, u', e, hrefactor, hrefactor', hlast, -⟩ :=
    hstart.symbolic.exists_refactor?_store hbelongs.symbolic
  obtain ⟨w', e', hrefactor'', hsymbolic⟩ := hbelongs.symbolic.exists_store
  rw [hrefactor', Option.some.injEq, Prod.mk.injEq] at hrefactor''
  refine ⟨G.store u', e, hrefactor', ⟨h.valid, h.square, h.isTriu, h.isOrder, ⟨G, u', hG, rfl⟩,
    π, ι, dest, ?_⟩, ?_⟩
  · rw [hrefactor''.1]
    exact hbelongs.store hsymbolic
  · cases e with
    | none =>
      refine ⟨G.store u, ?_, congrArg G.store (hlast rfl)⟩
      rw [ofOrder_eq hG, hrefactor]
    | some e =>
      show ofOrder M perm reg = .error (.cause e)
      rw [ofOrder_eq hG, hrefactor]

/-- A list of calls succeeds.  Without its solves it leaves the same object. -/
theorem exists_run? {calls : List (Call α)} (hb : ∀ b, .solve b ∈ calls → b.size = M.ncols) :
    ∃ F', run? F calls = some F' ∧ run? F (calls.filter fun call => !call.isSolve) = some F' ∧
      Carries F' (current M calls) perm reg := by
  induction calls generalizing F M with
  | nil => exact ⟨F, rfl, rfl, h⟩
  | cons call calls ih =>
    cases call with
    | load values =>
      exact ih (h.updateValues values) fun b hmem => hb b (by simp [hmem])
    | refactor =>
      obtain ⟨F', e, hrefactor, h', -⟩ := h.exists_refactor?
      obtain ⟨F'', hrun, hrun', h''⟩ := ih h' fun b hmem => hb b (by simp [hmem])
      have hcall : call? F .refactor = some F' := by simp [call?, hrefactor]
      refine ⟨F'', ?_, ?_, h''⟩
      · rw [run?, List.foldlM_cons, hcall]
        exact hrun
      · rw [List.filter_cons_of_pos rfl, run?, List.foldlM_cons, hcall]
        exact hrun'
    | solve b =>
      obtain ⟨π, ι, dest, hbelongs⟩ := h.belongs
      obtain ⟨x, hx⟩ := hbelongs.exists_solve? (hb b (by simp))
      obtain ⟨F', hrun, hrun', h'⟩ := ih h fun b hmem => hb b (by simp [hmem])
      have hcall : call? F (.solve b) = some F := by simp [call?, hx]
      refine ⟨F', ?_, ?_, h'⟩
      · rw [run?, List.foldlM_cons, hcall]
        exact hrun
      · rw [List.filter_cons_of_neg (by simp [Call.isSolve])]
        exact hrun'

end Carries

/-! ## The outcome of a factorisation -/

omit [Scalar α] in
/-- The order depends on the pattern only. -/
theorem order_current (M : Csc α) (calls : List (Call α)) : order (current M calls) = order M := by
  induction calls generalizing M with
  | nil => rfl
  | cons call calls ih => cases call with
    | load values => exact ih (overwrite M values)
    | refactor => exact ih M
    | solve b => exact ih M

/-- What can be factored is a square triangle. -/
theorem square_of_factor_eq_ok {M : Csc α} {reg : Option (Regularization α)} {F : Ldl α}
    (hM : M.Valid) (h : factor M reg = .ok F) : M.nrows = M.ncols ∧ M.IsTriu := by
  rw [factor, guard_eq_ok_iff, not_not, bind_eq_ok_iff] at h
  obtain ⟨hsq, triu, htriu, h⟩ := h
  rw [guard_eq_ok_iff] at h
  rw [Fault.ofOption_eq_ok_iff] at htriu
  refine ⟨hsq, hM.isTriu?_eq_true_iff.mp ?_⟩
  simpa [htriu] using h.1

/-- After any calls on a new object, factoring has the outcome that it has for a
new object of the current matrix: the same factors, or the same failure.  The
calls could as well have been made without the solves among them. -/
theorem asNew_of_run {M : Csc α} (hM : M.Valid) {reg : Option (Regularization α)}
    {F₀ : Ldl α} (h : factor M reg = .ok F₀) {calls : List (Call α)}
    (hb : ∀ b, .solve b ∈ calls → b.size = M.ncols) :
    ∃ F F' e, run? F₀ calls = some F ∧
      run? F₀ (calls.filter fun call => !call.isSolve) = some F ∧ F.refactor? = some (F', e) ∧
      AsNew (factor (current M calls) reg) F' e := by
  obtain ⟨hsq, htri⟩ := square_of_factor_eq_ok hM h
  obtain ⟨perm, horder, hperm, hfactor⟩ := exists_factor hM hsq htri reg
  have hcarries := Carries.of_ofOrder hM hsq htri hperm (hfactor ▸ h)
  obtain ⟨F, hrun, hrun', hF⟩ := hcarries.exists_run? hb
  obtain ⟨F', e, hrefactor, -, hnew⟩ := hF.exists_refactor?
  obtain ⟨perm', horder', -, hfactor'⟩ := exists_factor hF.valid hF.square hF.isTriu reg
  rw [order_current, horder, Except.ok.injEq] at horder'
  subst horder'
  exact ⟨F, F', e, hrun, hrun', hrefactor, hfactor' ▸ hnew⟩

/-- The triangle of four rows in a cycle. -/
def cycle (values : Array ℚ) : Csc ℚ where
  nrows := 4
  ncols := 4
  colPtr := #[0, 1, 3, 5, 8]
  rowIdx := #[0, 0, 1, 1, 2, 0, 2, 3]
  values := values

/-- The fill-reducing order of a cycle begins with its last row.  A factorisation that fails at
its last pivot and a solve with what it leaves change nothing for the next one. -/
theorem asNew_cycle : letI := Scalar.rational
    let M := cycle #[4, 1, 4, 1, 4, 1, 1, 4]
    let calls : List (Call ℚ) :=
      [.load #[8, 1, 4, 1, 0], .refactor, .solve #[1, 2, 3, 4], .load #[5, 2, 4, 1, 4, 1, 1]]
    M.Valid ∧ (∀ b, .solve b ∈ calls → b.size = M.ncols) ∧
      ∃ F₀ F F', factor M none = .ok F₀ ∧ F₀.perm = #[3, 0, 1, 2] ∧ run? F₀ calls = some F ∧
        run? F₀ (calls.filter fun call => !call.isSolve) = some F ∧
        F.diag = #[4, 31 / 4, 120 / 31, 24 / 7] ∧ F.refactor? = some (F', none) ∧
        AsNew (factor (current M calls) none) F' none ∧
        F'.values = #[1 / 4, 1 / 4, 8 / 19, -1 / 19, 7 / 20] ∧
        F'.diag = #[4, 19 / 4, 60 / 19, 67 / 20] := by
  let _ := Scalar.rational
  let M := cycle #[4, 1, 4, 1, 4, 1, 1, 4]
  let calls : List (Call ℚ) :=
    [.load #[8, 1, 4, 1, 0], .refactor, .solve #[1, 2, 3, 4], .load #[5, 2, 4, 1, 4, 1, 1]]
  have hM : M.Valid := ⟨⟨rfl, rfl, rfl, rfl, by decide⟩, by decide⟩
  have htri : M.IsTriu := hM.isTriu?_eq_true_iff.mp (by cbv)
  have hlength : ∀ b : Array ℚ, .solve b ∈ calls → b.size = M.ncols := by
    intro b hb
    obtain rfl : b = #[1, 2, 3, 4] := by simpa [calls] using hb
    rfl
  -- the order and the factorisations are evaluated, and the solve is left out
  obtain ⟨perm, horder, -, hfactor⟩ := exists_factor hM rfl htri none
  have horder' : order M = .ok #[3, 0, 1, 2] := by cbv
  obtain rfl : perm = #[3, 0, 1, 2] := Except.ok.inj (horder.symm.trans horder')
  have hvalues : (do
      let F₀ ← (ofOrder M #[3, 0, 1, 2] none).toOption
      let F ← run? F₀ (calls.filter fun call => !call.isSolve)
      let r ← F.refactor?
      pure ((F₀.perm, F.diag), r.2, r.1.values, r.1.diag)) =
        some ((#[3, 0, 1, 2], #[4, 31 / 4, 120 / 31, 24 / 7]), none,
          #[1 / 4, 1 / 4, 8 / 19, -1 / 19, 7 / 20], #[4, 19 / 4, 60 / 19, 67 / 20]) := by
    decide +kernel
  rw [← hfactor] at hvalues
  cases hF₀ : factor M none with
  | error e =>
    rw [hF₀] at hvalues
    cases hvalues
  | ok F₀ =>
    obtain ⟨F, F', e, hrun, hrun', hrefactor, hnew⟩ := asNew_of_run hM hF₀ hlength
    simp only [hF₀, Except.toOption, hrun', hrefactor, Option.bind_eq_bind, Option.bind_some,
      Option.pure_def, Option.some.injEq, Prod.mk.injEq] at hvalues
    obtain ⟨⟨hperm, hold⟩, rfl, hentries, hpivots⟩ := hvalues
    exact ⟨hM, hlength, F₀, F, F', hF₀, hperm, hrun, hrun', hold, hrefactor, hnew, hentries,
      hpivots⟩

end Conic.Ldl
