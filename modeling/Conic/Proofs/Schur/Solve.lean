import Conic.Proofs.Ldl.Solve
import Conic.Proofs.Schur.Assembly
import Conic.Schur.Solve

/-!
# Solving with the complement in exact arithmetic

Without regularization the factors are those of the complement itself, so their
solution is exact and the refinement keeps it (`FactoredSchur.solve_eq`).

`FactoredSchur.Ready` is what every pass keeps: the complement belongs to the
program, and its factors, once there are some, to the pattern of the
complement.  `FactoredSchur.Ready.factor_spec` says that factoring keeps it and
makes the factors those of the current values.
-/

namespace Conic

variable [Machine]

/-! ## Refinement -/

namespace Schur

/-- The vector solves `M x = b`. -/
def IsSolution (M : Csc ℝ) (b x : Array ℝ) : Prop :=
  x.size = M.nrows ∧ M.symMatrix.mulVec (Vec.coords M.nrows x) = Vec.coords M.nrows b

section

variable {M : Csc ℝ} (hM : M.Valid) (hsq : M.nrows = M.ncols) (htri : M.IsTriu) {F : Ldl ℝ}
  {b : Array ℝ} (hb : b.size = M.nrows)

include hM hsq htri hb

/-- The residual of a solution is zero. -/
theorem residual_eq_zero {x : Array ℝ} (hx : IsSolution M b x) :
    (residual M b x).size = M.nrows ∧ Vec.coords M.nrows (residual M b x) = 0 := by
  obtain ⟨hsize, hcoords⟩ := Csc.symMulAdd_eq hM hsq htri (-1) hx.1 1 hb
  refine ⟨hsize, hcoords.trans ?_⟩
  rw [hx.2]
  simp

/-- A correction of a solution is a solution. -/
theorem isSolution_correct (hF : ∀ b : Array ℝ, b.size = M.nrows → IsSolution M b (F.solve b))
    (stopRatio : ℝ) {s : Refinement ℝ} (hx : IsSolution M b s.x)
    (hr : s.r.size = M.nrows ∧ Vec.coords M.nrows s.r = 0) :
    IsSolution M b (s.correct M F stopRatio b).2.x ∧
      (s.correct M F stopRatio b).2.r.size = M.nrows ∧
      Vec.coords M.nrows (s.correct M F stopRatio b).2.r = 0 := by
  obtain ⟨hsize, hsolve⟩ := hF s.r hr.1
  have htrial : IsSolution M b (Vec.axpby 1 s.x 1 (F.solve s.r)) := by
    refine ⟨by rw [Vec.size_axpby, hx.1, hsize, min_self], ?_⟩
    rw [Vec.coords_axpby _ _ _ (hx.1.trans hsize.symm), one_smul, one_smul, Matrix.mulVec_add,
      hx.2, hsolve, hr.2, add_zero]
  refine ⟨?_, residual_eq_zero hM hsq htri hb htrial⟩
  simp only [Refinement.correct]
  split
  · exact htrial
  · exact hx

/-- Refining a solution gives a solution. -/
theorem isSolution_refine (hF : ∀ b : Array ℝ, b.size = M.nrows → IsSolution M b (F.solve b))
    (tol stopRatio : ℝ) (count : ℕ) {s : Refinement ℝ} (hx : IsSolution M b s.x)
    (hr : s.r.size = M.nrows ∧ Vec.coords M.nrows s.r = 0) :
    IsSolution M b (refine M F tol stopRatio b count s) := by
  induction count generalizing s with
  | zero => exact hx
  | succ count ih =>
    obtain ⟨hx', hr'⟩ := isSolution_correct hM hsq htri hb hF stopRatio hx hr
    rw [refine]
    split
    · exact hx
    · split
      next next heq =>
        rw [heq] at hx' hr'
        exact ih hx' hr'
      next next heq =>
        rw [heq] at hx'
        exact hx'

end

end Schur

namespace FactoredSchur

open Schur

/-- Factors that can be used again: they belong to the pattern of a matrix, and
replace pivots as given. -/
def Reusable (factors : Option (Ldl ℝ)) (M : Csc ℝ) (reg : Option (Regularization ℝ)) : Prop :=
  ∀ F, factors = some F → F.regularization = reg ∧ ∃ values π ι dest,
    values.size = M.nnz ∧ Ldl.Belongs F { M with values := values } π ι dest

/-- The values of the matrix do not matter. -/
theorem Reusable.withValues {factors : Option (Ldl ℝ)} {M : Csc ℝ}
    {reg : Option (Regularization ℝ)} (h : Reusable factors M reg) {values : Array ℝ}
    (hvalues : values.size = M.nnz) : Reusable factors { M with values := values } reg := by
  intro F hF
  obtain ⟨hreg, loaded, π, ι, dest, hsize, hbelongs⟩ := h F hF
  exact ⟨hreg, loaded, π, ι, dest, hsize.trans hvalues.symm, hbelongs⟩

/-! ## What every pass keeps -/

/-- The complement belongs to a matrix and a cone, and its factors to its
pattern.  They replace no pivots. -/
structure Ready (S : FactoredSchur ℝ) (A : Csc ℝ) (K : Composite ℝ) : Prop where
  /-- The complement belongs to the matrix and the cone. -/
  fits : S.schur.Fits A K
  /-- The factors belong to the complement with some values. -/
  factors : ∀ F, S.factors = some F → F.regularization = none ∧ ∃ values π ι dest,
    values.size = S.schur.M.nnz ∧ Ldl.Belongs F { S.schur.M with values := values } π ι dest
  /-- Without constraints there are no factors. -/
  empty : S.schur.M.nrows = 0 → S.factors = none

theorem ready_new (A : Csc ℝ) (K : Composite ℝ) : (new A K).Ready A K :=
  ⟨fits_new A K, fun _ h => (nomatch h), fun _ => rfl⟩

/-- The factors solve the systems of the complement. -/
def Solves (S : FactoredSchur ℝ) : Prop :=
  match S.factors with
  | none => S.schur.M.nrows = 0
  | some F => ∀ b : Array ℝ, b.size = S.schur.M.nrows → IsSolution S.schur.M b (F.solve b)

/-! ## Factoring -/

/-- Without static regularization nothing is added to the diagonal. -/
theorem shifted_eq (S : Schur ℝ) {settings : Settings ℝ} (hconst : settings.staticConstant = 0)
    (hprop : settings.staticProportional = 0) : shifted S settings = S.M.values := by
  have hshift : shift S settings = 0 := by
    simp [shift, hconst, hprop]
  rw [shifted, hshift]
  refine Loop.foldl_induction (fun _ values => values = S.M.values) rfl fun _ k _ _ values h => ?_
  rw [h]
  apply Array.ext (by simp)
  intro i hi hi'
  rw [Array.getElem_modify]
  split <;> simp

/-- What a factorisation that succeeds leaves. -/
structure Factors (F : Ldl ℝ) (M : Csc ℝ) : Prop where
  /-- No pivot is replaced. -/
  regularization : F.regularization = none
  /-- The object belongs to the matrix. -/
  belongs : ∃ π ι dest, Ldl.Belongs F M π ι dest
  /-- The factors solve its systems. -/
  solves : ∀ b : Array ℝ, b.size = M.nrows → IsSolution M b (F.solve b)

theorem factors_of_refactor? {F F' : Ldl ℝ} {M : Csc ℝ} {π ι dest : ℕ → ℕ}
    (hF : Ldl.Belongs F M π ι dest) (hM : M.Valid) (hsq : M.nrows = M.ncols) (htri : M.IsTriu)
    (hreg : F.regularization = none) (h : F.refactor? = some (F', none)) : Factors F' M := by
  obtain ⟨w, e, hrefactor, hsymbolic, hfactored, -⟩ := hF.symbolic.exists_factored
  rw [h, Option.some.injEq, Prod.mk.injEq] at hrefactor
  obtain ⟨rfl, rfl⟩ := hrefactor
  obtain ⟨c, ε, hfactored⟩ := hfactored rfl
  have hbelongs := hF.store hsymbolic
  exact ⟨hreg, ⟨π, ι, dest, hbelongs⟩,
    fun b hb => hfactored.solve_eq hbelongs hM hsq htri hreg hb⟩

/-- Whether there have been factors or not, one object that belongs to the matrix with
the given values is factored. -/
theorem exists_factorValues {M : Csc ℝ} (hM : M.Valid) (hsq : M.nrows = M.ncols) (htri : M.IsTriu)
    {reg : Option (Regularization ℝ)} {factors : Option (Ldl ℝ)} (hfactors : Reusable factors M reg)
    {values : Array ℝ} (hvalues : values.size = M.nnz) : ∃ F₀ π ι dest,
      Ldl.Belongs F₀ { M with values := values } π ι dest ∧ F₀.regularization = reg ∧
      factorValues M factors values reg = match F₀.refactor? with
        | some (F, none) => .ok F
        | some (_, some e) => .error e
        | none => .error .orderingFailed := by
  cases factors with
  | some F =>
    obtain ⟨hreg, loaded, π, ι, dest, hsize, hF⟩ := hfactors F rfl
    have hload := hF.updateValues (hM.withValues hsize).toDivided values
    rw [Ldl.overwrite_of_size_eq (show values.size = loaded.size from hvalues.trans hsize.symm)]
      at hload
    refine ⟨_, π, ι, dest, hload, hreg, ?_⟩
    simp only [factorValues]
    rcases (F.updateValues values).refactor? with _ | ⟨F, _ | e⟩ <;> rfl
  | none =>
    have htri' : ({ M with values := values } : Csc ℝ).IsTriu :=
      Ldl.overwrite_of_size_eq hvalues ▸ Ldl.isTriu_overwrite htri hM values
    obtain ⟨perm, -, hperm, hfactor⟩ := Ldl.exists_factor (hM.withValues hvalues) hsq htri' reg
    obtain ⟨F₀, π, ι, dest, hstart, hF₀, hreg⟩ :=
      Ldl.exists_start? (hM.withValues hvalues) hsq hperm reg
    refine ⟨F₀, π, ι, dest, hF₀, hreg, ?_⟩
    simp only [factorValues, hfactor, Ldl.ofOrder_eq hstart]
    rcases F₀.refactor? with _ | ⟨F, _ | e⟩ <;> rfl

/-- The factors of the values of the complement. -/
theorem factorValues_spec {M : Csc ℝ} (hM : M.Valid) (hsq : M.nrows = M.ncols) (htri : M.IsTriu)
    {factors : Option (Ldl ℝ)} (hfactors : Reusable factors M none) {F : Ldl ℝ}
    (h : factorValues M factors M.values none = .ok F) : Factors F M := by
  obtain ⟨F₀, π, ι, dest, hF₀, hreg, heq⟩ :=
    exists_factorValues hM hsq htri hfactors (rfl : M.values.size = M.nnz)
  rw [heq] at h
  split at h
  next F' hrefactor =>
    cases h
    exact factors_of_refactor? hF₀ hM hsq htri hreg hrefactor
  next => cases h
  next => cases h

namespace Ready

variable {S : FactoredSchur ℝ} {A : Csc ℝ} {K : Composite ℝ} (hS : S.Ready A K)

include hS

/-- The values of the complement may be replaced. -/
theorem assemble (hA : A.WellFormed) (hK : K.numel ≤ A.ncols) (refl : Array ℝ) :
    Ready { S with schur := S.schur.assemble A K refl } A K where
  fits := hS.fits.assemble hA hK refl
  factors := Reusable.withValues hS.factors (hS.fits.nnz_assemble hA hK refl)
  empty h := hS.empty h

theorem of_cols_eq {K' : Composite ℝ} (h : (terms K').map Term.cols = (terms K).map Term.cols) :
    S.Ready A K' := ⟨hS.fits.of_cols_eq h, hS.factors, hS.empty⟩

/-- Factoring keeps the complement and computes its factors. -/
theorem factor_spec (hA : A.Valid) (hK : K.numel ≤ A.ncols) {settings : Settings ℝ}
    (hconst : settings.staticConstant = 0) (hprop : settings.staticProportional = 0)
    (hdyn : settings.dynamicEnable = false) {S' : FactoredSchur ℝ}
    (h : S.factor settings = .ok S') : S'.schur = S.schur ∧ S'.Ready A K ∧ S'.Solves := by
  have hM := (hS.fits.wellFormed hA hK).toValid
  have hsq : S.schur.M.nrows = S.schur.M.ncols := hS.fits.nrows_eq.trans hS.fits.ncols_eq.symm
  rw [FactoredSchur.factor, shifted_eq S.schur hconst hprop, regularization, hdyn] at h
  split at h
  next hempty =>
    cases h
    refine ⟨rfl, hS, ?_⟩
    rw [Solves, hS.empty hempty]
    exact hempty
  next hrows =>
    split at h
    next F hF =>
      cases h
      have hfactors := factorValues_spec hM hsq (hS.fits.isTriu hA hK) hS.factors hF
      obtain ⟨π, ι, dest, hbelongs⟩ := hfactors.belongs
      refine ⟨rfl, ⟨hS.fits, fun F' hF' => ?_, fun h => absurd h hrows⟩, hfactors.solves⟩
      cases hF'
      exact ⟨hfactors.regularization, S.schur.M.values, π, ι, dest, rfl, hbelongs⟩
    next => cases h

end Ready

/-! ## Solving -/

/-- The refined solution is the solution of the complement. -/
theorem solve_eq {S : FactoredSchur ℝ} (hsolves : S.Solves) (hM : S.schur.M.Valid)
    (hsq : S.schur.M.nrows = S.schur.M.ncols) (htri : S.schur.M.IsTriu) {settings : Settings ℝ}
    {b x : Array ℝ} (hb : b.size = S.schur.M.nrows) (h : S.solve settings b = .ok x) :
    IsSolution S.schur.M b x := by
  rw [Solves] at hsolves
  rw [solve] at h
  split at h
  next hnone =>
    rw [hnone] at hsolves
    cases h
    refine ⟨Vec.size_zeros _, funext fun i => ?_⟩
    exact absurd i.isLt (by omega)
  next F hsome =>
    rw [hsome] at hsolves
    simp only [Vec.isFinite_eq_true, if_true, Except.ok.injEq] at h
    subst h
    split
    · exact isSolution_refine hM hsq htri hb hsolves _ _ _ (hsolves b hb)
        (residual_eq_zero hM hsq htri hb (hsolves b hb))
    · exact hsolves b hb

/-! ## Lengths -/

section

variable {α : Type} [Scalar α]

omit [Machine]

/-- Whatever the factors are, their solution is as long as the right-hand
side. -/
theorem size_solve_ldl (F : Ldl α) (b : Array α) : (F.solve b).size = b.size := by
  rw [Ldl.solve]
  cases h : F.solve? b with
  | none => rfl
  | some x =>
    simp only [Ldl.solve?, Option.bind_eq_bind, Option.bind_eq_some_iff] at h
    obtain ⟨_, -, _, -, _, -, _, h, hx⟩ := h
    obtain rfl := Option.some.inj hx
    exact Loop.of_foldlM_eq_some (fun x : Array α => x.size = b.size) rfl
      (fun b' p x hb' hx => (size_of_update?_eq_some hx).trans hb') h

theorem size_refine (M : Csc α) (F : Ldl α) (tol stopRatio : α) (b : Array α) (count : ℕ)
    {s : Refinement α} (hx : s.x.size = b.size) (hr : s.r.size = b.size) :
    (refine M F tol stopRatio b count s).size = b.size := by
  induction count generalizing s with
  | zero => exact hx
  | succ count ih =>
    have hx' : (s.correct M F stopRatio b).2.x.size = b.size := by
      simp only [Refinement.correct]
      split
      · rw [Vec.size_axpby, size_solve_ldl, hx, hr, min_self]
      · exact hx
    have hr' : (s.correct M F stopRatio b).2.r.size = b.size := M.size_symMulAdd _ _ _ _
    rw [refine]
    split
    · exact hx
    · split
      next next heq =>
        rw [heq] at hx' hr'
        exact ih hx' hr'
      next next heq =>
        rw [heq] at hx'
        exact hx'

/-- Whatever has been factored, a solution is as long as the right-hand side. -/
theorem size_of_solve {S : FactoredSchur α} {settings : Settings α} {b x : Array α}
    (hb : b.size = S.schur.M.nrows) (h : S.solve settings b = .ok x) : x.size = b.size := by
  rw [solve] at h
  split at h
  next =>
    cases h
    rw [Vec.size_zeros, hb]
  next F _ =>
    cases hrefine : settings.refineEnable with
    | true =>
      simp only [hrefine, if_true] at h
      split at h
      · cases h
        exact size_refine _ _ _ _ _ _ (size_solve_ldl F b) (Csc.size_symMulAdd _ _ _ _ _)
      · cases h
    | false =>
      simp only [hrefine, Bool.false_eq_true, if_false] at h
      split at h
      · cases h
        exact size_solve_ldl F b
      · cases h

/-- Factoring keeps the number of rows. -/
theorem nrows_of_factor {S S' : FactoredSchur α} {settings : Settings α}
    (h : S.factor settings = .ok S') : S'.schur.M.nrows = S.schur.M.nrows := by
  rw [factor] at h
  split at h
  next =>
    cases h
    rfl
  next =>
    split at h
    next =>
      cases h
      rfl
    next => cases h

end

end FactoredSchur

end Conic
