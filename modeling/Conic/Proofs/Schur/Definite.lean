import Conic.Proofs.Ldl.Definite
import Conic.Proofs.Schur.Complement

/-!
# Factoring the shifted complement

The complement that is assembled for a scaled cone is `AΘ²Aᵀ`, and `Θ²` is the
square of a symmetric map, so it is positive semidefinite.  The shift adds a
multiple of the identity to it: the places of the diagonal are found once, when
the pattern is made, and the assembly does not move them.  With a positive shift
the sum is positive definite, and with a regularization no pivot is refused
anyway.  In both cases the factorisation succeeds
(`FactoredSchur.Carried.exists_factor`).
-/

namespace Conic

open Vec Matrix

variable [Machine]

/-- `Θ²` is the product of `Θ` with its transpose. -/
theorem Composite.Scaled.toMatrix_thetaSq {K : Composite ℝ} {n : ℕ} {x s : Array ℝ}
    (h : K.Scaled n x s) : LinearMap.toMatrix' h.thetaSq =
      LinearMap.toMatrix' h.theta * (LinearMap.toMatrix' h.theta)ᵀ := by
  set T := LinearMap.toMatrix' h.theta with hT
  have hsymm : T = Tᵀ := by
    ext i j
    have := h.theta_dotProduct (Pi.single i 1) (Pi.single j 1)
    rw [dotProduct_single_one, single_one_dotProduct] at this
    rw [transpose_apply, hT, LinearMap.toMatrix'_apply, LinearMap.toMatrix'_apply, this]
  rw [← hsymm, hT, ← LinearMap.toMatrix'_comp]
  exact congrArg _ (LinearMap.ext h.thetaSq_apply)

/-- `Θ²` is positive semidefinite. -/
theorem Composite.Scaled.posSemidef_thetaSq {K : Composite ℝ} {n : ℕ} {x s : Array ℝ}
    (h : K.Scaled n x s) : (LinearMap.toMatrix' h.thetaSq).PosSemidef := by
  rw [h.toMatrix_thetaSq]
  exact posSemidef_self_mul_conjTranspose _

namespace Schur

/-! ## The diagonal -/

/-- The complement knows where its diagonal is stored. -/
def LocatesDiagonal (S : Schur ℝ) : Prop :=
  S.diag = (List.range S.M.nrows).map fun r => locate S.M r r

theorem locatesDiagonal_new (A : Csc ℝ) (K : Composite ℝ) : (new A K).LocatesDiagonal := rfl

/-- The assembly leaves the diagonal where it is. -/
theorem LocatesDiagonal.assemble {S : Schur ℝ} (h : S.LocatesDiagonal) (A : Csc ℝ)
    (K : Composite ℝ) (refl : Array ℝ) : (S.assemble A K refl).LocatesDiagonal := h

/-- The values with an amount added at the places of the diagonal. -/
noncomputable def onDiagonal (M : Csc ℝ) (t : ℝ) : Array ℝ :=
  ((List.range M.nrows).map fun r => locate M r r).foldl
    (fun values k => values.modify k (· + t)) M.values

omit [Machine] in
theorem onDiagonal_spec (M : Csc ℝ) (t : ℝ) : (onDiagonal M t).size = M.nnz ∧
    ∀ k < M.nnz, (onDiagonal M t).getD k 0 = M.values.getD k 0 +
      ((List.range M.nrows).map fun r => if locate M r r = k then t else 0).sum := by
  obtain ⟨hsize, hget⟩ := Vec.getD_foldl_of_add
    (l := (List.range M.nrows).map fun r => locate M r r)
    (g := fun values k => values.modify k (· + t)) (f := fun k i => if k = i then t else 0)
    (fun k _ y hy => ⟨by simpa using hy, fun i hi => Vec.getD_modify_add y k t (hy ▸ hi)⟩)
    (rfl : M.values.size = M.nnz)
  refine ⟨hsize, fun k hk => ?_⟩
  have hgetk := hget k hk
  rw [List.map_map] at hgetk
  exact hgetk

namespace IsPattern

variable {m : ℕ} {columns : Array (List ℕ)} {values : Array ℝ} (h : IsPattern m columns)
  (hvalues : values.size = columns.toList.flatten.length) (t : ℝ)

include h

omit [Machine] in
theorem mem_diag {c : ℕ} (hc : c < m) : c ∈ columns.getD c [] := by
  have hc' : c < columns.size := h.size.symm ▸ hc
  simpa [Array.getD, hc'] using h.diag c hc'

include hvalues

omit [Machine] in
/-- The place of an entry is that of a diagonal entry only on the diagonal. -/
theorem sum_locate_diag {r c : ℕ} (hc : c < m) (hr : r ∈ columns.getD c []) :
    ((List.range m).map fun q => if locate (withValues m columns values) q q =
      locate (withValues m columns values) r c then t else 0).sum = if r = c then t else 0 := by
  have hplace : ∀ q ∈ Finset.range m, (if locate (withValues m columns values) q q =
      locate (withValues m columns values) r c then t else 0) =
        if q = c then (if r = c then t else 0) else 0 := by
    intro q hq
    have hq := Finset.mem_range.mp hq
    have hiff : locate (withValues m columns values) q q =
        locate (withValues m columns values) r c ↔ q = c ∧ r = c := by
      constructor
      · intro heq
        obtain ⟨rfl, rfl⟩ := h.locate_inj hvalues hq hc (h.mem_diag hq) hr heq
        exact ⟨rfl, rfl⟩
      · rintro ⟨rfl, rfl⟩
        rfl
    simp only [hiff, ite_and]
  exact (Finset.sum_congr rfl hplace).trans
    ((Finset.sum_ite_eq' _ _ _).trans (if_pos (Finset.mem_range.mpr hc)))

omit [Machine] in
/-- An amount added at the places of the diagonal is added to the entries of the
diagonal. -/
theorem get_onDiagonal {r c : ℕ} (hc : c < m) :
    (withValues m columns (onDiagonal (withValues m columns values) t)).get r c =
      (withValues m columns values).get r c + if r = c then t else 0 := by
  obtain ⟨hsize, hget⟩ := onDiagonal_spec (withValues m columns values) t
  have hsize' := hsize.trans hvalues
  by_cases hr : r ∈ columns.getD c []
  · rw [h.get_eq hsize' hc hr, h.get_eq hvalues hc hr, ← h.sum_locate_diag hvalues t hc hr]
    -- where an entry is stored does not depend on the values
    exact hget _ (h.locate_lt hvalues hc hr)
  · have hne : r ≠ c := fun heq => hr (heq.symm ▸ h.mem_diag hc)
    rw [h.get_eq_zero hsize' hc hr, h.get_eq_zero hvalues hc hr, if_neg hne, add_zero]

end IsPattern

/-! ## The shifted complement -/

section

variable {S : Schur ℝ} {A : Csc ℝ} {K : Composite ℝ} (hS : S.Fits A K) (hA : A.Valid)
  (hK : K.numel ≤ A.ncols) (t : ℝ)

include hS hA hK

/-- The complement with an amount on its diagonal. -/
theorem Fits.symGet_onDiagonal {r c : ℕ} (hr : r < A.nrows) (hc : c < A.nrows) :
    ({ S.M with values := onDiagonal S.M t } : Csc ℝ).symGet r c =
      S.M.symGet r c + if r = c then t else 0 := by
  obtain ⟨values, hsize, hM⟩ := hS.matrix
  obtain ⟨hpattern, -⟩ := pattern_spec (isSquare_of_mem_squareRows hA hK)
  rw [hM, Csc.symGet, Csc.symGet]
  refine (hpattern.get_onDiagonal hsize t (max_lt hr hc)).trans (congrArg _ ?_)
  have hiff : min r c = max r c ↔ r = c := by
    omega
  simp only [hiff]

end

/-- The entries of the assembled complement are those of `AΘ²Aᵀ`. -/
theorem Fits.symGet_assemble_eq {S : Schur ℝ} {A : Csc ℝ} {K : Composite ℝ} (hS : S.Fits A K)
    (hA : A.WellFormed) {x s : Array ℝ} (hK : Composite.ScaledAt K.blocks x.toList s.toList)
    (h : K.Scaled A.ncols x s) : (Matrix.of fun r c : Fin A.nrows =>
      (S.assemble A K K.reflection).M.symGet r c) =
        A.toMatrix * LinearMap.toMatrix' h.thetaSq * A.toMatrixᵀ := by
  ext r c
  rw [← dotProduct_toMatrix']
  exact (hS.symGet_assemble hA h.numel.le K.reflection r.isLt c.isLt).trans
    (sum_form_eq (Composite.ScaledAt.reflected hK) h.numel _ _)

/-- The assembled complement is positive semidefinite. -/
theorem Fits.posSemidef_assemble {S : Schur ℝ} {A : Csc ℝ} {K : Composite ℝ} (hS : S.Fits A K)
    (hA : A.WellFormed) {x s : Array ℝ} (hK : Composite.ScaledAt K.blocks x.toList s.toList)
    (h : K.Scaled A.ncols x s) : (Matrix.of fun r c : Fin A.nrows =>
      (S.assemble A K K.reflection).M.symGet r c).PosSemidef := by
  rw [hS.symGet_assemble_eq hA hK h]
  exact h.posSemidef_thetaSq.mul_mul_conjTranspose_same A.toMatrix

/-- A positive amount on the diagonal makes the complement positive definite. -/
theorem Fits.posDef_onDiagonal {S : Schur ℝ} {A : Csc ℝ} {K : Composite ℝ} (hS : S.Fits A K)
    (hA : A.WellFormed) {x s : Array ℝ} (hK : Composite.ScaledAt K.blocks x.toList s.toList)
    (h : K.Scaled A.ncols x s) {t : ℝ} (ht : 0 < t) :
    ({ (S.assemble A K K.reflection).M with
      values := onDiagonal (S.assemble A K K.reflection).M t } : Csc ℝ).symMatrix.PosDef := by
  have hfits := hS.assemble hA h.numel.le K.reflection
  have hnrows := hfits.nrows_eq
  have heq : ({ (S.assemble A K K.reflection).M with
      values := onDiagonal (S.assemble A K K.reflection).M t } : Csc ℝ).symMatrix =
        ((Matrix.of fun r c : Fin A.nrows => (S.assemble A K K.reflection).M.symGet r c) +
          t • (1 : Matrix (Fin A.nrows) (Fin A.nrows) ℝ)).submatrix
            (Fin.cast hnrows) (Fin.cast hnrows) := by
    ext r c
    have hentry := hfits.symGet_onDiagonal hA.toValid h.numel.le t
      (r.isLt.trans_eq hnrows) (c.isLt.trans_eq hnrows)
    refine hentry.trans ?_
    simp [Matrix.one_apply, Fin.ext_iff]
  rw [heq]
  exact (PosDef.posSemidef_add (hS.posSemidef_assemble hA hK h) (PosDef.one.smul ht)).submatrix
    (Fin.cast_injective hnrows)

end Schur

/-! ## Regularization -/

/-- The regularization keeps every factorisation from failing: small pivots are
replaced, or a positive amount is added to the diagonal. -/
structure Settings.Regularized (settings : Settings ℝ) : Prop where
  constant : 0 ≤ settings.staticConstant
  proportional : 0 ≤ settings.staticProportional
  eps : 0 < settings.dynamicEps
  delta : 0 < settings.dynamicDelta
  /-- One of the two is in use. -/
  enabled : 0 < settings.staticConstant ∨ settings.dynamicEnable = true

namespace FactoredSchur

open Schur

/-- The shift is at least its constant part. -/
theorem staticConstant_le_shift (S : Schur ℝ) {settings : Settings ℝ}
    (h : 0 ≤ settings.staticProportional) : settings.staticConstant ≤ shift S settings := by
  have hlargest : 0 ≤ (S.diag.map fun k => Scalar.abs (S.M.values.getD k 0)).foldl
      Scalar.maxNum 0 :=
    Loop.foldl_induction (fun _ largest => (0 : ℝ) ≤ largest) le_rfl
      fun _ a _ _ largest hle => hle.trans (le_max_left largest a)
  exact le_add_of_nonneg_right (mul_nonneg h hlargest)

theorem shifted_eq_onDiagonal {S : Schur ℝ} (h : S.LocatesDiagonal) (settings : Settings ℝ) :
    shifted S settings = onDiagonal S.M (shift S settings) := by
  rw [LocatesDiagonal] at h
  rw [shifted, h]
  rfl

/-! ## Factoring -/

theorem size_shifted (S : Schur ℝ) (settings : Settings ℝ) :
    (shifted S settings).size = S.M.nnz := by
  have hsize (diag : List ℕ) (values : Array ℝ) : (diag.foldl (fun values k =>
      values.modify k (· + shift S settings)) values).size = values.size := by
    induction diag generalizing values with
    | nil => rfl
    | cons k diag ih => rw [List.foldl_cons, ih, Array.size_modify]
  exact hsize S.diag S.M.values

/-- No factor divides by zero. -/
def Invertible (S : FactoredSchur ℝ) : Prop :=
  ∀ F, S.factors = some F → ∀ j < F.dim, 0 < F.diag.getD j 0

/-- If no pivot can be refused, factoring succeeds, whatever the factors belonged to
before. -/
theorem Reusable.exists_factor {S : FactoredSchur ℝ} {reg : Option (Regularization ℝ)}
    (hS : Reusable S.factors S.schur.M reg) {A : Csc ℝ} {K : Composite ℝ}
    (hfits : S.schur.Fits A K) (hA : A.Valid) (hK : K.numel ≤ A.ncols) {settings : Settings ℝ}
    (hreg : regularization settings = reg)
    (hsafe : Ldl.Safe reg { S.schur.M with values := shifted S.schur settings }) :
    ∃ factors, S.factor settings = .ok { S with factors := factors } ∧
      Reusable factors S.schur.M reg ∧ Invertible { S with factors := factors } := by
  have hM := (hfits.wellFormed hA hK).toValid
  have hsq : S.schur.M.nrows = S.schur.M.ncols := hfits.nrows_eq.trans hfits.ncols_eq.symm
  have htri := hfits.isTriu hA hK
  have hvalues := size_shifted S.schur settings
  rw [factor, hreg]
  split
  next hempty =>
    refine ⟨S.factors, rfl, hS, fun F hF j hj => absurd hj ?_⟩
    obtain ⟨-, values, π, ι, dest, -, hbelongs⟩ := hS F hF
    have hdim : F.dim = S.schur.M.ncols := hbelongs.dim_eq
    omega
  next =>
    obtain ⟨F₀, π, ι, dest, hF₀, hF₀reg, hfactor⟩ := exists_factorValues hM hsq htri hS hvalues
    have htri' : ({ S.schur.M with values := shifted S.schur settings } : Csc ℝ).IsTriu :=
      Ldl.overwrite_of_size_eq hvalues ▸ Ldl.isTriu_overwrite htri hM _
    obtain ⟨F, hrefactor, hF, hFreg, hpos⟩ := hF₀.exists_refactor? (hM.withValues hvalues) hsq htri'
      (hF₀reg ▸ hsafe)
    rw [hfactor, hrefactor]
    refine ⟨some F, rfl, fun F' hF' => ?_, fun F' hF' => ?_⟩
    · cases hF'
      exact ⟨hFreg.trans hF₀reg, _, π, ι, dest, hvalues, hF⟩
    · cases hF'
      exact hpos

/-- What every pass keeps under regularization: the complement belongs to a matrix
and a cone, and its factors to its pattern. -/
structure Carried (S : FactoredSchur ℝ) (A : Csc ℝ) (K : Composite ℝ)
    (reg : Option (Regularization ℝ)) : Prop where
  fits : S.schur.Fits A K
  diagonal : S.schur.LocatesDiagonal
  reusable : Reusable S.factors S.schur.M reg

theorem carried_new (A : Csc ℝ) (K : Composite ℝ) (reg : Option (Regularization ℝ)) :
    (new A K).Carried A K reg := ⟨fits_new A K, locatesDiagonal_new A K, fun _ h => nomatch h⟩

namespace Carried

variable {S : FactoredSchur ℝ} {A : Csc ℝ} {K : Composite ℝ} {reg : Option (Regularization ℝ)}
  (hS : S.Carried A K reg)

include hS

theorem of_cols_eq {K' : Composite ℝ} (h : (terms K').map Term.cols = (terms K).map Term.cols) :
    S.Carried A K' reg := ⟨hS.fits.of_cols_eq h, hS.diagonal, hS.reusable⟩

theorem assemble (hA : A.WellFormed) (hK : K.numel ≤ A.ncols) (refl : Array ℝ) :
    Carried { S with schur := S.schur.assemble A K refl } A K reg where
  fits := hS.fits.assemble hA hK refl
  diagonal := hS.diagonal.assemble A K refl
  reusable := hS.reusable.withValues (hS.fits.nnz_assemble hA hK refl)

/-- The complement of a scaled cone can be factored. -/
theorem exists_factor (hA : A.WellFormed) {x s : Array ℝ}
    (hK : Composite.ScaledAt K.blocks x.toList s.toList) (h : K.Scaled A.ncols x s)
    {settings : Settings ℝ} (hsettings : settings.Regularized)
    (hreg : regularization settings = reg) :
    ∃ S', factor { S with schur := S.schur.assemble A K K.reflection } settings = .ok S' ∧
      S'.Carried A K reg ∧ S'.Invertible := by
  have hassembled := hS.assemble hA h.numel.le K.reflection
  suffices hsafe : Ldl.Safe reg _ by
    obtain ⟨factors, hfactor, hreusable, hpivots⟩ :=
      hassembled.reusable.exists_factor hassembled.fits hA.toValid h.numel.le hreg hsafe
    exact ⟨_, hfactor, ⟨hassembled.fits, hassembled.diagonal, hreusable⟩, hpivots⟩
  rw [← hreg, regularization]
  cases hdynamic : settings.dynamicEnable with
  | true => exact .inl ⟨_, rfl, hsettings.eps, hsettings.delta⟩
  | false =>
    have hconstant : 0 < settings.staticConstant :=
      hsettings.enabled.resolve_right (by simp [hdynamic])
    refine .inr ⟨rfl, ?_⟩
    rw [shifted_eq_onDiagonal (hS.diagonal.assemble A K K.reflection)]
    exact hS.fits.posDef_onDiagonal hA hK h
      (hconstant.trans_le (staticConstant_le_shift _ hsettings.proportional))

end Carried

end FactoredSchur

end Conic
