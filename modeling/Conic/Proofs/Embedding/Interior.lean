import Conic.Proofs.Cone.Boundary
import Conic.Proofs.Embedding.Directions

/-!
# Points in the interior

A point of the embedding is interior if `x` and `s` are interior to the cone and
`τ` and `κ` are positive.  A positive step that is shorter than the step to the
boundary keeps it so, whatever the direction is (`Point.Interior.move`).  An
interior point can be scaled, so whatever makes a pass fail, it is not that the
point has left the cone (`ScaledPoint.compute_ne_leftCone`).
-/

namespace Conic

open Vec

variable [Machine]

/-- The point lies in the interior of the cone of the embedding. -/
structure Point.Interior (p : Point ℝ) (K : Composite ℝ) : Prop where
  /-- The primal point is interior. -/
  x : K.isInterior p.x = true
  /-- The dual slack is interior. -/
  s : K.isInterior p.s = true
  /-- The scale is positive. -/
  tau : 0 < p.tau
  /-- The slack of the scale is positive. -/
  kappa : 0 < p.kappa

/-! ## Steps -/

namespace Point

/-- A step below a bound on a positive coordinate keeps it positive. -/
theorem lt_boundStep {step v dv a : ℝ} (hv : 0 < v) (ha : 0 < a) (h : a < boundStep step v dv) :
    a < step ∧ 0 < v + a * dv := by
  rw [boundStep] at h
  split at h
  next hneg =>
    obtain ⟨hstep, hbound⟩ := lt_min_iff.mp h
    rw [lt_div_iff_of_neg hneg] at hbound
    exact ⟨hstep, by linarith⟩
  next hnonneg =>
    have := mul_nonneg ha.le (not_lt.mp hnonneg)
    exact ⟨h, by linarith⟩

/-- A positive step that is shorter than the step to the boundary stays in the
interior. -/
theorem Interior.move {W : WorkingCopy ℝ} {p : Point ℝ} (hfits : p.Fits W) {d : Direction ℝ}
    (hd : d.Fits W) {K : Composite ℝ} (hp : p.Interior K) {a : ℝ} (ha : 0 < a)
    (hlt : a < p.maxStep K d) : (p.move d a).Interior K := by
  rw [maxStep, Scalar.clip_real zero_le_one] at hlt
  have hstep : a < boundStep (boundStep (min (K.maxStep p.x d.dx) (K.maxStep p.s d.ds)) p.tau
      d.dtau) p.kappa d.dkappa := by
    rcases lt_max_iff.mp hlt with hneg | hlt
    · exact absurd hneg ha.not_gt
    · exact (lt_min_iff.mp hlt).1
  obtain ⟨hstep, hkappa⟩ := lt_boundStep hp.kappa ha hstep
  obtain ⟨hstep, htau⟩ := lt_boundStep hp.tau ha hstep
  obtain ⟨hx, hs⟩ := lt_min_iff.mp hstep
  exact {
    x := Composite.isInterior_axpby (hd.size_dx.trans hfits.size_x.symm) hp.x ha hx
    s := Composite.isInterior_axpby (hd.size_ds.trans hfits.size_s.symm) hp.s ha hs
    tau := htau
    kappa := hkappa }

theorem Interior.of_shape {p : Point ℝ} {K K' : Composite ℝ} (h : K'.shape = K.shape)
    (hp : p.Interior K) : p.Interior K' where
  x := (Composite.isInterior_eq_of_shape h p.x).trans hp.x
  s := (Composite.isInterior_eq_of_shape h p.s).trans hp.s
  tau := hp.tau
  kappa := hp.kappa

end Point

/-! ## Breakdowns -/

theorem FactoredSchur.factor_ne_leftCone (S : FactoredSchur ℝ) (settings : Settings ℝ) :
    S.factor settings ≠ .error .leftCone := by
  intro h
  rw [factor] at h
  split at h
  · cases h
  · split at h <;> cases h

/-- A system of the complement has a solution that is a vector of reals. -/
theorem FactoredSchur.exists_solve (S : FactoredSchur ℝ) (settings : Settings ℝ) (b : Array ℝ) :
    ∃ x, S.solve settings b = .ok x := by
  rw [solve]
  split
  · exact ⟨_, rfl⟩
  · simp only [Vec.isFinite_eq_true, if_true]
    exact ⟨_, rfl⟩

/-- At an interior point only the factorisation can fail. -/
theorem ScaledPoint.factor_eq_error_of_compute {W : WorkingCopy ℝ} {settings : Settings ℝ}
    {K : Composite ℝ} {S : FactoredSchur ℝ} {p : Point ℝ} (hp : p.Interior K) {e : Breakdown ℝ}
    (h : compute W settings K S p = .error e) : FactoredSchur.factor { S with
      schur := S.schur.assemble W.A (K.updateScaling p.x p.s K.reflection).2 K.reflection }
        settings = .error e := by
  have hscaled := Composite.updateScaling_fst hp.x hp.s K.reflection
  simp only [compute, guard_eq_error_iff, bind_eq_error_iff] at h
  rcases h with ⟨hleft, -⟩ | ⟨-, h | ⟨S', -, h | ⟨g2, -, ⟨hfinite, -⟩ | ⟨-, h⟩⟩⟩⟩
  · simp [hscaled] at hleft
  · exact h
  · obtain ⟨x, hx⟩ := S'.exists_solve settings (addSchurColumn W
      (K.updateScaling p.x p.s K.reflection).2 W.c W.b)
    cases hx.symm.trans h
  · simp at hfinite
  · cases h

/-- An interior point can be scaled. -/
theorem ScaledPoint.compute_ne_leftCone (W : WorkingCopy ℝ) (settings : Settings ℝ)
    {K : Composite ℝ} (S : FactoredSchur ℝ) {p : Point ℝ} (hp : p.Interior K) :
    compute W settings K S p ≠ .error .leftCone :=
  fun h => FactoredSchur.factor_ne_leftCone _ _ (factor_eq_error_of_compute hp h)

/-- A direction can only fail to be computed because its denominator is too small. -/
theorem Direction.denominator_le_of_solve {W : WorkingCopy ℝ} {settings : Settings ℝ}
    {p : Point ℝ} {P : ScaledPoint ℝ} {r : NewtonRhs ℝ} {e : Breakdown ℝ}
    (h : solve W settings p P r = .error e) : e = .singularDenominator (P.denominator W p) ∧
      P.denominator W p ≤ Machine.epsilon * Machine.epsilon := by
  simp only [solve, guard_eq_error_iff, bind_eq_error_iff] at h
  rcases h with h | ⟨h2, -, ⟨hsmall, rfl⟩ | ⟨-, h⟩⟩
  · obtain ⟨x, hx⟩ := P.schur.exists_solve settings
      (addSchurColumn W P.cones (Vec.axpby (-1) (P.divided r) 1 r.r2) r.r1)
    cases hx.symm.trans h
  · exact ⟨rfl, hsmall.resolve_left (by simp)⟩
  · rw [if_pos (isFinite_eq_true _)] at h
    cases h

theorem Direction.exists_denominator_of_solve {W : WorkingCopy ℝ} {settings : Settings ℝ}
    {p : Point ℝ} {P : ScaledPoint ℝ} {r : NewtonRhs ℝ} {e : Breakdown ℝ}
    (h : solve W settings p P r = .error e) : ∃ v, e = .singularDenominator v :=
  ⟨_, (denominator_le_of_solve h).1⟩

theorem Direction.exists_denominator_of_ofPass {W : WorkingCopy ℝ} {settings : Settings ℝ}
    {r : Residuals ℝ} {p : Point ℝ} {P : ScaledPoint ℝ} {mu : ℝ} {e : Breakdown ℝ}
    (h : ofPass W settings r p P mu = .error e) : ∃ v, e = .singularDenominator v := by
  rw [ofPass] at h
  split at h
  next =>
    rcases bind_eq_error_iff.mp h with h | ⟨affine, -, h⟩
    · exact exists_denominator_of_solve h
    · rcases bind_eq_error_iff.mp h with h | ⟨d, -, h⟩
      · exact exists_denominator_of_solve h
      · cases h
  next =>
    rcases bind_eq_error_iff.mp h with h | ⟨d, -, h⟩
    · exact exists_denominator_of_solve h
    · cases h

end Conic
