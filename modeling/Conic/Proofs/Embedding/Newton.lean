import Conic.Proofs.Embedding.Directions
import Conic.Proofs.Schur.Form

/-!
# The Newton system in exact arithmetic

Without regularization a direction solves the Newton system exactly
(`Direction.newtonSystem_of_solve`).  This holds for every working copy that
fits together, every point, and every right-hand side, whenever the point can
be scaled and the direction can be computed.

The argument follows the elimination.  `ScaledPoint.Exact` collects what a
scaled point brings along: the cone is scaled at the point, the complement is
`AΘ²Aᵀ` and is solved exactly, and the two vectors that eliminate `dτ` satisfy
their equations.

The cone and the complement that a pass starts from are those of the pass
before it.  `InUse` says which ones can occur: those of the program, and those
that scaling a point leaves.
-/

namespace Conic

open Vec Matrix

variable [Machine]

/-! ## Working copies and settings -/

/-- The settings neither shift the diagonal of the complement nor replace
pivots. -/
structure Settings.Unregularized (settings : Settings ℝ) : Prop where
  /-- Nothing is added to the diagonal. -/
  constant : settings.staticConstant = 0
  /-- No multiple of the largest entry is added. -/
  proportional : settings.staticProportional = 0
  /-- No pivot is replaced. -/
  dynamic : settings.dynamicEnable = false

/-- The cones and the complements that a pass can start from. -/
inductive InUse (W : WorkingCopy ℝ) (settings : Settings ℝ) :
    Composite ℝ → FactoredSchur ℝ → Prop
  /-- Those of the program. -/
  | first : InUse W settings W.cones (.new W.A W.cones)
  /-- Those that scaling a point leaves. -/
  | next {K : Composite ℝ} {S : FactoredSchur ℝ} {p : Point ℝ} {P : ScaledPoint ℝ} :
      InUse W settings K S → p.Fits W → ScaledPoint.compute W settings K S p = .ok P →
      InUse W settings P.cones P.schur

/-- What scaling a point brings along if the complement is solved exactly. -/
structure ScaledPoint.Exact (W : WorkingCopy ℝ) (p : Point ℝ) (P : ScaledPoint ℝ) : Prop
    extends P.Sized W p where
  /-- The complement belongs to the program. -/
  ready : P.schur.Ready W.A W.cones
  /-- The systems of the complement are those of `AΘ²Aᵀ`. -/
  solve : ∀ settings (b y : Array ℝ), b.size = W.A.nrows → P.schur.solve settings b = .ok y →
    W.A.toMatrix *ᵥ scaled.thetaSq (W.A.toMatrixᵀ *ᵥ coords W.A.nrows y) = coords W.A.nrows b
  /-- The first vector that eliminates `dτ`. -/
  g2 : W.A.toMatrix *ᵥ scaled.thetaSq (W.A.toMatrixᵀ *ᵥ coords W.A.nrows P.g2) =
    coords W.A.nrows W.b + W.A.toMatrix *ᵥ scaled.thetaSq (coords W.A.ncols W.c)
  /-- The second vector. -/
  g1 : coords W.A.ncols P.g1 =
    scaled.thetaSq (W.A.toMatrixᵀ *ᵥ coords W.A.nrows P.g2 - coords W.A.ncols W.c)

section

variable {W : WorkingCopy ℝ} (hW : W.WellFormed) {settings : Settings ℝ} {p : Point ℝ}
  {P : ScaledPoint ℝ}

include hW

/-- Without regularization the complement is solved exactly. -/
theorem ScaledPoint.Computed.exact (hsettings : settings.Unregularized) (hp : p.Fits W)
    {K : Composite ℝ} {S : FactoredSchur ℝ} (hshape : K.shape = W.cones.shape)
    (hready : S.Ready W.A W.cones) (h : Computed W settings K S p P) : P.Exact W p := by
  have hP := h.sized hW hp hshape hready.fits.nrows_eq
  have hrefl : P.cones.reflection = K.reflection :=
    Composite.reflection_eq_of_shape (hP.shape.trans hshape.symm)
  have hle : P.cones.numel ≤ W.A.ncols := hP.scaled.numel.le
  have hA := hW.matrix
  -- the complement belongs to the cone of the program and to the scaled one alike
  have hcols := Schur.map_cols_eq_of_shape hP.shape
  have hfits := hready.of_cols_eq hcols
  have hassembled := hfits.assemble hA hle K.reflection
  obtain ⟨hschur, hfactored, hsolves⟩ := hassembled.factor_spec hA.toValid hle hsettings.constant
    hsettings.proportional hsettings.dynamic h.factor
  have hM := (hfactored.fits.wellFormed hA.toValid hle).toValid
  have hrows := hfactored.fits.nrows_eq
  have hsq := hrows.trans hfactored.fits.ncols_eq.symm
  have htri := hfactored.fits.isTriu hA.toValid hle
  have hsolve (settings : Settings ℝ) (b y : Array ℝ) (hb : b.size = W.A.nrows)
      (hy : P.schur.solve settings b = .ok y) :
        W.A.toMatrix *ᵥ hP.scaled.thetaSq (W.A.toMatrixᵀ *ᵥ coords W.A.nrows y) =
          coords W.A.nrows b := by
    have hsolution := FactoredSchur.solve_eq hsolves hM hsq htri (hb.trans hrows.symm) hy
    rw [hschur, ← hrefl] at hsolution
    exact (hsolution.mulVec_thetaSq hfits.fits hA hP.scaledAt hP.scaled).2
  obtain ⟨hbsize, hb⟩ := addSchurColumn_spec hW hP.scaled hW.size_c hW.size_b
  refine {
    toSized := hP
    ready := hfactored.of_cols_eq hcols.symm
    solve := hsolve
    g2 := ?_
    g1 := h.g1 ▸ (pullBack_spec hW hP.scaled hP.size_g2 hW.size_c).2 }
  rw [hsolve settings _ _ hbsize h.g2, hb, add_comm]

/-- What a pass can start from belongs to the program. -/
theorem InUse.ready (hsettings : settings.Unregularized) {K : Composite ℝ} {S : FactoredSchur ℝ}
    (h : InUse W settings K S) : K.shape = W.cones.shape ∧ S.Ready W.A W.cones := by
  induction h with
  | first => exact ⟨rfl, FactoredSchur.ready_new W.A W.cones⟩
  | next _ hp hcompute ih =>
    have hexact := (ScaledPoint.computed_of_compute hcompute).exact hW hsettings hp ih.1 ih.2
    exact ⟨hexact.shape, hexact.ready⟩

end

/-! ## The direction -/

/-- The Newton system at a point, for a cone that is scaled there. -/
structure NewtonSystem (W : WorkingCopy ℝ) (p : Point ℝ) (K : Composite ℝ) (r : NewtonRhs ℝ)
    (d : Direction ℝ) : Prop where
  /-- The direction has the lengths of the point. -/
  fits : d.Fits W
  /-- `A dx - b dτ = r₁`. -/
  primal : W.A.toMatrix *ᵥ coords W.A.ncols d.dx - d.dtau • coords W.A.nrows W.b =
    coords W.A.nrows r.r1
  /-- `Aᵀdw + ds - c dτ = r₂`. -/
  dual : W.A.toMatrixᵀ *ᵥ coords W.A.nrows d.dw + coords W.A.ncols d.ds -
    d.dtau • coords W.A.ncols W.c = coords W.A.ncols r.r2
  /-- `-cᵀdx + bᵀdw - dκ = r₃`. -/
  gap : -(coords W.A.ncols W.c ⬝ᵥ coords W.A.ncols d.dx) +
    coords W.A.nrows W.b ⬝ᵥ coords W.A.nrows d.dw - d.dkappa = r.r3
  /-- `λ ∘ (Θ⁻¹dx + Θds) = r₄`, where `λ = Θ⁻¹x`. -/
  complementarity : K.circ (K.mulThetaInv p.x)
    (Vec.axpby 1 (K.mulThetaInv d.dx) 1 (K.mulTheta d.ds)) = r.r4
  /-- `κ dτ + τ dκ = r₅`. -/
  scale : p.kappa * d.dtau + p.tau * d.dkappa = r.r5

section

variable {W : WorkingCopy ℝ} (hW : W.WellFormed) {settings : Settings ℝ} {p : Point ℝ}
  {P : ScaledPoint ℝ} {r : NewtonRhs ℝ} (hr : r.Fits W) (hP : P.Exact W p)

include hW hP hr

/-- The vectors that the elimination leaves, as points: `v` solves the
complementarity, and `h₁` and `h₂` solve the rest of the system for `dτ` zero. -/
theorem Direction.Computed.points {d : Direction ℝ} {h2 : Array ℝ}
    (h : Computed W settings p P r d h2) : ∃ (v h₁ : Fin W.A.ncols → ℝ) (h₂ : Fin W.A.nrows → ℝ),
      v = coords W.A.ncols (P.divided r) ∧
      W.A.toMatrix *ᵥ hP.scaled.thetaSq (W.A.toMatrixᵀ *ᵥ h₂) =
        W.A.toMatrix *ᵥ hP.scaled.thetaSq (coords W.A.ncols r.r2 - v) + coords W.A.nrows r.r1 ∧
      h₁ = hP.scaled.thetaSq (W.A.toMatrixᵀ *ᵥ h₂ - (coords W.A.ncols r.r2 - v)) ∧
      coords W.A.ncols d.dx = d.dtau • coords W.A.ncols P.g1 + h₁ ∧
      coords W.A.nrows d.dw = d.dtau • coords W.A.nrows P.g2 + h₂ ∧
      coords W.A.ncols d.ds =
        v - hP.scaled.thetaInv (hP.scaled.thetaInv (coords W.A.ncols d.dx)) ∧
      d.dtau * P.denominator W p = r.r3 + r.r5 / p.tau + coords W.A.ncols W.c ⬝ᵥ h₁ -
        coords W.A.nrows W.b ⬝ᵥ h₂ := by
  have hd := h.fits hW hr hP.toSized
  have h2size := h.size_h2 hW hr hP.toSized
  obtain ⟨hvsize, -⟩ := hP.divided_spec hr
  obtain ⟨hqsize, hq⟩ := hP.rest_spec hr
  obtain ⟨hbsize, hb⟩ := addSchurColumn_spec hW hP.scaled hqsize hr.size_r1
  obtain ⟨h1size, h1eq⟩ := pullBack_spec hW hP.scaled h2size hqsize
  obtain ⟨hinvsize, hinv⟩ := hP.scaled.coords_mulThetaInv hd.size_dx
  obtain ⟨hinv2size, hinv2⟩ := hP.scaled.coords_mulThetaInv hinvsize
  refine ⟨_, _, coords W.A.nrows h2, rfl, ?_, hq ▸ h1eq, ?_, ?_, ?_, ?_⟩
  · rw [hP.solve settings _ _ hbsize h.solve, hb, hq]
  · rw [h.dx, coords_axpby _ _ _ (hP.size_g1.trans h1size.symm), one_smul]
  · rw [h.dw, coords_axpby _ _ _ (hP.size_g2.trans h2size.symm), one_smul]
  · rw [h.ds, coords_axpby _ _ _ (hinv2size.trans hvsize.symm), hinv2, hinv]
    module
  · rw [h.dtau, dot_eq hW.size_c, dot_eq hW.size_b]

/-- A direction that could be computed solves the Newton system. -/
theorem Direction.Computed.newtonSystem {d : Direction ℝ} {h2 : Array ℝ} (hτ : p.tau ≠ 0)
    (h : Computed W settings p P r d h2) : NewtonSystem W p P.cones r d := by
  have hd := h.fits hW hr hP.toSized
  obtain ⟨v, h₁, h₂, hv, h₂eq, h₁eq, hdx, hdw, hds, hdtau⟩ := h.points hW hr hP
  -- `Θ²` is undone by `Θ⁻¹` taken twice
  have hback : hP.scaled.thetaInv (hP.scaled.thetaInv (coords W.A.ncols d.dx)) =
      d.dtau • (W.A.toMatrixᵀ *ᵥ coords W.A.nrows P.g2 - coords W.A.ncols W.c) +
        (W.A.toMatrixᵀ *ᵥ h₂ - (coords W.A.ncols r.r2 - v)) := by
    rw [hdx, hP.g1, h₁eq, ← map_smul, ← map_add, hP.scaled.thetaInv_thetaInv_thetaSq]
  refine {
    fits := hd
    primal := ?_
    dual := ?_
    gap := ?_
    complementarity := ?_
    scale := ?_ }
  · rw [hdx, hP.g1, h₁eq, mulVec_add, mulVec_smul, map_sub, map_sub, mulVec_sub, mulVec_sub,
      hP.g2, h₂eq]
    module
  · rw [hds, hback, hdw, mulVec_add, mulVec_smul]
    module
  · rw [ScaledPoint.denominator, dot_eq hW.size_c, dot_eq hW.size_b] at hdtau
    rw [hdx, hdw, h.dkappa, dotProduct_add, dotProduct_add, dotProduct_smul, dotProduct_smul,
      smul_eq_mul, smul_eq_mul, sub_div, mul_div_right_comm]
    linear_combination hdtau
  · obtain ⟨hzsize, hz⟩ := hP.invCirc_spec hr
    obtain ⟨hinvsize, hinv⟩ := hP.scaled.coords_mulThetaInv hd.size_dx
    obtain ⟨hthetasize, htheta⟩ := hP.scaled.coords_mulTheta hd.size_ds
    have hsum : axpby 1 (P.cones.mulThetaInv d.dx) 1 (P.cones.mulTheta d.ds) =
        P.cones.invCirc P.xbar r.r4 := by
      refine ext_coords (n := W.A.ncols) (by rw [size_axpby, hinvsize, hthetasize, min_self])
        hzsize ?_
      rw [coords_axpby _ _ _ (hinvsize.trans hthetasize.symm), htheta, hds, hinv, map_sub,
        hP.scaled.theta_thetaInv, hv, (hP.divided_spec hr).2, hP.scaled.theta_thetaInv]
      module
    rw [hsum, ← hP.xbar]
    exact hz
  · rw [h.dkappa, mul_div_cancel₀ _ hτ]
    ring

end

/-! ## A program on the half line -/

/-- The program that minimizes `x` subject to `x = 1` on the half line. -/
noncomputable def WorkingCopy.halfLine : WorkingCopy ℝ where
  A := .single 1
  b := #[1]
  c := #[1]
  cones := ⟨[.orthant ⟨[1]⟩]⟩
  perm := [0]

omit [Machine] in
theorem WorkingCopy.wellFormed_halfLine : halfLine.WellFormed where
  matrix := Csc.checkFormat_eq_ok_iff.mp (by cbv)
  size_b := rfl
  size_c := rfl
  numel := rfl

/-- The default settings without regularization and without refinement.  A gap of
one percent is tolerated. -/
noncomputable def Settings.exact : Settings ℝ :=
  { default with
    significanceThreshold := 1 / 100
    staticConstant := 0
    staticProportional := 0
    dynamicEnable := false
    refineEnable := false }

theorem Settings.unregularized_exact : exact.Unregularized := ⟨rfl, rfl, rfl⟩

/-- The complement of the half line with the entry `v`. -/
def Schur.halfLine (v : ℝ) : Schur ℝ where
  M := .single v
  squares := [⟨#[0], [0]⟩]
  diag := [0]

theorem Schur.new_halfLine : new (.single 1) WorkingCopy.halfLine.cones = halfLine 0 := by cbv

/-- The half line, scaled by `θ`. -/
def Composite.line (θ : ℝ) : Composite ℝ := ⟨[.orthant ⟨[θ]⟩]⟩

variable {θ : ℝ}

theorem Schur.assemble_line : (halfLine 0).assemble (.single 1) (.line θ) #[1] =
    halfLine (θ * θ) := by
  have hassemble : (halfLine 0).assemble (.single 1) (.line θ) #[1] =
      halfLine (0 + θ * θ * 1 * 1) := by cbv
  simpa using hassemble

namespace FactoredSchur

/-- The complement with the entry `v` and its factors. -/
def ofEntry (v : ℝ) : FactoredSchur ℝ := ⟨.halfLine v, some (.single v none 0 v 0)⟩

/-- The complement of the half line with its factors. -/
def halfLine : FactoredSchur ℝ := ⟨.halfLine 1, some (.single 1 none 0 1 0)⟩

theorem factor_ofEntry {v : ℝ} (hv : 0 < v) :
    factor ⟨.halfLine v, none⟩ Settings.exact = .ok (ofEntry v) := by
  have hshifted : shifted (.halfLine v) Settings.exact = #[v] := by
    simp [shifted, shift, Settings.exact, Schur.halfLine, Csc.single]
  have hfactor : Ldl.factor { (Schur.halfLine v).M with values := #[v] } none =
      .ok (.single v none 0 v 0) := Ldl.factor_single none rfl hv
  have hrows : (Schur.halfLine v).M.nrows ≠ 0 := one_ne_zero
  have hregularization : regularization Settings.exact = none := rfl
  simp only [factor, if_neg hrows, factorValues, hshifted, hregularization, hfactor, ofEntry]

theorem solve_ofEntry (v b : ℝ) : (ofEntry v).solve Settings.exact #[b] = .ok #[b / v] := by
  simp [solve, ofEntry, Ldl.solve_single, Settings.exact, Vec.isFinite]

end FactoredSchur

theorem addSchurColumn_line (v y : ℝ) :
    addSchurColumn .halfLine (.line θ) #[v] #[y] = #[y + θ * θ * v] := by
  simp [addSchurColumn, WorkingCopy.halfLine, Composite.line, Composite.mulThetaSq,
    Composite.eachBlock, Composite.pieces, Block.mulThetaSq, Orthant.mulThetaSq, Block.numel,
    Orthant.numel, Csc.mulAdd, Csc.mulAdd?, Csc.addColumn?, Csc.scaleOrClear, Csc.column?,
    Csc.rows?, Csc.vals?, Csc.single, slice?, update?]

theorem pullBack_line (v y : ℝ) :
    pullBack .halfLine (.line θ) #[y] #[v] = #[θ * θ * (y - v)] := by
  simp [pullBack, WorkingCopy.halfLine, Composite.line, Composite.mulThetaSq, Composite.eachBlock,
    Composite.pieces, Block.mulThetaSq, Orthant.mulThetaSq, Block.numel, Orthant.numel,
    Csc.mulAddT, Csc.mulAddT?, Csc.columnDot?, Csc.column?, Csc.rows?, Csc.vals?, Csc.single,
    slice?, sub_eq_add_neg]

theorem mulTheta_line (v : ℝ) : (Composite.line θ).mulTheta #[v] = #[θ * v] := by
  simp [Composite.line, Composite.mulTheta, Composite.eachBlock, Composite.pieces,
    Block.mulTheta, Orthant.mulTheta, Block.numel, Orthant.numel]

theorem mulThetaInv_line (v : ℝ) : (Composite.line θ).mulThetaInv #[v] = #[v / θ] := by
  simp [Composite.line, Composite.mulThetaInv, Composite.eachBlock, Composite.pieces,
    Block.mulThetaInv, Orthant.mulThetaInv, Block.numel, Orthant.numel]

theorem updateScaling_line {x s : ℝ} (hx : 0 < x) (hs : 0 < s) (hθ : Real.sqrt (x / s) = θ) :
    (Composite.line 1).updateScaling #[x] #[s] #[1] = (true, .line θ) := by
  simp [Composite.line, Composite.updateScaling, Composite.pieces, Block.updateScaling,
    Block.numel, Orthant.numel, Orthant.updateScaling, Orthant.isInterior, hx, hs, hθ]

/-- The scaling of a point on the half line.  The complement is `θ²`. -/
theorem compute_line {x w s τ κ : ℝ} (hx : 0 < x) (hs : 0 < s) (hθ : Real.sqrt (x / s) = θ) :
    ScaledPoint.compute .halfLine Settings.exact WorkingCopy.halfLine.cones
      (.new (.single 1) WorkingCopy.halfLine.cones) ⟨#[x], #[w], #[s], τ, κ⟩ =
        .ok ⟨#[x / θ], #[θ * s], #[θ * θ * ((1 + θ * θ) / (θ * θ) - 1)],
          #[(1 + θ * θ) / (θ * θ)], .line θ, .ofEntry (θ * θ)⟩ := by
  have hpos : 0 < θ := hθ ▸ Real.sqrt_pos.mpr (div_pos hx hs)
  have hK : WorkingCopy.halfLine.cones = .line 1 := rfl
  have hrefl : (Composite.line 1).reflection = #[1] := by cbv
  have hnew : Schur.new (.single 1) (.line 1) = .halfLine 0 := Schur.new_halfLine
  have hA : WorkingCopy.halfLine.A = .single 1 := rfl
  have hb : WorkingCopy.halfLine.b = #[1] := rfl
  have hc : WorkingCopy.halfLine.c = #[1] := rfl
  simp only [ScaledPoint.compute, hK, hrefl, updateScaling_line hx hs hθ, guard_eq_ok_iff,
    bind_eq_ok_iff]
  refine ⟨by simp, .ofEntry (θ * θ), ?_, #[(1 + θ * θ) / (θ * θ)], ?_, ?_⟩
  · rw [FactoredSchur.new, hnew, hA, Schur.assemble_line]
    exact FactoredSchur.factor_ofEntry (mul_pos hpos hpos)
  · rw [hb, hc, addSchurColumn_line, FactoredSchur.solve_ofEntry, mul_one]
  · rw [hc, pullBack_line, mulTheta_line, mulThetaInv_line]
    simp [Vec.isFinite]
    rfl

/-- A direction on the half line, for any right-hand side. -/
theorem solve_line {x w s τ κ l l' g₁ g₂ m r₁ r₂ r₃ r₄ r₅ : ℝ}
    (hden : Machine.epsilon * Machine.epsilon < κ / τ - g₁ + g₂) :
    let v := r₄ / l / θ
    let h₂ := (r₁ + θ * θ * (r₂ - v)) / m
    let h₁ := θ * θ * (h₂ - (r₂ - v))
    let dτ := (r₃ + r₅ / τ + h₁ - h₂) / (κ / τ - g₁ + g₂)
    let dx := dτ * g₁ + h₁
    Direction.solve .halfLine Settings.exact ⟨#[x], #[w], #[s], τ, κ⟩
        ⟨#[l], #[l'], #[g₁], #[g₂], .line θ, .ofEntry m⟩ ⟨#[r₁], #[r₂], r₃, #[r₄], r₅⟩ =
      .ok ⟨#[dx], #[dτ * g₂ + h₂], #[v - dx / θ / θ], dτ, (r₅ - κ * dτ) / τ⟩ := by
  intro v h₂ h₁ dτ dx
  have hb : WorkingCopy.halfLine.b = #[1] := rfl
  have hc : WorkingCopy.halfLine.c = #[1] := rfl
  have hcirc : (Composite.line θ).invCirc #[l] #[r₄] = #[r₄ / l] := by
    simp [Composite.line, Composite.invCirc, Composite.eachBlock₂, Composite.pieces,
      Block.invCirc, Orthant.invCirc, Block.numel, Orthant.numel]
  have hq : axpby (-1) #[v] 1 #[r₂] = #[r₂ - v] := by simp [axpby, sub_eq_neg_add]
  have hdot (a : ℝ) : dot #[1] #[a] = a := by simp [dot, Vec.inner]
  have hv : r₄ / l / θ = v := rfl
  simp only [Direction.solve, bind_eq_ok_iff, guard_eq_ok_iff, hcirc, mulThetaInv_line, hv, hq]
  refine ⟨#[h₂], ?_, ?_⟩
  · rw [addSchurColumn_line, FactoredSchur.solve_ofEntry]
  · have hdx : axpby dτ #[g₁] 1 #[h₁] = #[dx] := by simp [axpby, dx]
    have hdw : axpby dτ #[g₂] 1 #[h₂] = #[dτ * g₂ + h₂] := by simp [axpby]
    have hds : axpby (-1) #[dx / θ / θ] 1 #[v] = #[v - dx / θ / θ] := by
      simp [axpby, sub_eq_neg_add]
    simp only [hb, hc, pullBack_line, hdot]
    refine ⟨fun h => h.elim (by simp) (not_le.mpr hden), ?_⟩
    rw [hdx, hdw, mulThetaInv_line, mulThetaInv_line, hds]
    simp [Direction.isFinite, Vec.isFinite]
    rfl

/-! ## The unit point of the half line -/

theorem mulTheta_halfLine (v : ℝ) : WorkingCopy.halfLine.cones.mulTheta #[v] = #[v] :=
  (mulTheta_line v).trans (by rw [one_mul])

theorem mulThetaInv_halfLine (v : ℝ) : WorkingCopy.halfLine.cones.mulThetaInv #[v] = #[v] :=
  (mulThetaInv_line v).trans (by rw [div_one])

/-- The scaling of the unit point is the identity. -/
theorem compute_halfLine : ScaledPoint.compute .halfLine Settings.exact WorkingCopy.halfLine.cones
    (.new (.single 1) WorkingCopy.halfLine.cones) ⟨#[1], #[0], #[1], 1, 1⟩ =
      .ok ⟨#[1], #[1], #[1], #[2], WorkingCopy.halfLine.cones, .halfLine⟩ := by
  have hcompute := compute_line (w := 0) (τ := 1) (κ := 1) one_pos one_pos
    (show Real.sqrt (1 / 1) = 1 by simp)
  norm_num at hcompute
  exact hcompute

/-- A direction at the unit point, for any right-hand side. -/
theorem solve_halfLine (hε : Machine.epsilon * Machine.epsilon < 2) (r₁ r₂ r₃ r₄ r₅ : ℝ) :
    Direction.solve .halfLine Settings.exact ⟨#[1], #[0], #[1], 1, 1⟩
        ⟨#[1], #[1], #[1], #[2], WorkingCopy.halfLine.cones, .halfLine⟩
        ⟨#[r₁], #[r₂], r₃, #[r₄], r₅⟩ =
      let dτ := (r₃ + r₄ + r₅ - r₂) / 2
      .ok ⟨#[dτ + r₁], #[dτ * 2 + (r₁ + (r₂ - r₄))], #[r₄ - (dτ + r₁)], dτ, r₅ - dτ⟩ := by
  refine (solve_line (by norm_num; exact hε)).trans ?_
  norm_num
  exact ⟨by ring, by ring, by ring⟩

/-! ## The result -/

/-- Without regularization, whenever a point can be scaled and a direction can
be computed there, the direction solves the Newton system. -/
theorem Direction.newtonSystem_of_solve {W : WorkingCopy ℝ} (hW : W.WellFormed)
    {settings : Settings ℝ} (hsettings : settings.Unregularized) {K : Composite ℝ}
    {S : FactoredSchur ℝ} (hin : InUse W settings K S) {p : Point ℝ} (hp : p.Fits W)
    (hτ : 0 < p.tau) {P : ScaledPoint ℝ}
    (hcompute : ScaledPoint.compute W settings K S p = .ok P) {r : NewtonRhs ℝ} (hr : r.Fits W)
    {d : Direction ℝ} (hsolve : Direction.solve W settings p P r = .ok d) :
    NewtonSystem W p P.cones r d := by
  obtain ⟨hshape, hready⟩ := hin.ready hW hsettings
  have hexact := (ScaledPoint.computed_of_compute hcompute).exact hW hsettings hp hshape hready
  obtain ⟨h2, hcomputed⟩ := Direction.computed_of_solve hsolve
  exact hcomputed.newtonSystem hW hr hexact hτ.ne'

omit [Machine] in
/-- A direction at another point of the half line, where the scaling is two. -/
theorem Direction.newtonSystem_line : letI := Machine.double
    ScaledPoint.compute .halfLine .exact WorkingCopy.halfLine.cones
        (.new (.single 1) WorkingCopy.halfLine.cones) ⟨#[4], #[0], #[1], 1, 7 / 4⟩ =
      .ok ⟨#[2], #[2], #[1], #[5 / 4], .line 2, .ofEntry 4⟩ ∧
    Direction.solve .halfLine .exact ⟨#[4], #[0], #[1], 1, 7 / 4⟩
        ⟨#[2], #[2], #[1], #[5 / 4], .line 2, .ofEntry 4⟩ ⟨#[1], #[1], 1, #[1], 1⟩ =
      .ok ⟨#[2], #[9 / 4], #[-(1 / 4)], 1, -(3 / 4)⟩ ∧
    NewtonSystem .halfLine ⟨#[4], #[0], #[1], 1, 7 / 4⟩ (.line 2) ⟨#[1], #[1], 1, #[1], 1⟩
      ⟨#[2], #[9 / 4], #[-(1 / 4)], 1, -(3 / 4)⟩ := by
  let _ := Machine.double
  have hroot : Real.sqrt (4 / 1) = 2 := by
    rw [div_one, Real.sqrt_eq_iff_mul_self_eq] <;> norm_num
  have hcompute := compute_line (w := 0) (τ := 1) (κ := 7 / 4) four_pos one_pos hroot
  norm_num at hcompute
  have hε : Machine.epsilon * Machine.epsilon < (7 / 4 / 1 - 1 + 5 / 4 : ℝ) := by
    norm_num [Machine.epsilon_double]
  have hsolve : Direction.solve .halfLine .exact ⟨#[4], #[0], #[1], 1, 7 / 4⟩
      ⟨#[2], #[2], #[1], #[5 / 4], .line 2, .ofEntry 4⟩ ⟨#[1], #[1], 1, #[1], 1⟩ =
        .ok ⟨#[2], #[9 / 4], #[-(1 / 4)], 1, -(3 / 4)⟩ :=
    (solve_line hε).trans (by norm_num)
  exact ⟨hcompute, hsolve, Direction.newtonSystem_of_solve WorkingCopy.wellFormed_halfLine
    Settings.unregularized_exact .first ⟨rfl, rfl, rfl⟩ one_pos hcompute ⟨rfl, rfl, rfl⟩ hsolve⟩

end Conic
