import Conic.Proofs.Solver.Interior

/-!
# What a reported infeasibility certifies

A point with `Ax = 0` and `Aᵀw + s = 0` is a certificate of infeasibility if
`bᵀw - cᵀx` is positive.  Then `bᵀw` is positive and the primal program is
infeasible, or `cᵀx` is negative and the dual one is.

The predicate of the solver does not look at this sign.  It bounds the residual
`κ + cᵀx - bᵀw`, so that `bᵀw - cᵀx` is `κ` up to the tolerance
(`Iterate.isInfeasible_iff`).  The tolerance is relative to the residual at the
start, and the bound on `κ` is absolute.  So the sign is right if `κ` is larger than
the tolerance, and otherwise it need not be (`Iterate.separates_iff`).  A program
without constraints and with a large cost is reported as infeasible at points at
which `cᵀx` is positive (`Iterate.reported_expensive`).
-/

namespace Conic

open Vec Matrix

/-! ## The predicate -/

/-- An infeasible program is not solved, and the predicate of infeasibility holds. -/
theorem Measures.status_eq_infeasible_iff {α : Type} [Scalar α] {s : Settings α} {B : Baseline α}
    {m : Measures α} :
    m.status s B = .infeasible ↔ m.isSolved s = false ∧ m.record.isInfeasible s = true := by
  rw [status]
  cases m.isSolved s <;> cases m.record.isInfeasible s <;> cases m.record.isIllPosed s B <;> simp

variable [Machine]

/-- The point lies on the right side of the objectives for a certificate of
infeasibility. -/
def Point.Separates (W : WorkingCopy ℝ) (p : Point ℝ) : Prop :=
  0 < dot W.b p.w - dot W.c p.x ∧ (0 < dot W.b p.w ∨ dot W.c p.x < 0)

theorem Point.separates_iff_lt {W : WorkingCopy ℝ} {p : Point ℝ} :
    p.Separates W ↔ dot W.c p.x < dot W.b p.w := by
  rw [Separates, sub_pos]
  refine ⟨fun h => h.1, fun h => ⟨h, ?_⟩⟩
  by_contra hside
  obtain ⟨hb, hc⟩ := not_or.mp hside
  linarith

namespace Iterate

variable {W : WorkingCopy ℝ} {it : Iterate ℝ}

/-- The predicate of infeasibility as bounds on the residuals, `τ` and `κ`. -/
theorem isInfeasible_iff {settings : Settings ℝ} :
    (it.measures W).record.isInfeasible settings = true ↔
      Vec.norm (Residuals.of W it.point).rp ≤
        settings.infeasibilityThreshold * (baseline W).primal ∧
      Vec.norm (Residuals.of W it.point).rd ≤
        settings.infeasibilityThreshold * (baseline W).dual ∧
      |it.point.kappa + dot W.c it.point.x - dot W.b it.point.w| ≤
        settings.dualityGapThreshold * (baseline W).gap ∧
      it.point.tau ≤ settings.tauThreshold * max 1 it.point.kappa ∧
      settings.kappaThreshold ≤ it.point.kappa := by
  have hprimal : 0 < (baseline W).primal := one_pos.trans_le (le_max_left _ _)
  have hdual : 0 < (baseline W).dual := one_pos.trans_le (le_max_left _ _)
  have hgap : 0 < (baseline W).gap := one_pos.trans_le (le_max_left _ _)
  rw [← div_le_iff₀ hprimal, ← div_le_iff₀ hdual, ← div_le_iff₀ hgap]
  simp only [Record.isInfeasible, Record.tauVanished, Bool.and_eq_true, and_assoc]
  exact and_congr decide_eq_true_iff (and_congr decide_eq_true_iff (and_congr decide_eq_true_iff
    (and_congr decide_eq_true_iff decide_eq_true_iff)))

/-- An iterate that the default settings report as infeasible. -/
structure Reported (W : WorkingCopy ℝ) (it : Iterate ℝ) : Prop where
  /-- The program fits together. -/
  wellFormed : W.WellFormed
  /-- The point has the lengths of the program. -/
  fits : it.point.Fits W
  /-- The point is interior. -/
  interior : it.point.Interior W.cones
  /-- What it has come to. -/
  status : (it.measures W).status .default (baseline W) = .infeasible

/-- A report is right about the objectives if `κ` is larger than the tolerance. -/
theorem Reported.separates (h : it.Reported W)
    (hgap : 0.01 * (baseline W).gap < it.point.kappa) : it.point.Separates W := by
  obtain ⟨-, -, hle, -⟩ := isInfeasible_iff.mp (Measures.status_eq_infeasible_iff.mp h.status).2
  have habs := (abs_le.mp hle).2.trans_lt hgap
  exact Point.separates_iff_lt.mpr (by linarith)

end Iterate

/-! ## Programs without constraints -/

/-- The program that minimizes `cᵀx` on the orthant. -/
noncomputable def WorkingCopy.rays (c : List ℝ) : WorkingCopy ℝ where
  A := ⟨0, c.length, Array.replicate (c.length + 1) 0, #[], #[]⟩
  b := #[]
  c := c.toArray
  cones := ⟨[.orthant ⟨List.replicate c.length 1⟩]⟩
  perm := List.range c.length

namespace WorkingCopy

variable {c : List ℝ}

omit [Machine] in
theorem first_rays (j : ℕ) : (rays c).A.first j = 0 := by
  rw [rays, Csc.first, Array.getD_eq_getD_getElem?, Array.getElem?_replicate]
  split <;> rfl

omit [Machine] in
theorem valid_rays : (rays c).A.Valid where
  size_colPtr := by simp [rays]
  size_rowIdx := rfl
  first_zero := first_rays 0
  first_ncols := first_rays _
  mono j _ := by rw [first_rays, first_rays]
  row_lt := by simp [rays]

omit [Machine] in
theorem wellFormed_rays : (rays c).WellFormed where
  matrix := {
    toValid := valid_rays
    sorted := fun j hj => by
      rw [valid_rays.column_eq_map hj, Csc.span, first_rays, first_rays]
      exact .nil }
  size_b := rfl
  size_c := by simp [rays]
  numel := by simp [rays, Composite.numel, Block.numel, Orthant.numel]

/-- Positive entries are interior. -/
theorem isInterior_rays {v : List ℝ} (hlen : v.length = c.length) (hv : ∀ a ∈ v, 0 < a) :
    (rays c).cones.isInterior v.toArray = true := by
  simp [rays, Composite.isInterior, Composite.pieces, Block.isInterior, Block.numel, Orthant.numel,
    ← hlen, Orthant.isInterior_iff]
  exact hv

theorem inner_replicate_one (c : List ℝ) : inner c (List.replicate c.length 1) = c.sum := by
  induction c with
  | nil => rfl
  | cons a c ih =>
    rw [List.length_cons, List.replicate_succ, inner_cons, ih, mul_one, List.sum_cons]

/-- The residual of the gap at the start. -/
theorem gap_rays (c : List ℝ) : (Iterate.baseline (rays c)).gap = max 1 |1 + c.sum| := by
  have hunit : dot c.toArray (rays c).cones.unit = c.sum := by
    have hone : (rays c).cones.unit.toList = List.replicate c.length 1 := by
      simp [rays, Composite.unit, Block.unit, Orthant.numel]
    rw [dot, hone]
    exact inner_replicate_one c
  have hzero : dot (rays c).b (zeros (rays c).A.nrows) = 0 := rfl
  show max 1 |1 + dot c.toArray (rays c).cones.unit - dot (rays c).b (zeros (rays c).A.nrows)| = _
  rw [hunit, hzero, sub_zero]

variable {p : Point ℝ} (hp : p.Fits (rays c))

include hp

/-- There is nothing that the primal residual could measure. -/
theorem norm_rp_rays : Vec.norm (Residuals.of (rays c) p).rp = 0 := by
  rw [norm_eq (coords_rp wellFormed_rays hp).1]
  exact (congrArg Real.sqrt Finset.sum_empty).trans Real.sqrt_zero

/-- The dual residual is `cτ - s`. -/
theorem norm_rd_rays : Vec.norm (Residuals.of (rays c) p).rd =
    euclidean (p.tau • coords c.length c.toArray - coords c.length p.s) := by
  obtain ⟨hsize, hcoords⟩ := coords_rd wellFormed_rays hp
  have hzero : (rays c).A.toMatrixᵀ *ᵥ coords (rays c).A.nrows p.w = 0 := by
    have : IsEmpty (Fin (rays c).A.nrows) := inferInstanceAs (IsEmpty (Fin 0))
    exact funext fun i => by simp [mulVec, dotProduct]
  rw [norm_eq hsize, hcoords, hzero, sub_zero]
  rfl

end WorkingCopy

namespace Iterate

/-- A point of a program without constraints is reported as infeasible if its dual
residual, its gap and its scale are small enough, and if it is not a solution. -/
theorem reported_rays {c : List ℝ} {p : Point ℝ} (hp : p.Fits (.rays c))
    (hinterior : p.Interior (WorkingCopy.rays c).cones)
    (hdual : euclidean (p.tau • coords c.length c.toArray - coords c.length p.s) ≤
      1e-7 * (baseline (.rays c)).dual)
    (hgap : |p.kappa + dot c.toArray p.x| ≤ 0.01 * (baseline (.rays c)).gap)
    (htau : p.tau ≤ 1e-7) (hkappa : 1e-4 ≤ p.kappa)
    (hunsolved : 1e-7 * (baseline (.rays c)).dual * p.tau <
        euclidean (p.tau • coords c.length c.toArray - coords c.length p.s) ∨
      1e-7 * p.tau < |dot c.toArray p.x|) :
    Reported (.rays c) { first (.rays c) with point := p } where
  wellFormed := WorkingCopy.wellFormed_rays
  fits := hp
  interior := hinterior
  status := by
    have hτ := hinterior.tau
    have hrp := WorkingCopy.norm_rp_rays hp
    have hrd := WorkingCopy.norm_rd_rays hp
    have hbw : dot (WorkingCopy.rays c).b p.w = 0 := rfl
    have hB : 0 < (baseline (.rays c)).dual := one_pos.trans_le (le_max_left _ _)
    refine Measures.status_eq_infeasible_iff.mpr ⟨Bool.eq_false_iff.mpr fun hsolved => ?_,
      isInfeasible_iff.mpr ⟨?_, ?_, ?_, ?_, hkappa⟩⟩
    · simp only [Measures.isSolved, Bool.and_eq_true] at hsolved
      obtain ⟨⟨-, hcandidate⟩, hsignificance⟩ := hsolved
      rcases hunsolved with hlarge | hlarge
      · have hsmall : Vec.norm (Residuals.of (.rays c) p).rd / p.tau / (baseline (.rays c)).dual ≤
            1e-7 := of_decide_eq_true hcandidate
        rw [hrd, div_le_iff₀ hB, div_le_iff₀ hτ] at hsmall
        exact absurd hsmall (not_le.mpr hlarge)
      · have hsmall : |dot c.toArray p.x - dot (WorkingCopy.rays c).b p.w| / p.tau /
            (1 + |dot (WorkingCopy.rays c).b p.w| / p.tau) ≤ 1e-7 :=
          of_decide_eq_true hsignificance
        rw [hbw, sub_zero, abs_zero, zero_div, add_zero, div_one, div_le_iff₀ hτ] at hsmall
        exact absurd hsmall (not_le.mpr hlarge)
    · rw [hrp]
      exact mul_nonneg (by norm_num [Settings.default]) (one_pos.trans_le (le_max_left _ _)).le
    · rw [hrd]
      exact hdual
    · rw [hbw, sub_zero]
      exact hgap
    · exact htau.trans (le_mul_of_one_le_right (by norm_num [Settings.default]) (le_max_left _ _))

/-- A report about one variable without constraints. -/
theorem reported_ray {cost x slack τ κ : ℝ} (hx : 0 < x) (hslack : 0 < slack) (hτ : 0 < τ)
    (hdual : |τ * cost - slack| ≤ 1e-7) (hgap : |κ + cost * x| ≤ 0.01 * max 1 |1 + cost|)
    (htau : τ ≤ 1e-7) (hkappa : 1e-4 ≤ κ) (hunsolved : 1e-7 * τ < |cost * x|) :
    Reported (.rays [cost]) { first (.rays [cost]) with point := ⟨#[x], #[], #[slack], τ, κ⟩ } := by
  have hdot : dot [cost].toArray #[x] = cost * x := by simp [dot, Vec.inner]
  have hresidual : euclidean (τ • coords 1 [cost].toArray - coords 1 #[slack]) =
      |τ * cost - slack| := by
    rw [euclidean, Fin.sum_univ_one, Real.sqrt_sq_eq_abs]
    rfl
  refine reported_rays (c := [cost]) ⟨rfl, rfl, rfl⟩ ⟨?_, ?_, hτ, hkappa.trans_lt' (by norm_num)⟩
    (hresidual.trans_le (hdual.trans (le_mul_of_one_le_right (by norm_num) (le_max_left _ _)))) ?_
    htau hkappa (.inr (hdot.symm ▸ hunsolved))
  · exact WorkingCopy.isInterior_rays (v := [x]) rfl (List.forall_mem_singleton.mpr hx)
  · exact WorkingCopy.isInterior_rays (v := [slack]) rfl (List.forall_mem_singleton.mpr hslack)
  · rw [hdot, WorkingCopy.gap_rays, List.sum_singleton]
    exact hgap

end Iterate

/-! ## Reports at the tolerance -/

/-- A point at which the objectives of the costs `g` and `-1` are zero.  The second
slack keeps it from being a solution. -/
noncomputable def Point.level (g slack κ : ℝ) : Point ℝ :=
  ⟨#[1, g], #[], #[g * 1e-8, slack * 1e-8], 1e-8, κ⟩

omit [Machine] in
theorem Point.residual_level {g slack κ : ℝ} (hslack : 0 ≤ slack) :
    euclidean ((level g slack κ).tau • coords 2 #[g, -1] - coords 2 (level g slack κ).s) =
      (1 + slack) * 1e-8 := by
  have hvector : (level g slack κ).tau • coords 2 #[g, -1] - coords 2 (level g slack κ).s =
      ![0, -((1 + slack) * 1e-8)] := by
    funext i
    fin_cases i <;> simp [level, coords] <;> ring
  rw [hvector, euclidean, Fin.sum_univ_two]
  simp only [Matrix.cons_val_zero, Matrix.cons_val_one]
  rw [zero_pow two_ne_zero, zero_add, neg_sq, Real.sqrt_sq (by positivity)]

theorem Point.interior_level {g slack κ : ℝ} (hg : 0 < g) (hslack : 0 < slack) (hκ : 0 < κ) :
    (level g slack κ).Interior (WorkingCopy.rays [g, -1]).cones where
  x := WorkingCopy.isInterior_rays (v := [1, g]) rfl (by simp [hg])
  s := WorkingCopy.isInterior_rays (v := [g * 1e-8, slack * 1e-8]) rfl
    (List.forall_mem_cons.mpr ⟨by positivity, List.forall_mem_singleton.mpr (by positivity)⟩)
  tau := by norm_num [level]
  kappa := hκ

namespace Iterate

/-- If `κ` is not larger than the tolerance, there is a report with objectives zero. -/
theorem exists_reported {κ g : ℝ} (hκ : 1e-4 ≤ κ) (hg : 1 ≤ g) (hle : κ ≤ 0.01 * g) :
    ∃ (W : WorkingCopy ℝ) (it : Iterate ℝ), it.Reported W ∧ it.point.kappa = κ ∧
      (baseline W).gap = g ∧ dot W.b it.point.w = 0 ∧ dot W.c it.point.x = 0 := by
  have hgap : (baseline (.rays [g, -1])).gap = g := by
    rw [WorkingCopy.gap_rays, List.sum_cons, List.sum_singleton, add_comm, neg_add_cancel_right,
      abs_of_pos (one_pos.trans_le hg), max_eq_right hg]
  have hslack : 1 ≤ (baseline (.rays [g, -1])).dual := le_max_left _ _
  set slack := (baseline (.rays [g, -1])).dual
  have hκ' : 0 < κ := hκ.trans_lt' (by norm_num)
  have hresidual := Point.residual_level (g := g) (κ := κ) (one_pos.trans_le hslack).le
  have hdot : dot #[g, -1] (Point.level g slack κ).x = 0 := by
    simp [Point.level, dot, Vec.inner]
  have hreported := reported_rays (c := [g, -1]) (p := .level g slack κ) ⟨rfl, rfl, rfl⟩
    (Point.interior_level (one_pos.trans_le hg) (one_pos.trans_le hslack) hκ')
    (hresidual.trans_le (by linarith)) (by
      rw [hdot, hgap]
      simpa [Point.level, abs_of_pos hκ'] using hle)
    (by norm_num [Point.level]) hκ (.inl (hresidual.ge.trans_lt' (by
      norm_num [Point.level]
      linarith)))
  exact ⟨_, _, hreported, rfl, hgap, rfl, hdot⟩

/-! ## The result -/

/-- What the default settings report as infeasible is a certificate direction for
every program and every point with a given `κ`, and with a given size of the gap at
the start, if and only if `κ` is larger than the tolerance for the gap. -/
theorem separates_iff {κ g : ℝ} (hκ : 1e-4 ≤ κ) (hg : 1 ≤ g) :
    (∀ (W : WorkingCopy ℝ) (it : Iterate ℝ), it.Reported W → it.point.kappa = κ →
      (baseline W).gap = g → it.point.Separates W) ↔ 0.01 * g < κ := by
  refine ⟨fun h => ?_, ?_⟩
  · by_contra hle
    obtain ⟨W, it, hreported, hkappa, hgap, hb, hc⟩ := exists_reported hκ hg (not_lt.mp hle)
    have hlt := Point.separates_iff_lt.mp (h W it hreported hkappa hgap)
    rw [hb, hc] at hlt
    exact hlt.false
  · rintro hlt W it hreported rfl rfl
    exact hreported.separates hlt

omit [Machine] in
/-- The half line with cost `-1` is unbounded, which is found at the point one. -/
theorem separates_unbounded : letI := Machine.double
    let p : Point ℝ := ⟨#[1], #[], #[1e-8], 1e-8, 1⟩
    let it : Iterate ℝ := { first (.rays [-1]) with point := p }
    (1e-4 : ℝ) ≤ 1 ∧ it.Reported (.rays [-1]) ∧ (baseline (.rays [-1])).gap = 1 ∧
      p.Separates (.rays [-1]) := by
  let _ := Machine.double
  have hκ : (1e-4 : ℝ) ≤ 1 := by norm_num
  have hreported : Reported (.rays [-1])
      { first (.rays [-1]) with point := ⟨#[1], #[], #[1e-8], 1e-8, 1⟩ } :=
    reported_ray one_pos (by norm_num) (by norm_num) (by norm_num [abs_of_neg]) (by norm_num)
      (by norm_num) hκ (by norm_num)
  have hgap : (baseline (.rays [-1])).gap = 1 := by
    rw [WorkingCopy.gap_rays, List.sum_singleton]
    norm_num
  exact ⟨hκ, hreported, hgap,
    (separates_iff hκ le_rfl).mpr (by norm_num) _ _ hreported rfl hgap⟩

omit [Machine] in
/-- The half line with a large cost is feasible and bounded, and yet it is reported as
infeasible at a point at which the cost is one. -/
theorem reported_expensive : letI := Machine.double
    let W : WorkingCopy ℝ := .rays [1e9]
    let p : Point ℝ := ⟨#[1e-9], #[], #[1], 1e-9, 1⟩
    Reported W { first W with point := p } ∧ dot W.b p.w - dot W.c p.x = -1 ∧
      ¬ p.Separates W := by
  let _ := Machine.double
  have hreported : Reported (.rays [1e9])
      { first (.rays [1e9]) with point := ⟨#[1e-9], #[], #[1], 1e-9, 1⟩ } :=
    reported_ray (by norm_num) one_pos (by norm_num) (by norm_num) (by norm_num [abs_of_pos])
      (by norm_num) (by norm_num) (by norm_num)
  have hdifference : dot (WorkingCopy.rays [1e9]).b #[] -
      dot (WorkingCopy.rays [1e9]).c #[1e-9] = -1 := by
    simp [WorkingCopy.rays, dot, Vec.inner]
    norm_num
  refine ⟨hreported, hdifference, fun h => ?_⟩
  have hpos : 0 < (-1 : ℝ) := hdifference ▸ h.1
  norm_num at hpos

end Iterate

end Conic
