import Conic.Proofs.Settings
import Conic.Proofs.Solver.Passes

/-!
# What a refinement leaves

A refinement keeps three things: the solution, a residual and the size of that
residual.  They belong together at the start (`Refinement.Current`), and a
correction that is accepted keeps them together.  A correction that is discarded
does not, since the residual of the discarded vector is kept.  The next pass then
corrects with the wrong residual, and accepts what is better than the discarded
vector, though it may be worse than the solution.

A stop ratio above one excludes that: a discarded correction has not reduced the
residual by such a ratio, so no pass follows it.  Under such a ratio every pass
starts with the residual of its solution, and the solution that is left is no
worse than the one at the start (`Schur.refine_improves`).  With the stop ratio one
half it can be worse (`Schur.refine_worsens`).

The factors may belong to any other matrix, and the statements do not ask how good
they are.
-/

namespace Conic.Schur

open Refinement

variable [Machine]

/-! ## One pass -/

namespace Refinement

/-- The residual and its size are those of the solution. -/
structure Current (M : Csc ℝ) (b : Array ℝ) (s : Refinement ℝ) : Prop where
  /-- The residual is that of the solution. -/
  residual : s.r = residual M b s.x
  /-- Its size is known. -/
  err : s.err = Vec.normInf s.r

/-- The corrected solution, before it is known whether it is better. -/
noncomputable def trial (F : Ldl ℝ) (s : Refinement ℝ) : Array ℝ := Vec.axpby 1 s.x 1 (F.solve s.r)

/-- The states in which a pass starts: the first one, and what a correction leaves
of one whose residual is not small enough, if another pass is worthwhile. -/
inductive Reaches (M : Csc ℝ) (F : Ldl ℝ) (tol stopRatio : ℝ) (b : Array ℝ) (s₀ : Refinement ℝ) :
    Refinement ℝ → Prop
  /-- The first pass. -/
  | start : Reaches M F tol stopRatio b s₀ s₀
  /-- The pass after a correction. -/
  | correct {s s' : Refinement ℝ} : Reaches M F tol stopRatio b s₀ s → tol < s.err →
    s.correct M F stopRatio b = (true, s') → Reaches M F tol stopRatio b s₀ s'

variable {M : Csc ℝ} {F : Ldl ℝ} {tol stopRatio : ℝ} {b : Array ℝ} {s s' : Refinement ℝ}

theorem current_start (M : Csc ℝ) (b x : Array ℝ) : (start M b x).Current M b := ⟨rfl, rfl⟩

/-- A correction keeps the solution, or replaces it by one whose residual is smaller
and is the one that is kept. -/
theorem correct_cases (M : Csc ℝ) (F : Ldl ℝ) (stopRatio : ℝ) (b : Array ℝ) (s : Refinement ℝ) :
    s.err ≤ (s.correct M F stopRatio b).2.err ∧ (s.correct M F stopRatio b).2.x = s.x ∨
      (s.correct M F stopRatio b).2.err < s.err ∧
        (s.correct M F stopRatio b).2.x = s.trial F ∧
        (s.correct M F stopRatio b).2.Current M b := by
  by_cases haccepted : Vec.normInf (Schur.residual M b (s.trial F)) < s.err
  · have hx : (s.correct M F stopRatio b).2.x = s.trial F := if_pos haccepted
    exact .inr ⟨haccepted, hx, congrArg (Schur.residual M b) hx.symm, rfl⟩
  · exact .inl ⟨not_lt.mp haccepted, if_neg haccepted⟩

/-- A correction does not make a residual larger that is that of the solution. -/
theorem Current.normInf_correct_le (hs : s.Current M b) :
    Vec.normInf (Schur.residual M b (s.correct M F stopRatio b).2.x) ≤ s.err := by
  rcases correct_cases M F stopRatio b s with ⟨-, hx⟩ | ⟨hlt, -, hcurrent⟩
  · rw [hx, hs.err, hs.residual]
  · rw [← hcurrent.residual, ← hcurrent.err]
    exact hlt.le

/-- Another pass is worthwhile if the residual has shrunk by the stop ratio. -/
theorem correct_fst : (s.correct M F stopRatio b).1 = true ↔
    (s.correct M F stopRatio b).2.err * stopRatio ≤ s.err := by
  simp [correct]

/-- With a stop ratio above one, only a correction that was accepted is followed by
another pass. -/
theorem current_of_correct (hratio : 1 < stopRatio) (herr : 0 < s.err)
    (h : s.correct M F stopRatio b = (true, s')) : s'.err < s.err ∧ s'.Current M b := by
  have hshrinks : s'.err * stopRatio ≤ s.err := by
    have hgo := correct_fst.mp (congrArg Prod.fst h)
    rwa [h] at hgo
  rcases correct_cases M F stopRatio b s with ⟨hle, -⟩ | ⟨hlt, -, hcurrent⟩
  · rw [h] at hle
    -- a residual that has grown would have been multiplied by more than one
    have hgrown : s.err < s'.err * stopRatio :=
      hle.trans_lt (lt_mul_of_one_lt_right (herr.trans_le hle) hratio)
    exact absurd hshrinks hgrown.not_ge
  · rw [h] at hlt hcurrent
    exact ⟨hlt, hcurrent⟩

/-- Every pass starts with the residual of its solution, which is no larger than the first
one. -/
theorem Reaches.current {s₀ : Refinement ℝ} (hratio : 1 < stopRatio) (htol : 0 ≤ tol)
    (h₀ : s₀.Current M b) (h : Reaches M F tol stopRatio b s₀ s) :
    s.Current M b ∧ s.err ≤ s₀.err := by
  induction h with
  | start => exact ⟨h₀, le_rfl⟩
  | correct _ herr hcorrect ih =>
    obtain ⟨hlt, hcurrent⟩ := current_of_correct hratio (htol.trans_lt herr) hcorrect
    exact ⟨hcurrent, hlt.le.trans ih.2⟩

end Refinement

/-! ## All passes -/

section

variable {M : Csc ℝ} {F : Ldl ℝ} {tol stopRatio : ℝ} {b : Array ℝ}

/-- A pass ends the refinement with its solution, or with the corrected one, or goes on. -/
theorem refine_succ (count : ℕ) (s : Refinement ℝ) :
    refine M F tol stopRatio b (count + 1) s = if s.err ≤ tol then s.x
      else if (s.correct M F stopRatio b).1 then
        refine M F tol stopRatio b count (s.correct M F stopRatio b).2
      else (s.correct M F stopRatio b).2.x := by
  rw [refine]
  simp only [Scalar.isFinite_real, Bool.not_true, Bool.false_eq_true, false_or]
  split
  · rfl
  · split
    next heq => rw [heq]; rfl
    next heq => rw [heq]; rfl

/-- What a refinement leaves is the solution of one of its passes, before or after the
correction. -/
theorem exists_reaches (count : ℕ) {s₀ s : Refinement ℝ}
    (hs : Reaches M F tol stopRatio b s₀ s) :
    ∃ s', Reaches M F tol stopRatio b s₀ s' ∧ (refine M F tol stopRatio b count s = s'.x ∨
      refine M F tol stopRatio b count s = (s'.correct M F stopRatio b).2.x) := by
  induction count generalizing s with
  | zero => exact ⟨s, hs, .inl rfl⟩
  | succ count ih =>
    rw [refine_succ]
    split
    next => exact ⟨s, hs, .inl rfl⟩
    next herr =>
      split
      next hgo => exact ih (hs.correct (not_le.mp herr) (Prod.ext hgo rfl))
      next => exact ⟨s, hs, .inr rfl⟩

end

/-- The tolerance of a refinement. -/
noncomputable def tolerance (settings : Settings ℝ) (b : Array ℝ) : ℝ :=
  settings.refineAbstol + settings.refineReltol * Vec.normInf b

theorem normInf_nonneg (x : Array ℝ) : 0 ≤ Vec.normInf x := by
  have hnumbers : x.find? Scalar.isNaN = none := by simp
  rw [Vec.normInf, hnumbers, ← Array.foldl_toList]
  exact Loop.foldl_induction (fun _ m => 0 ≤ m) le_rfl fun _ v _ _ m hm =>
    hm.trans (le_max_left m |v|)

theorem tolerance_nonneg {settings : Settings ℝ} (h : settings.validate = .ok ()) (b : Array ℝ) :
    0 ≤ tolerance settings b := by
  have habs : 0 ≤ settings.refineAbstol := Settings.admits_nonnegative_iff.mp
    (Settings.admits_of_validate h ("iterative_refinement_abstol", .nonnegative, _)
      (by simp [Settings.ranges]))
  have hrel : 0 ≤ settings.refineReltol := Settings.admits_nonnegative_iff.mp
    (Settings.admits_of_validate h ("iterative_refinement_reltol", .nonnegative, _)
      (by simp [Settings.ranges]))
  exact add_nonneg habs (mul_nonneg hrel (normInf_nonneg b))

/-- The residual is the right-hand side less the product with the symmetric matrix. -/
theorem coords_residual {M : Csc ℝ} (hM : M.Valid) (hsq : M.nrows = M.ncols) (htri : M.IsTriu)
    {b x : Array ℝ} (hb : b.size = M.nrows) (hx : x.size = M.nrows) :
    Vec.coords M.nrows (residual M b x) =
      Vec.coords M.nrows b - M.symMatrix.mulVec (Vec.coords M.nrows x) := by
  rw [residual, (Csc.symMulAdd_eq hM hsq htri (-1) hx 1 hb).2]
  simp [sub_eq_neg_add]

/-- Corrections keep the lengths. -/
theorem Refinement.Reaches.size_x {M : Csc ℝ} {F : Ldl ℝ} {tol stopRatio : ℝ} {b x : Array ℝ}
    {s : Refinement ℝ} (hx : x.size = b.size)
    (h : Reaches M F tol stopRatio b (.start M b x) s) :
    s.x.size = b.size ∧ s.r.size = b.size := by
  induction h with
  | start => exact ⟨hx, Csc.size_symMulAdd M _ _ _ _⟩
  | @correct s s' _ _ hcorrect ih =>
    have hr : (s.correct M F stopRatio b).2.r.size = b.size := Csc.size_symMulAdd M _ _ _ _
    have htrial : (s.trial F).size = b.size := by
      rw [trial, Vec.size_axpby, FactoredSchur.size_solve_ldl, ih.1, ih.2, min_self]
    rw [hcorrect] at hr
    refine ⟨?_, hr⟩
    rcases correct_cases M F stopRatio b s with ⟨-, hx'⟩ | ⟨-, hx', -⟩
    · rw [hcorrect] at hx'
      exact hx' ▸ ih.1
    · rw [hcorrect] at hx'
      exact hx' ▸ htrial

/-! ## Two unknowns -/

/-- The symmetric matrix of the square of a difference. -/
def difference : Csc ℝ := ⟨2, 2, #[0, 1, 3], #[0, 0, 1], #[1, -1, 1]⟩

/-- The factors of a diagonal matrix. -/
def diagonal (d e : ℝ) : Ldl ℝ where
  y := #[0, 0]
  mark := #[0, 1]
  stack := #[0, 0]
  filled := #[0, 0]
  rowIdx := #[]
  values := #[]
  diag := #[d, e]
  regularized := 0
  perm := #[0, 1]
  permuted := ⟨2, 2, #[0, 1, 2], #[0, 1], #[d, e]⟩
  dest := #[0, 1]
  parent := #[none, none]
  colPtr := #[0, 0, 0]
  regularization := none

/-- Settings under which two corrections are made, and the second one even if the first
one has doubled the residual. -/
noncomputable def halving : Settings ℝ :=
  { Settings.exact with
    refineEnable := true
    refineAbstol := 0
    refineReltol := 0
    refineMaxIter := 2
    refineStopRatio := 0.5 }

theorem validate_halving : halving.validate = .ok () := by
  obtain ⟨htime, hranges⟩ := Settings.validate_eq_ok_iff.mp Settings.validate_exact
  refine Settings.validate_eq_ok_iff.mpr ⟨htime, fun r hr => ?_⟩
  have hcases : r ∈ Settings.ranges Settings.exact ∨
      r = ("iterative_refinement_stop_ratio", .positive, 0.5) ∨
      r = ("iterative_refinement_reltol", .nonnegative, 0) ∨
      r = ("iterative_refinement_abstol", .nonnegative, 0) := by
    simp only [Settings.ranges, halving, List.mem_cons, List.not_mem_nil, or_false] at hr ⊢
    tauto
  rcases hcases with hr | rfl | rfl | rfl
  · exact hranges r hr
  · exact Settings.admits_positive_iff.mpr (by norm_num)
  · exact Settings.admits_nonnegative_iff.mpr le_rfl
  · exact Settings.admits_nonnegative_iff.mpr le_rfl

theorem solve_diagonal (d e u v : ℝ) : (diagonal d e).solve #[u, v] = #[u / d, v / e] := by cbv

theorem residual_difference (u v x y : ℝ) :
    residual difference #[u, v] #[x, y] = #[u - x + y, v + x - y] := by
  simp [residual, difference, Csc.symMulAdd, Csc.symMulAdd?, Csc.scaleOrClear, Csc.column?,
    Csc.rows?, Csc.vals?, Csc.addSymmetric?, update?, slice?, List.range_succ]
  constructor <;> ring

theorem normInf_pair (u v : ℝ) : Vec.normInf #[u, v] = max |u| |v| := by
  simp [Vec.normInf]

theorem correct_difference (stopRatio x y u v err : ℝ) :
    correct difference (diagonal 2 1) stopRatio #[1, 1] ⟨#[x, y], #[u, v], err⟩ =
      let r := #[1 - (x + u / 2) + (y + v), 1 + (x + u / 2) - (y + v)]
      (!decide (err < Vec.normInf r * stopRatio),
        ⟨if Vec.normInf r < err then #[x + u / 2, y + v] else #[x, y], r, Vec.normInf r⟩) := by
  simp [correct, solve_diagonal, Vec.axpby, residual_difference]

/-! ## What is left -/

/-- With a stop ratio above one, every pass of a refinement starts with the residual
`b - M x` of its solution and with the size of that residual.  A correction replaces the
solution only by one with a smaller residual.  What is left is the solution of one of the
passes, before or after the correction, and its residual is no larger than that of the
solution given. -/
theorem refine_improves {settings : Settings ℝ} (hvalid : settings.validate = .ok ())
    (hratio : 1 < settings.refineStopRatio) (M : Csc ℝ) (F : Ldl ℝ) {b x : Array ℝ}
    (hx : x.size = b.size) :
    let tol := tolerance settings b
    let given := Refinement.start M b x
    let left := refine M F tol settings.refineStopRatio b settings.refineMaxIter given
    (∀ s, Reaches M F tol settings.refineStopRatio b given s →
      s.r = residual M b s.x ∧ s.err = Vec.normInf (residual M b s.x) ∧
      (M.Valid → M.nrows = M.ncols → M.IsTriu → b.size = M.nrows → Vec.coords M.nrows s.r =
        Vec.coords M.nrows b - M.symMatrix.mulVec (Vec.coords M.nrows s.x)) ∧
      ∀ go s', s.correct M F settings.refineStopRatio b = (go, s') → s'.x = s.x ∨
        Vec.normInf (residual M b s'.x) < Vec.normInf (residual M b s.x)) ∧
    (∃ s, Reaches M F tol settings.refineStopRatio b given s ∧
      (left = s.x ∨ left = (s.correct M F settings.refineStopRatio b).2.x)) ∧
    Vec.normInf (residual M b left) ≤ Vec.normInf (residual M b x) := by
  intro tol given left
  have htol : 0 ≤ tol := tolerance_nonneg hvalid b
  have hcurrent {s : Refinement ℝ} (hs : Reaches M F tol settings.refineStopRatio b given s) :=
    hs.current hratio htol (current_start M b x)
  refine ⟨fun s hs => ?_, exists_reaches _ .start, ?_⟩
  · obtain ⟨⟨hr, herr⟩, -⟩ := hcurrent hs
    rw [hr] at herr
    refine ⟨hr, herr, fun hM hsq htri hb => ?_, fun go s' hcorrect => ?_⟩
    · rw [hr]
      exact coords_residual hM hsq htri hb ((hs.size_x hx).1.trans hb)
    · rcases correct_cases M F settings.refineStopRatio b s with ⟨-, hx'⟩ | ⟨hlt, -, hr', herr'⟩
      · rw [hcorrect] at hx'
        exact .inl hx'
      · rw [hcorrect] at hlt hr' herr'
        rw [herr', hr', herr] at hlt
        exact .inr hlt
  · have hfirst : Reaches M F tol settings.refineStopRatio b given given := .start
    obtain ⟨s, hs, hleft⟩ := exists_reaches settings.refineMaxIter hfirst
    obtain ⟨hs', hle⟩ := hcurrent hs
    rcases hleft with hleft | hleft
    · rw [show left = s.x from hleft, ← hs'.residual, ← hs'.err]
      exact hle
    · rw [show left = (s.correct M F settings.refineStopRatio b).2.x from hleft]
      exact hs'.normInf_correct_le.trans hle

omit [Machine] in
/-- Under the stop ratio five the correction that is discarded is the last one. -/
theorem refine_improves_difference : letI := Machine.double
    (Settings.exact.validate = .ok () ∧ 1 < Settings.exact.refineStopRatio ∧
      (#[0, 0] : Array ℝ).size = (#[1, 1] : Array ℝ).size) ∧
    Vec.normInf (residual difference #[1, 1] (refine difference (diagonal 2 1)
      (tolerance Settings.exact #[1, 1]) Settings.exact.refineStopRatio #[1, 1]
      Settings.exact.refineMaxIter (.start difference #[1, 1] #[0, 0]))) ≤ 1 := by
  let _ := Machine.double
  have hratio : 1 < Settings.exact.refineStopRatio := by
    show (1 : ℝ) < 5.0
    norm_num
  refine ⟨⟨Settings.validate_exact, hratio, rfl⟩, ?_⟩
  have hgiven : Vec.normInf (residual difference #[1, 1] #[0, 0]) = 1 := by
    rw [residual_difference, normInf_pair]
    norm_num
  exact (refine_improves Settings.validate_exact hratio difference (diagonal 2 1)
    (b := #[1, 1]) (x := #[0, 0]) rfl).2.2.trans_eq hgiven

omit [Machine] in
/-- A refinement that goes on from a correction it has discarded can leave a solution with
a larger residual than the one it was given. -/
theorem refine_worsens : letI := Machine.double
    halving.validate = .ok () ∧ Vec.normInf (residual difference #[1, 1] #[0, 0]) = 1 ∧
      Vec.normInf (residual difference #[1, 1] (refine difference (diagonal 2 1)
        (tolerance halving #[1, 1]) halving.refineStopRatio #[1, 1] halving.refineMaxIter
        (.start difference #[1, 1] #[0, 0]))) = 5 / 4 := by
  let _ := Machine.double
  refine ⟨validate_halving, ?_, ?_⟩
  · rw [residual_difference, normInf_pair]
    norm_num
  · have htol : tolerance halving #[1, 1] = 0 := by simp [tolerance, halving]
    have hratio : halving.refineStopRatio = 1 / 2 := by norm_num [halving]
    have hstart : start difference #[1, 1] #[0, 0] = ⟨#[0, 0], #[1, 1], 1⟩ := by
      simp [start, residual_difference, normInf_pair]
    -- the first correction has the residual `(3 / 2, 1 / 2)` and is discarded
    have hfirst : correct difference (diagonal 2 1) (1 / 2) #[1, 1] ⟨#[0, 0], #[1, 1], 1⟩ =
        (true, ⟨#[0, 0], #[3 / 2, 1 / 2], 3 / 2⟩) := by
      rw [correct_difference]
      norm_num [normInf_pair]
    have hsecond : (correct difference (diagonal 2 1) (1 / 2) #[1, 1]
        ⟨#[0, 0], #[3 / 2, 1 / 2], 3 / 2⟩).2.x = #[3 / 4, 1 / 2] := by
      rw [correct_difference]
      norm_num [normInf_pair]
    have hleft : refine difference (diagonal 2 1) 0 (1 / 2) #[1, 1] 2 ⟨#[0, 0], #[1, 1], 1⟩ =
        #[3 / 4, 1 / 2] := by
      rw [refine_succ, if_neg (by norm_num), hfirst, if_pos rfl, refine_succ,
        if_neg (by norm_num), hsecond, refine, hsecond, ite_self]
    rw [htol, hratio, hstart]
    exact (congrArg (fun x => Vec.normInf (residual difference #[1, 1] x)) hleft).trans
      (by rw [residual_difference, normInf_pair]; norm_num)

end Conic.Schur
