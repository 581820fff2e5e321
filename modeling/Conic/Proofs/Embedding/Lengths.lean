import Conic.Proofs.Cone.Lengths
import Conic.Proofs.Program.WorkingCopy
import Conic.Proofs.Schur.Solve
import Conic.Solver.Basic

/-!
# The lengths of the vectors of a pass

The vectors of a pass have the lengths of the program, whatever the arithmetic is
worth: the operations of the cone keep lengths, products are as long as the vector
they are added to, and a solution is as long as its right-hand side.  So scaling a
point keeps the lengths (`Iterate.Sized.compute`), and so does a direction
(`ScaledPoint.OfLength.ofPass`).
-/

namespace Conic

open Vec

variable {α : Type} [Scalar α]

/-! ## Vectors of a program -/

namespace WorkingCopy

/-- The vectors of a program have the lengths of its matrix. -/
structure Sized (W : WorkingCopy α) : Prop where
  size_b : W.b.size = W.A.nrows
  size_c : W.c.size = W.A.ncols
  cones : W.cones.Regular W.A.ncols

theorem Copies.sized {W : WorkingCopy α} {p : Program α} (h : W.Copies p) : W.Sized :=
  ⟨h.size_b, h.size_c, h.regular⟩

end WorkingCopy

theorem size_addSchurColumn (W : WorkingCopy α) (K : Composite α) (v y : Array α) :
    (addSchurColumn W K v y).size = y.size := Csc.size_mulAdd _ _ _ _ _

theorem size_pullBack {W : WorkingCopy α} {K : Composite α} (hK : K.Regular W.A.ncols)
    {v : Array α} (hv : v.size = W.A.ncols) (y : Array α) : (pullBack W K y v).size = W.A.ncols :=
  hK.size_mulThetaSq ((Csc.size_mulAddT _ _ _ _ _).trans hv)

/-! ## A pass -/

/-- What a pass starts from has the lengths of the program. -/
structure Iterate.Sized (W : WorkingCopy α) (it : Iterate α) : Prop where
  size_x : it.point.x.size = W.A.ncols
  size_w : it.point.w.size = W.A.nrows
  size_s : it.point.s.size = W.A.ncols
  cones : it.cones.Regular W.A.ncols
  nrows : it.schur.schur.M.nrows = W.A.nrows

/-- A scaled point has the lengths of the program. -/
structure ScaledPoint.OfLength (W : WorkingCopy α) (P : ScaledPoint α) : Prop where
  size_xbar : P.xbar.size = W.A.ncols
  size_sbar : P.sbar.size = W.A.ncols
  size_g1 : P.g1.size = W.A.ncols
  size_g2 : P.g2.size = W.A.nrows
  cones : P.cones.Regular W.A.ncols
  nrows : P.schur.schur.M.nrows = W.A.nrows

/-- A right-hand side has the lengths of the program. -/
structure NewtonRhs.OfLength (W : WorkingCopy α) (r : NewtonRhs α) : Prop where
  size_r1 : r.r1.size = W.A.nrows
  size_r2 : r.r2.size = W.A.ncols
  size_r4 : r.r4.size = W.A.ncols

/-- A direction has the lengths of the program. -/
structure Direction.OfLength (W : WorkingCopy α) (d : Direction α) : Prop where
  size_dx : d.dx.size = W.A.ncols
  size_dw : d.dw.size = W.A.nrows
  size_ds : d.ds.size = W.A.ncols

section

variable {W : WorkingCopy α} {settings : Settings α}

theorem Iterate.Sized.compute (hW : W.Sized) {it : Iterate α} (hit : it.Sized W)
    {P : ScaledPoint α}
    (h : ScaledPoint.compute W settings it.cones it.schur it.point = .ok P) : P.OfLength W := by
  simp only [ScaledPoint.compute, guard_eq_ok_iff, bind_eq_ok_iff] at h
  obtain ⟨-, S, hfactor, g2, hg2, -, hP⟩ := h
  cases hP
  have hcones := hit.cones.updateScaling hit.size_x hit.size_s
    (it.cones.size_reflection.trans hit.cones.numel)
  have hnrows : S.schur.M.nrows = W.A.nrows :=
    (FactoredSchur.nrows_of_factor hfactor).trans hit.nrows
  have hrhs := (size_addSchurColumn W
    (it.cones.updateScaling it.point.x it.point.s it.cones.reflection).2 W.c W.b).trans hW.size_b
  exact {
    size_xbar := hcones.size_mulThetaInv hit.size_x
    size_sbar := hcones.size_mulTheta hit.size_s
    size_g1 := size_pullBack hcones hW.size_c g2
    size_g2 := (FactoredSchur.size_of_solve (hrhs.trans hnrows.symm) hg2).trans hrhs
    cones := hcones
    nrows := hnrows }

variable {P : ScaledPoint α} (hP : P.OfLength W)

include hP

theorem NewtonRhs.OfLength.solve {r : NewtonRhs α} (hr : r.OfLength W) {p : Point α}
    {d : Direction α} (h : Direction.solve W settings p P r = .ok d) : d.OfLength W := by
  simp only [Direction.solve, bind_eq_ok_iff, guard_eq_ok_iff] at h
  obtain ⟨h2, hsolve, -, hd⟩ := h
  have hv := hP.cones.size_mulThetaInv (hP.cones.size_invCirc hr.size_r4 hP.size_xbar)
  have hq : (axpby (-1) (P.cones.mulThetaInv (P.cones.invCirc P.xbar r.r4)) 1 r.r2).size =
      W.A.ncols := by
    rw [size_axpby, hv, hr.size_r2, min_self]
  have hrhs := (size_addSchurColumn W P.cones
    (axpby (-1) (P.cones.mulThetaInv (P.cones.invCirc P.xbar r.r4)) 1 r.r2) r.r1).trans hr.size_r1
  have hh2 : h2.size = W.A.nrows :=
    (FactoredSchur.size_of_solve (hrhs.trans hP.nrows.symm) hsolve).trans hrhs
  have hdx (t : α) := (size_axpby t P.g1 1 _).trans
    (congrArg₂ min hP.size_g1 (size_pullBack hP.cones hq h2)) |>.trans (min_self _)
  split at hd
  · cases hd
    exact {
      size_dx := hdx _
      size_dw := by rw [size_axpby, hP.size_g2, hh2, min_self]
      size_ds := by
        rw [size_axpby, hP.cones.size_mulThetaInv (hP.cones.size_mulThetaInv (hdx _)), hv,
          min_self] }
  · cases hd

omit hP in
theorem NewtonRhs.OfLength.correct {r : NewtonRhs α} (hr : r.OfLength W)
    (hK : P.cones.Regular W.A.ncols) {d : Direction α} (hd : d.OfLength W) :
    (r.correct P d).OfLength W where
  size_r1 := hr.size_r1
  size_r2 := hr.size_r2
  size_r4 := by
    rw [NewtonRhs.correct, size_axpby, hK.size_circ (hK.size_mulTheta hd.size_ds)
      (hK.size_mulThetaInv hd.size_dx), hr.size_r4, min_self]

variable (hb : W.b.size = W.A.nrows) (hc : W.c.size = W.A.ncols) {p : Point α}
  (hs : p.s.size = W.A.ncols)

include hb hc hs

theorem ScaledPoint.OfLength.centred (σ mu : α) :
    (NewtonRhs.centred (.of W p) p P σ mu).OfLength W where
  size_r1 := by
    rw [NewtonRhs.centred, size_scale, Residuals.of, Csc.size_mulAdd, size_scale, hb]
  size_r2 := by
    rw [NewtonRhs.centred, size_scale, Residuals.of, size_axpby, Csc.size_mulAddT, size_scale,
      hs, hc, min_self]
  size_r4 := hP.cones.size_addScaledE ((size_negate _).trans
    (hP.cones.size_circ hP.size_sbar hP.size_xbar)) _

/-- The direction of a pass has the lengths of the program. -/
theorem ScaledPoint.OfLength.ofPass {mu σ : α} {d : Direction α}
    (h : Direction.ofPass W settings (.of W p) p P mu = .ok (d, σ)) : d.OfLength W := by
  rw [Direction.ofPass] at h
  split at h
  · obtain ⟨affine, haffine, h⟩ := bind_eq_ok_iff.mp h
    obtain ⟨d', hd', h⟩ := bind_eq_ok_iff.mp h
    cases h
    have hcentred (σ : α) := hP.centred hb hc hs σ mu
    exact ((hcentred _).correct hP.cones ((hcentred 0).solve hP haffine)).solve hP hd'
  · obtain ⟨d', hd', h⟩ := bind_eq_ok_iff.mp h
    cases h
    exact (hP.centred hb hc hs _ mu).solve hP hd'

end

end Conic
