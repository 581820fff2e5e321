import Conic.Embedding.Residuals
import Conic.Proofs.Sparse.Dense

/-!
# Points and residuals in exact arithmetic

The vectors of a program, of a point and of a direction are points of one
dimension each, as soon as their lengths fit (`WorkingCopy.WellFormed`,
`Point.Fits`, `Direction.Fits`).  A step moves these points along the direction,
and the residuals are linear functions of them (`coords_rp`, `coords_rd`,
`rg_eq`).
-/

namespace Conic

open Vec Matrix

variable [Machine]

/-! ## Lengths -/

/-- The parts of a working copy fit together. -/
structure WorkingCopy.WellFormed (W : WorkingCopy ℝ) : Prop where
  /-- The arrays are a matrix. -/
  matrix : W.A.WellFormed
  /-- There is one right-hand side for each row. -/
  size_b : W.b.size = W.A.nrows
  /-- There is one cost for each column. -/
  size_c : W.c.size = W.A.ncols
  /-- The cones cover the columns. -/
  numel : W.cones.numel = W.A.ncols

/-- The point has the lengths of the program. -/
structure Point.Fits (p : Point ℝ) (W : WorkingCopy ℝ) : Prop where
  size_x : p.x.size = W.A.ncols
  size_w : p.w.size = W.A.nrows
  size_s : p.s.size = W.A.ncols

/-- The direction has the lengths of the program. -/
structure Direction.Fits (d : Direction ℝ) (W : WorkingCopy ℝ) : Prop where
  size_dx : d.dx.size = W.A.ncols
  size_dw : d.dw.size = W.A.nrows
  size_ds : d.ds.size = W.A.ncols

section

variable {W : WorkingCopy ℝ} {p : Point ℝ} {d : Direction ℝ}

/-- A step keeps the lengths. -/
theorem Point.Fits.move (hp : p.Fits W) (hd : d.Fits W) (α : ℝ) : (p.move d α).Fits W where
  size_x := by simp [Point.move, hp.size_x, hd.size_dx]
  size_w := by simp [Point.move, hp.size_w, hd.size_dw]
  size_s := by simp [Point.move, hp.size_s, hd.size_ds]

section

variable (hp : p.Fits W) (hd : d.Fits W) (α : ℝ)

include hp hd

theorem coords_move_x : coords W.A.ncols (p.move d α).x =
    coords W.A.ncols p.x + α • coords W.A.ncols d.dx := by
  rw [Point.move, coords_axpby _ _ _ (hd.size_dx.trans hp.size_x.symm), one_smul, add_comm]

theorem coords_move_w : coords W.A.nrows (p.move d α).w =
    coords W.A.nrows p.w + α • coords W.A.nrows d.dw := by
  rw [Point.move, coords_axpby _ _ _ (hd.size_dw.trans hp.size_w.symm), one_smul, add_comm]

theorem coords_move_s : coords W.A.ncols (p.move d α).s =
    coords W.A.ncols p.s + α • coords W.A.ncols d.ds := by
  rw [Point.move, coords_axpby _ _ _ (hd.size_ds.trans hp.size_s.symm), one_smul, add_comm]

end

end

/-! ## Residuals -/

section

variable {W : WorkingCopy ℝ} {p : Point ℝ} (hW : W.WellFormed) (hp : p.Fits W)

include hW hp

/-- The primal residual is `bτ - Ax`. -/
theorem coords_rp : (Residuals.of W p).rp.size = W.A.nrows ∧
    coords W.A.nrows (Residuals.of W p).rp =
      p.tau • coords W.A.nrows W.b - W.A.toMatrix *ᵥ coords W.A.ncols p.x := by
  obtain ⟨hsize, hcoords⟩ := Csc.mulAdd_eq hW.matrix.toValid (-1) hp.size_x 1
    (y := scale W.b p.tau) ((size_scale _ _).trans hW.size_b)
  refine ⟨hsize, hcoords.trans ?_⟩
  rw [coords_scale]
  module

/-- The dual residual is `cτ - Aᵀw - s`. -/
theorem coords_rd : (Residuals.of W p).rd.size = W.A.ncols ∧
    coords W.A.ncols (Residuals.of W p).rd = p.tau • coords W.A.ncols W.c -
      W.A.toMatrixᵀ *ᵥ coords W.A.nrows p.w - coords W.A.ncols p.s := by
  obtain ⟨hsize, hcoords⟩ := Csc.mulAddT_eq hW.matrix.toValid (-1) hp.size_w 1
    (y := scale W.c p.tau) ((size_scale _ _).trans hW.size_c)
  have hs := hp.size_s.trans hsize.symm
  refine ⟨by rw [Residuals.of, size_axpby, hs, min_self, hsize], ?_⟩
  rw [Residuals.of, coords_axpby _ _ _ hs, hcoords, coords_scale]
  module

omit hp in
/-- The residual of the gap is `κ + cᵀx - bᵀw`. -/
theorem rg_eq : (Residuals.of W p).rg = p.kappa +
    coords W.A.ncols W.c ⬝ᵥ coords W.A.ncols p.x -
      coords W.A.nrows W.b ⬝ᵥ coords W.A.nrows p.w := by
  rw [Residuals.of, dot_eq hW.size_c, dot_eq hW.size_b]

end

end Conic
