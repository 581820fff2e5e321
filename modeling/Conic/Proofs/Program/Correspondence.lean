import Conic.Proofs.Program.CheckIn
import Conic.Proofs.Program.Order

/-!
# A program and its working copy

The working copy of a valid program is the same program with its columns in
another order.  `WorkingCopy.LaidOut` says which order that is and where the
cones lie.  A point of the copy scatters to a point of the program
(`WorkingCopy.Scatters`), and the two have the same product with the matrix, the
same costs, and lie in the same cones (`WorkingCopy.SamePoint`).
-/

namespace Conic

open Vec Matrix

/-- The ranges of the blocks follow one another. -/
theorem Composite.flatMap_spansFrom {α : Type} [Scalar α] (blocks : List (Block α)) (start : ℕ) :
    ((spansFrom start blocks).flatMap fun span => List.range' span.1 span.2.numel) =
      List.range' start (Composite.mk blocks).numel := by
  induction blocks generalizing start with
  | nil => rfl
  | cons b bs ih =>
    rw [spansFrom, List.flatMap_cons, ih, numel_cons]
    exact List.range'_append_1

namespace WorkingCopy

/-! ## The layout -/

/-- The layout of a program in its working copy. -/
structure LaidOut {α : Type} [Scalar α] (W : WorkingCopy α) (p : Program α) : Prop where
  /-- Every column of the program is a column of the copy, once. -/
  columns : W.perm.Perm (List.range p.A.ncols)
  /-- The columns of half lines come first, in the order of the list, and those of each
  second-order cone follow, with the bound in front. -/
  perm : W.perm = orthantColumns p.cones ++ (secondOrderColumns p.cones).flatten
  /-- There is a block for the half lines, if there are any, and one for each second-order
  cone. -/
  cones : W.cones = ⟨blocks p.cones⟩
  /-- The blocks own the columns of the half lines and those of each second-order cone. -/
  pieces : Composite.pieces W.cones.blocks W.perm =
    (if 0 < (orthantColumns p.cones).length then [orthantColumns p.cones] else []) ++
      secondOrderColumns p.cones
  /-- The ranges of the blocks follow one another and cover all columns. -/
  ranges : (W.cones.spans.flatMap fun span => List.range' span.1 span.2.numel) =
    List.range p.A.ncols
  /-- The rows are those of the program. -/
  rows : W.A.nrows = p.A.nrows ∧ W.b = p.b

theorem Copies.laidOut {α : Type} [Scalar α] {W : WorkingCopy α} {p : Program α}
    (h : W.Copies p) : W.LaidOut p where
  columns := h.perm_range
  perm := h.perm
  cones := h.cones
  pieces := by
    have hpieces := pieces_blocks (α := α) id p.cones
    simp only [List.map_id] at hpieces
    rw [h.cones, h.perm, hpieces]
    congr 1
    exact (List.map_congr_left fun _ _ => List.map_id _).trans (List.map_id _)
  ranges := by
    have hnumel : W.cones.numel = p.A.ncols :=
      h.regular.numel.trans (h.ncols_eq.trans h.length_perm)
    rw [Composite.spans, Composite.flatMap_spansFrom, List.range_eq_range', ← hnumel]
  rows := ⟨h.nrows_eq, h.b⟩

/-! ## Points -/

/-- The vector `x` has in the columns of the program what `v` has in those of the copy. -/
structure Scatters {α : Type} (W : WorkingCopy α) (v x : Array α) : Prop where
  /-- Both vectors have an entry for each column. -/
  sizes : v.size = W.perm.length ∧ x.size = W.perm.length
  /-- The entries are the same. -/
  entries : ∀ place column : ℕ, W.perm[place]? = some column → x[column]? = v[place]?

/-- Every vector in working order scatters. -/
theorem Copies.exists_scatters {α : Type} [Scalar α] {W : WorkingCopy α} {p : Program α}
    (h : W.Copies p) {v : Array α} (hv : v.size = p.A.ncols) : ∃ x, W.Scatters v x := by
  obtain ⟨q, -, hbrought⟩ := h.exists_brought hv hv
  refine ⟨q.x, ⟨hv.trans h.length_perm.symm, ?_⟩, fun place column hcolumn => ?_⟩
  · rw [hbrought.sizes.1, h.sizes.2.2.1, h.length_perm]
  · exact (hbrought.entries (column, place) (List.mem_zipIdx_iff_getElem?.mpr hcolumn)).1

variable [Machine]

/-- A point of the copy and a point of the program are the same point. -/
structure SamePoint (W : WorkingCopy ℝ) (p : Program ℝ) (v x : Array ℝ) : Prop where
  /-- Each row of the matrix has the same product with both points. -/
  row : ∀ i : ℕ, ∑ k : Fin W.A.ncols, W.A.get i k * v.getD k 0 =
    ∑ j : Fin p.A.ncols, p.A.get i j * x.getD j 0
  /-- The product that is computed is the same. -/
  product : ∀ (a b : ℝ) (y : Array ℝ), y.size = p.A.nrows →
    W.A.mulAdd a v b y = p.A.mulAdd a x b y
  /-- The costs are the same. -/
  cost : dot W.c v = dot p.c x
  /-- The point of the copy lies in the cone if the point of the program lies in all cones. -/
  contains : W.cones.Contains v ↔ ∀ K ∈ p.cones, K.Contains fun j => x.getD j 0
  /-- The point of the copy is interior if the point of the program is interior to all cones. -/
  interior : W.cones.isInterior v = true ↔ ∀ K ∈ p.cones, K.Interior fun j => x.getD j 0

namespace Copies

variable {W : WorkingCopy ℝ} {p : Program ℝ} (h : W.Copies p) {v x : Array ℝ}

include h

theorem inOrder_of_scatters (hx : W.Scatters v x) : W.InOrder v fun j => x.getD j 0 :=
  h.inOrder_of_entries (hx.sizes.1.trans h.length_perm) (hx.sizes.2.trans h.length_perm) hx.entries

/-- The product that is computed with a vector in working order. -/
theorem mulAdd_eq_of_scatters (hx : W.Scatters v x) (a b : ℝ) {y : Array ℝ}
    (hy : y.size = p.A.nrows) : W.A.mulAdd a v b y = p.A.mulAdd a x b y := by
  have hrows := h.nrows_eq
  obtain ⟨hsize, hcoords⟩ := Csc.mulAdd_eq h.wellFormed.matrix.toValid a
    (hx.sizes.1.trans h.ncols_eq.symm) b (hy.trans hrows.symm)
  obtain ⟨hsize', hcoords'⟩ := Csc.mulAdd_eq h.matrix.toValid a
    (hx.sizes.2.trans h.length_perm) b hy
  refine ext_coords hsize (hsize'.trans hrows.symm) (funext fun i => ?_)
  have hcopy := congrFun hcoords i
  have hprogram := congrFun hcoords' ⟨i, i.isLt.trans_eq hrows⟩
  have hrow : (W.A.toMatrix *ᵥ coords W.A.ncols v) i =
      (p.A.toMatrix *ᵥ coords p.A.ncols x) ⟨i, i.isLt.trans_eq hrows⟩ :=
    h.mulVec_eq (h.inOrder_of_scatters hx) i
  simp only [Pi.add_apply, Pi.smul_apply, hrow] at hcopy
  exact hcopy.trans hprogram.symm

theorem samePoint (hx : W.Scatters v x) : W.SamePoint p v x where
  row := h.sum_get_eq (h.inOrder_of_scatters hx)
  product a b _ hy := h.mulAdd_eq_of_scatters hx a b hy
  cost := by
    rw [h.dot_inOrder h.inOrder_c (h.inOrder_of_scatters hx), dot_eq h.sizes.2.1]
    rfl
  contains := h.contains_iff (h.inOrder_of_scatters hx)
  interior := h.isInterior_iff (h.inOrder_of_scatters hx)

end Copies

/-- The working copy of a valid program is the same program: it exists, its columns are those
of the program, and every point of the copy is the same point of the program. -/
theorem exists_samePoint {p : Program ℝ} (h : p.validate = .ok ()) :
    ∃ W, checkOut p = .ok W ∧ W.LaidOut p ∧
      (∀ v : Array ℝ, v.size = p.A.ncols → ∃ x, W.Scatters v x) ∧
      ∀ v x, W.Scatters v x → W.SamePoint p v x := by
  have hcheckOut := checkOut_eq_ok_iff.mpr ⟨h, rfl⟩
  have hcopies := copies_of_checkOut hcheckOut
  exact ⟨copy p, hcheckOut, hcopies.laidOut, fun v hv => hcopies.exists_scatters hv,
    fun v x hx => hcopies.samePoint hx⟩

end WorkingCopy

/-- Two rows over a half line and a second-order cone whose columns lie around it. -/
noncomputable def Program.interleaved : Program ℝ where
  A := .ofColumns 2 [[(0, 1)], [(1, 1)], [(0, 1), (1, 1)], [(0, -1)]]
  b := #[0, 1]
  c := #[0, 1, 1, -1]
  x := #[0, 0, 0, 0]
  w := #[0, 0]
  s := #[0, 0, 0, 0]
  cones := [.secondOrder 2 [0, 3], .nonnegative 1]
  map := .identity 4

theorem Program.validate_interleaved : interleaved.validate = .ok () := by cbv

theorem WorkingCopy.exists_samePoint_interleaved : letI := Machine.double
    Program.interleaved.validate = .ok () ∧
      ∃ W, checkOut .interleaved = .ok W ∧ W.LaidOut .interleaved ∧
        (∀ v : Array ℝ, v.size = Program.interleaved.A.ncols → ∃ x, W.Scatters v x) ∧
        ∀ v x, W.Scatters v x → W.SamePoint .interleaved v x := by
  let _ := Machine.double
  exact ⟨Program.validate_interleaved, exists_samePoint Program.validate_interleaved⟩

end Conic
