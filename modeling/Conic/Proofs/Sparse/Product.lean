import Conic.Proofs.Sparse.Dense
import Conic.Proofs.Sparse.Triplets

/-!
# Products with the stored values

A matrix that the format check accepts stores at most one value at a position.  The
dense matrix of its products has this value, and zero where nothing is stored
(`Csc.get_eq_stored`).  So in exact arithmetic the products are those with the values
that looking up gives, and the products with a matrix and its transpose are adjoint
(`Csc.WellFormed.multiplies`).

If `b` is zero, a product reads of the vector `y` its length only.  This takes no
law of arithmetic, and it holds of arrays that are no matrix, too
(`Csc.mulAdd?_congr`, `Csc.mulAddT?_congr`, `Csc.symMulAdd?_congr`).
-/

namespace Conic.Csc

open Matrix

/-! ## The stored values -/

/-- The value that is stored at a position, and zero where nothing is stored. -/
def stored (A : Csc ℝ) (i j : ℕ) : ℝ := ((A.entry? i j).join).getD 0

/-- The matrix of the stored values. -/
def dense (A : Csc ℝ) : Matrix (Fin A.nrows) (Fin A.ncols) ℝ := .of fun i j => A.stored i j

section

variable {A : Csc ℝ} (hA : A.WellFormed)

include hA

/-- A position has one entry at most, so the sum of its entries is what is stored. -/
theorem get_eq_stored (i : ℕ) {j : ℕ} (hj : j < A.ncols) : A.get i j = A.stored i j := by
  have hnodup : ((A.column j).map Prod.fst).Nodup := (hA.sorted j hj).imp fun h => h.ne
  rw [stored, entry?_eq hA i hj, Option.join_some]
  cases hfind : (A.column j).find? fun e => e.1 = i with
  | none =>
    refine Vec.coefficient_eq_zero fun e he heq => ?_
    exact List.find?_eq_none.mp hfind e he (decide_eq_true heq)
  | some e =>
    obtain rfl : e.1 = i := by simpa using List.find?_some hfind
    exact Vec.coefficient_eq_of_mem hnodup (List.mem_of_find?_eq_some hfind)

theorem toMatrix_eq_dense : A.toMatrix = A.dense := by
  ext i j
  exact get_eq_stored hA i j.isLt

/-- Only one symmetric matrix has the stored values above its diagonal and on it. -/
theorem symMatrix_eq (hsq : A.nrows = A.ncols) {S : Matrix (Fin A.nrows) (Fin A.nrows) ℝ}
    (hS : S.IsSymm) (hupper : ∀ i j, i ≤ j → S i j = A.stored i j) : A.symMatrix = S := by
  ext i j
  rcases le_total i j with hij | hij
  · have hle : (i : ℕ) ≤ j := hij
    rw [symMatrix, of_apply, symGet, min_eq_left hle, max_eq_right hle, hupper i j hij,
      get_eq_stored hA _ (j.isLt.trans_eq hsq)]
  · have hle : (j : ℕ) ≤ i := hij
    rw [symMatrix, of_apply, symGet, min_eq_right hle, max_eq_left hle, ← hS.apply,
      hupper j i hij, get_eq_stored hA _ (i.isLt.trans_eq hsq)]

end

/-! ## Products in exact arithmetic -/

variable [Machine]

/-- The products with a matrix in exact arithmetic. -/
structure Multiplies (A : Csc ℝ) : Prop where
  /-- The product with the matrix. -/
  mulAdd (a : ℝ) (x : Array ℝ) (b : ℝ) (y : Array ℝ) : x.size = A.ncols → y.size = A.nrows →
    ∃ z, A.mulAdd? a x b y = some z ∧ z.size = A.nrows ∧ Vec.coords A.nrows z =
      a • (A.dense *ᵥ Vec.coords A.ncols x) + b • Vec.coords A.nrows y
  /-- The product with the transposed matrix. -/
  mulAddT (a : ℝ) (x : Array ℝ) (b : ℝ) (y : Array ℝ) : x.size = A.nrows → y.size = A.ncols →
    ∃ z, A.mulAddT? a x b y = some z ∧ z.size = A.ncols ∧ Vec.coords A.ncols z =
      a • (A.denseᵀ *ᵥ Vec.coords A.nrows x) + b • Vec.coords A.ncols y
  /-- The two products are adjoint. -/
  adjoint (a : ℝ) (x z y y' : Array ℝ) : x.size = A.ncols → z.size = A.nrows →
    y.size = A.nrows → y'.size = A.ncols → ∃ u v, A.mulAdd? a x 0 y = some u ∧
      A.mulAddT? a z 0 y' = some v ∧ Vec.dot u z = Vec.dot x v
  /-- The product with the symmetric matrix of an upper triangle. -/
  symMulAdd (a : ℝ) (x : Array ℝ) (b : ℝ) (y : Array ℝ) : A.nrows = A.ncols →
    A.isTriu? = some true → x.size = A.nrows → y.size = A.nrows →
    ∃ z, A.symMulAdd? a x b y = some z ∧ z.size = A.nrows ∧
      ∀ S : Matrix (Fin A.nrows) (Fin A.nrows) ℝ, S.IsSymm →
        (∀ i j, i ≤ j → S i j = A.stored i j) → Vec.coords A.nrows z =
          a • (S *ᵥ Vec.coords A.nrows x) + b • Vec.coords A.nrows y

theorem WellFormed.multiplies {A : Csc ℝ} (hA : A.WellFormed) : A.Multiplies where
  mulAdd a x b y hx hy := toMatrix_eq_dense hA ▸ mulAdd?_eq hA.toValid a hx b hy
  mulAddT a x b y hx hy := toMatrix_eq_dense hA ▸ mulAddT?_eq hA.toValid a hx b hy
  adjoint a x z y y' hx hz hy hy' := by
    obtain ⟨u, hu, husize, hucoords⟩ := mulAdd?_eq hA.toValid a hx 0 hy
    obtain ⟨v, hv, hvsize, hvcoords⟩ := mulAddT?_eq hA.toValid a hz 0 hy'
    refine ⟨u, v, hu, hv, ?_⟩
    rw [Vec.dot_eq husize, Vec.dot_eq hx, hucoords, hvcoords, zero_smul, zero_smul, add_zero,
      add_zero, smul_dotProduct, dotProduct_smul, dotProduct_mulVec, vecMul_transpose]
  symMulAdd a x b y hsq htri hx hy := by
    obtain ⟨z, hz, hsize, hcoords⟩ :=
      symMulAdd?_eq hA.toValid hsq (hA.isTriu?_eq_true_iff.mp htri) a hx b hy
    exact ⟨z, hz, hsize, fun S hS hupper => symMatrix_eq hA hsq hS hupper ▸ hcoords⟩

/-! ## What is not read -/

section

variable {α : Type} [Scalar α] (A : Csc α) (a : α) (x : Array α) {b : α} (hb : (b == 0) = true)
  {y y' : Array α} (h : y.size = y'.size)

omit [Machine]

include hb

/-- An entry of the product is then computed from its position alone. -/
theorem mulAddT?_of_eq_zero (y : Array α) : A.mulAddT? a x b y =
    ((List.range y.size).mapM fun j => do
      pure (a * (← columnDot? x (← A.column? j)))).map List.toArray := by
  have hpositions : y.toList.zipIdx.map Prod.snd = List.range y.size := by
    simp [List.range_eq_range']
  rw [mulAddT?, ← hpositions, List.mapM_map, Option.map_eq_bind]
  simp only [hb, if_true, Function.comp_def]
  rfl

include h

theorem mulAdd?_congr : A.mulAdd? a x b y = A.mulAdd? a x b y' := by
  rw [mulAdd?, mulAdd?, scaleOrClear_congr hb h]

theorem mulAddT?_congr : A.mulAddT? a x b y = A.mulAddT? a x b y' := by
  rw [mulAddT?_of_eq_zero A a x hb, mulAddT?_of_eq_zero A a x hb, h]

theorem symMulAdd?_congr : A.symMulAdd? a x b y = A.symMulAdd? a x b y' := by
  rw [symMulAdd?, symMulAdd?, scaleOrClear_congr hb h]

end

omit [Machine] in
/-- The products with a matrix that the format check accepts are those with the matrix of
its stored values.  A vector that is scaled by zero is not read, whatever the arithmetic
and the matrix. -/
theorem products_eq_dense :
    (∀ [Machine] (A : Csc ℝ), A.checkFormat = .ok () → A.Multiplies) ∧
      ∀ {α : Type} [Scalar α] (A : Csc α) (a : α) (x : Array α) (b : α) (y y' : Array α),
        (b == 0) = true → y.size = y'.size → A.mulAdd? a x b y = A.mulAdd? a x b y' ∧
          A.mulAddT? a x b y = A.mulAddT? a x b y' ∧
          A.symMulAdd? a x b y = A.symMulAdd? a x b y' := by
  refine ⟨fun A hA => (checkFormat_eq_ok_iff.mp hA).multiplies, ?_⟩
  intro α _ A a x b y y' hb h
  exact ⟨mulAdd?_congr A a x hb h, mulAddT?_congr A a x hb h, symMulAdd?_congr A a x hb h⟩

omit [Machine] in
/-- An upper triangle with two entries on the diagonal and one above it.  Negative zero
clears a vector, too. -/
theorem products_eq_dense_triangle : letI := Machine.double
    let A : Csc ℝ := ⟨2, 2, #[0, 1, 3], #[0, 0, 1], #[2, 1, 3]⟩
    let B : Csc Float := ⟨2, 2, #[0, 1, 3], #[0, 0, 1], #[2, 1, 3]⟩
    let y : Array Float := #[0.0 / 0.0, 1.0 / 0.0]
    (A.checkFormat = .ok () ∧ A.Multiplies) ∧
      ((-0.0 : Float) == 0) = true ∧ y.size = (#[0, 0] : Array Float).size ∧
        B.mulAdd? 1 #[1, 1] (-0.0) y = B.mulAdd? 1 #[1, 1] (-0.0) #[0, 0] := by
  let _ := Machine.double
  intro A B y
  have hA : A.checkFormat = .ok () := rfl
  have hb : ((-0.0 : Float) == 0) = true := by decide +kernel
  have hsize : y.size = (#[0, 0] : Array Float).size := rfl
  exact ⟨⟨hA, products_eq_dense.1 A hA⟩, hb, hsize,
    (products_eq_dense.2 B 1 #[1, 1] (-0.0) y #[0, 0] hb hsize).1⟩

end Conic.Csc
