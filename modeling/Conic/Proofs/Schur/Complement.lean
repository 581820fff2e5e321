import Conic.Proofs.Schur.Form

/-!
# The assembled complement as a matrix

The complement of a matrix `A` and a cone is an upper triangle that stores
`AΘ²Aᵀ`, where `Θ²` is what the cone computes (`Schur.isComplement_assemble`).
Its pattern is made once for the columns of the terms, and every product that the
assembly adds up has a place in it.
-/

namespace Conic

open Vec Matrix

/-- An entry is stored at a position. -/
def Csc.Stores {α : Type} (A : Csc α) (i j : ℕ) : Prop := i ∈ (A.column j).map Prod.fst

namespace Schur

variable [Machine]

/-- A matrix stores the upper triangle of `AΘ²Aᵀ` for the scaling of a cone. -/
structure IsComplement (M A : Csc ℝ) (K : Composite ℝ) : Prop where
  /-- The arrays are a matrix. -/
  format : M.checkFormat = .ok ()
  /-- The matrix has a row and a column for each row of `A`. -/
  square : M.nrows = A.nrows ∧ M.ncols = A.nrows
  /-- Nothing is stored below the diagonal. -/
  triu : M.IsTriu
  /-- The diagonal is stored. -/
  diagonal : ∀ r < A.nrows, M.Stores r r
  /-- Two rows that one term touches meet at a position that is stored. -/
  stored : ∀ t ∈ terms K, ∀ r ∈ touched A t.cols, ∀ c ∈ touched A t.cols, r ≤ c → M.Stores r c
  /-- The operation `Θ²` of the cone is linear, and the symmetric matrix with this upper
  triangle is the product. -/
  product : ∃ D : Matrix (Fin A.ncols) (Fin A.ncols) ℝ,
    (∀ v : Array ℝ, v.size = A.ncols → (K.mulThetaSq v).size = A.ncols ∧
      coords A.ncols (K.mulThetaSq v) = D *ᵥ coords A.ncols v) ∧
    ∀ r c : Fin A.nrows, M.symGet r c = (A.toMatrix * D * A.toMatrixᵀ) r c

variable {A : Csc ℝ} {K : Composite ℝ}

/-- The complement stores exactly the positions of its pattern. -/
theorem Fits.stores_iff {S : Schur ℝ} (hS : S.Fits A K) (hA : A.Valid) (hK : K.numel ≤ A.ncols)
    {r c : ℕ} (hc : c < A.nrows) : S.M.Stores r c ↔
      r = c ∨ ∃ rows ∈ squareRows A K, c ∈ rows ∧ r ∈ rows ∧ r ≤ c := by
  obtain ⟨values, hsize, hM⟩ := hS.matrix
  obtain ⟨hpattern, hmem⟩ := pattern_spec (isSquare_of_mem_squareRows hA hK)
  have hdiv := hpattern.divided hsize
  rw [hM, Csc.Stores, hdiv.map_fst_column hc, hdiv.toList_rows hc, hpattern.map_row_span hc]
  exact hmem c hc r

omit [Machine] in
/-- The product of two rows of `A` with a linear map in between. -/
theorem dotProduct_toMatrix' (f : (Fin A.ncols → ℝ) →ₗ[ℝ] (Fin A.ncols → ℝ)) (r c : Fin A.nrows) :
    (fun j : Fin A.ncols => A.get r j) ⬝ᵥ f (fun j : Fin A.ncols => A.get c j) =
      (A.toMatrix * LinearMap.toMatrix' f * A.toMatrixᵀ) r c := by
  rw [← LinearMap.toMatrix'_mulVec, dotProduct_mulVec]
  show _ = (A.toMatrix * LinearMap.toMatrix' f) r ⬝ᵥ A.toMatrix c
  rw [mul_apply_eq_vecMul]
  rfl

/-- The complement that is assembled on the pattern of a cone of the same shape is `AΘ²Aᵀ`, in
every scaling state with the reflections of the cones. -/
theorem isComplement_assemble {K₀ : Composite ℝ} (hA : A.checkFormat = .ok ())
    (hn : K.numel = A.ncols) (hK : K.Reflected) (hshape : K.shape = K₀.shape) :
    IsComplement ((Schur.new A K₀).assemble A K K.reflection).M A K := by
  have hA := Csc.checkFormat_eq_ok_iff.mp hA
  have hnew : (Schur.new A K₀).Fits A K := (fits_new A K₀).of_cols_eq (map_cols_eq_of_shape hshape)
  have hS := hnew.assemble hA hn.le K.reflection
  have hsquares := isSquare_of_mem_squareRows hA.toValid hn.le
  refine {
    format := Csc.checkFormat_eq_ok_iff.mpr (hS.wellFormed hA.toValid hn.le)
    square := ⟨hS.nrows_eq, hS.ncols_eq⟩
    triu := hS.isTriu hA.toValid hn.le
    diagonal := fun r hr => (hS.stores_iff hA.toValid hn.le hr).mpr (.inl rfl)
    stored := fun t ht r hr c hc hrc => ?_
    product := ⟨LinearMap.toMatrix' (hK.thetaSq hn), fun v hv => ?_, fun r c => ?_⟩ }
  · have hrows := List.mem_map_of_mem (f := fun t => touched A t.cols) ht
    exact (hS.stores_iff hA.toValid hn.le ((hsquares _ hrows).2 c hc)).mpr
      (.inr ⟨_, hrows, hc, hr, hrc⟩)
  · rw [LinearMap.toMatrix'_mulVec]
    exact hK.coords_mulThetaSq hn hv
  · rw [hnew.symGet_assemble hA hn.le K.reflection r.isLt c.isLt, sum_form_eq hK hn,
      dotProduct_toMatrix']

omit [Machine] in
/-- The complement of one row over a second-order cone, in a state that belongs to no pair of
interior points. -/
theorem isComplement_row : letI := Machine.double
    let A : Csc ℝ := ⟨1, 2, #[0, 1, 2], #[0, 0], #[3, 4]⟩
    let K₀ : Composite ℝ := ⟨[.secondOrder (.ofDim 2)]⟩
    let K : Composite ℝ := ⟨[.secondOrder ⟨[2, 1], 3, SecondOrder.reflection 2⟩]⟩
    A.checkFormat = .ok () ∧ K.numel = A.ncols ∧ K.Reflected ∧ K.shape = K₀.shape ∧
      IsComplement ((Schur.new A K₀).assemble A K K.reflection).M A K := by
  let _ := Machine.double
  let A : Csc ℝ := ⟨1, 2, #[0, 1, 2], #[0, 0], #[3, 4]⟩
  let K : Composite ℝ := ⟨[.secondOrder ⟨[2, 1], 3, SecondOrder.reflection 2⟩]⟩
  have hA : A.checkFormat = .ok () := by cbv
  have hK : K.Reflected := fun b hb => by
    rw [List.mem_singleton.mp hb]
    rfl
  exact ⟨hA, rfl, hK, rfl, isComplement_assemble hA rfl hK rfl⟩

end Schur

end Conic
