import Conic.Proofs.Exact.Vectors
import Conic.Proofs.Sparse.Layout
import Conic.Sparse.Product

/-!
# Sparse products in exact arithmetic

A sparse matrix stands for the dense matrix `Csc.toMatrix`, in which entries of
one position are added up.  An upper triangle stands for the symmetric matrix
`Csc.symMatrix`.  The three products of `Conic.Sparse.Product` are the products
with these matrices (`Csc.mulAdd_eq`, `Csc.mulAddT_eq`, `Csc.symMulAdd_eq`).
-/

namespace Conic.Csc

open Matrix

/-! ## The dense matrix -/

/-- The sum of the entries at a position. -/
def get (A : Csc ℝ) (i j : ℕ) : ℝ := Vec.coefficient (A.column j) i

/-- The dense matrix. -/
def toMatrix (A : Csc ℝ) : Matrix (Fin A.nrows) (Fin A.ncols) ℝ := .of fun i j => A.get i j

/-- The entry of the symmetric matrix whose upper triangle is stored. -/
def symGet (A : Csc ℝ) (i j : ℕ) : ℝ := A.get (min i j) (max i j)

/-- The symmetric matrix whose upper triangle is stored. -/
def symMatrix (A : Csc ℝ) : Matrix (Fin A.nrows) (Fin A.nrows) ℝ := .of fun i j => A.symGet i j

theorem symGet_comm (A : Csc ℝ) (i j : ℕ) : A.symGet i j = A.symGet j i := by
  simp only [symGet, min_comm, max_comm]

theorem IsTriu.get_eq_zero {A : Csc ℝ} (hA : A.IsTriu) {i j : ℕ} (hj : j < A.ncols) (h : j < i) :
    A.get i j = 0 :=
  Vec.coefficient_eq_zero fun e he => ne_of_lt ((hA j hj e he).trans_lt h)

/-- A sum over a column weighted by a function of the row. -/
theorem sum_column {A : Csc ℝ} (hA : A.Valid) {j : ℕ} (hj : j < A.ncols) (f : ℕ → ℝ) :
    ((A.column j).map fun e => e.2 * f e.1).sum =
      ∑ i ∈ Finset.range A.nrows, A.get i j * f i :=
  Vec.sum_mul_eq_sum_coefficient (fun _ he => hA.row_lt_of_mem_column hj he) f

/-! ## The symmetric matrix of an upper triangle -/

/-- What an entry of the upper triangle in column `j` adds to entry `i` of a
symmetric product. -/
noncomputable def mirrored (a : ℝ) (x : Array ℝ) (j : ℕ) (e : ℕ × ℝ) (i : ℕ) : ℝ :=
  (if e.1 = i then e.2 * (a * x.getD j 0) else 0) +
    e.2 * (if j = i ∧ e.1 ≠ i then a * x.getD e.1 0 else 0)

/-- What a whole column adds to entry `i`. -/
theorem sum_mirrored {A : Csc ℝ} (hA : A.Valid) (a : ℝ) (x : Array ℝ) {j : ℕ} (hj : j < A.ncols)
    (i : ℕ) : ((A.column j).map fun e => mirrored a x j e i).sum =
      A.get i j * (a * x.getD j 0) + ∑ r ∈ Finset.range A.nrows,
        A.get r j * (if j = i ∧ r ≠ i then a * x.getD r 0 else 0) := by
  simp only [mirrored, List.sum_map_add]
  rw [sum_column hA hj fun r => if j = i ∧ r ≠ i then a * x.getD r 0 else 0,
    Vec.sum_map_ite_mul Prod.fst Prod.snd (fun _ => a * x.getD j 0) i]
  rfl

/-- The entries on and behind the diagonal and the mirrored ones before it make
up a row of the symmetric matrix. -/
theorem sum_symGet {A : Csc ℝ} (hA : A.IsTriu) (hsq : A.nrows = A.ncols) (f : ℕ → ℝ) {i : ℕ}
    (hi : i < A.ncols) :
    ∑ j ∈ Finset.range A.ncols, (A.get i j * f j + ∑ r ∈ Finset.range A.nrows,
        A.get r j * (if j = i ∧ r ≠ i then f r else 0)) =
      ∑ j ∈ Finset.range A.nrows, A.symGet i j * f j := by
  have hsecond : ∑ j ∈ Finset.range A.ncols, ∑ r ∈ Finset.range A.nrows,
      A.get r j * (if j = i ∧ r ≠ i then f r else 0) =
        ∑ r ∈ Finset.range A.ncols, A.get r i * (if r ≠ i then f r else 0) := by
    rw [Finset.sum_eq_single_of_mem i (Finset.mem_range.mpr hi), hsq]
    · simp
    · intro j _ hji
      simp [hji]
  rw [Finset.sum_add_distrib, hsecond, ← Finset.sum_add_distrib, hsq]
  refine Finset.sum_congr rfl fun j hj => ?_
  have hj : j < A.ncols := Finset.mem_range.mp hj
  rcases lt_trichotomy i j with h | rfl | h
  · rw [hA.get_eq_zero hi h, symGet, min_eq_left h.le, max_eq_right h.le]
    simp
  · simp [symGet]
  · rw [hA.get_eq_zero hj h, symGet, min_eq_right h.le, max_eq_left h.le]
    simp [h.ne]

/-- What all columns add to entry `i`. -/
theorem sum_sum_mirrored {A : Csc ℝ} (hA : A.Valid) (htri : A.IsTriu) (hsq : A.nrows = A.ncols)
    (a : ℝ) (x : Array ℝ) {i : ℕ} (hi : i < A.nrows) :
    ((List.range A.ncols).map fun j => ((A.column j).map fun e => mirrored a x j e i).sum).sum =
      a * ∑ j ∈ Finset.range A.nrows, A.symGet i j * x.getD j 0 := by
  have hcolumn : (List.range A.ncols).map (fun j =>
      ((A.column j).map fun e => mirrored a x j e i).sum) = (List.range A.ncols).map fun j =>
        A.get i j * (a * x.getD j 0) + ∑ r ∈ Finset.range A.nrows,
          A.get r j * (if j = i ∧ r ≠ i then a * x.getD r 0 else 0) :=
    List.map_congr_left fun j hj => sum_mirrored hA a x (List.mem_range.mp hj) i
  rw [hcolumn]
  refine (sum_symGet htri hsq (fun j => a * x.getD j 0) (hsq ▸ hi)).trans ?_
  rw [Finset.mul_sum]
  exact Finset.sum_congr rfl fun j _ => by ring

variable [Machine]

/-! ## The product -/

theorem coords_scaleOrClear (n : ℕ) (b : ℝ) (y : Array ℝ) :
    Vec.coords n (scaleOrClear b y) = b • Vec.coords n y := by
  unfold scaleOrClear
  by_cases h₀ : b = 0
  · funext i
    by_cases hi : (i : ℕ) < y.size <;> simp [h₀, Vec.fill, Vec.coords, Array.getD, hi]
  · by_cases h₁ : b = 1
    · simp [h₁]
    · simp [h₀, h₁]

omit [Machine] in
@[simp] theorem size_scaleOrClear {α : Type} [Scalar α] (b : α) (y : Array α) :
    (scaleOrClear b y).size = y.size := by
  unfold scaleOrClear
  split
  · simp [Vec.fill]
  · split <;> simp

/-- Adding a multiple of a column succeeds and adds it to every entry. -/
theorem addColumn?_eq {m : ℕ} (t : ℝ) {col : List (ℕ × ℝ)} (hcol : ∀ e ∈ col, e.1 < m)
    {y : Array ℝ} (hy : y.size = m) :
    ∃ z, addColumn? t y col = some z ∧ z.size = m ∧ ∀ i < m, z.getD i 0 =
      y.getD i 0 + Vec.coefficient col i * t := by
  obtain ⟨z, hz, hsize, hadd⟩ := Vec.exists_foldlM_of_add (l := col)
    (g := fun y e => update? y e.1 (· + e.2 * t)) (f := fun e i => if e.1 = i then e.2 * t else 0)
    (fun e he y hy => ⟨_, update?_of_lt _ (hy ▸ hcol e he), by simpa using hy,
      fun i hi => Vec.getD_modify_add y e.1 _ (hy ▸ hi)⟩) hy
  refine ⟨z, hz, hsize, fun i hi => ?_⟩
  rw [hadd i hi, Vec.sum_map_ite_mul Prod.fst Prod.snd (fun _ => t) i col]
  rfl

/-- The product with the matrix succeeds. -/
theorem mulAdd?_eq {A : Csc ℝ} (hA : A.Valid) (a : ℝ) {x : Array ℝ} (hx : x.size = A.ncols)
    (b : ℝ) {y : Array ℝ} (hy : y.size = A.nrows) :
    ∃ z, A.mulAdd? a x b y = some z ∧ z.size = A.nrows ∧ Vec.coords A.nrows z =
      a • (A.toMatrix *ᵥ Vec.coords A.ncols x) + b • Vec.coords A.nrows y := by
  obtain ⟨z, hz, hsize, hadd⟩ := Vec.exists_foldlM_of_add (l := x.toList.zipIdx)
    (g := fun y p => do addColumn? (a * p.1) y (← A.column? p.2))
    (f := fun p i => A.get i p.2 * (a * p.1)) (n := A.nrows) (y := scaleOrClear b y) (by
      intro p hp y hy
      have hj : p.2 < A.ncols := by
        have := List.snd_lt_of_mem_zipIdx hp
        simpa [hx] using this
      obtain ⟨z, hz, hsize, hadd⟩ := addColumn?_eq (a * p.1)
        (fun e he => hA.row_lt_of_mem_column hj he) hy
      exact ⟨z, by simp [hA.column?_eq hj, hz], hsize, hadd⟩) (by simpa using hy)
  refine ⟨z, hz, hsize, funext fun i => ?_⟩
  have hb := congrFun (coords_scaleOrClear A.nrows b y) i
  rw [Vec.coords_apply] at hb
  rw [Vec.coords_apply, hadd i i.isLt, hb, add_comm, Vec.sum_map_zipIdx _ 0, Array.length_toList,
    hx, Finset.sum_range, Pi.add_apply]
  congr 1
  simp only [Pi.smul_apply, smul_eq_mul, mulVec, dotProduct, Finset.mul_sum]
  refine Finset.sum_congr rfl fun j _ => ?_
  simp only [toMatrix, of_apply, Vec.coords_apply, Array.getD_eq_getD_getElem?,
    List.getD_eq_getElem?_getD, Array.getElem?_toList, Nat.zero_add]
  ring

theorem mulAdd_eq {A : Csc ℝ} (hA : A.Valid) (a : ℝ) {x : Array ℝ} (hx : x.size = A.ncols) (b : ℝ)
    {y : Array ℝ} (hy : y.size = A.nrows) :
    (A.mulAdd a x b y).size = A.nrows ∧ Vec.coords A.nrows (A.mulAdd a x b y) =
      a • (A.toMatrix *ᵥ Vec.coords A.ncols x) + b • Vec.coords A.nrows y := by
  obtain ⟨z, hz, h⟩ := mulAdd?_eq hA a hx b hy
  rwa [mulAdd, hz, Option.getD_some]

/-! ## The product with the transposed matrix -/

theorem columnDot?_eq {m : ℕ} {x : Array ℝ} (hx : x.size = m) {col : List (ℕ × ℝ)}
    (hcol : ∀ e ∈ col, e.1 < m) :
    columnDot? x col = some (col.map fun e => e.2 * x.getD e.1 0).sum := by
  have hloop : columnDot? x col = some (col.foldl (fun acc e => acc + e.2 * x.getD e.1 0) 0) := by
    refine Loop.foldlM_eq_some _ (fun _ => True) trivial fun acc _ e he => ⟨?_, trivial⟩
    have he : e.1 < x.size := hx ▸ hcol e he
    simp [he, Array.getD]
  rw [hloop, ← List.foldl_map (g := fun acc v => acc + v), Vec.foldl_add_eq, zero_add]

/-- The product with the transposed matrix succeeds. -/
theorem mulAddT?_eq {A : Csc ℝ} (hA : A.Valid) (a : ℝ) {x : Array ℝ} (hx : x.size = A.nrows)
    (b : ℝ) {y : Array ℝ} (hy : y.size = A.ncols) :
    ∃ z, A.mulAddT? a x b y = some z ∧ z.size = A.ncols ∧ Vec.coords A.ncols z =
      a • (A.toMatrixᵀ *ᵥ Vec.coords A.nrows x) + b • Vec.coords A.ncols y := by
  have hentry : ∀ p ∈ y.toList.zipIdx, (do
      let s ← columnDot? x (← A.column? p.2)
      pure (if b == 0 then a * s else a * s + b * p.1)) =
        some (a * (∑ i ∈ Finset.range A.nrows, A.get i p.2 * x.getD i 0) + b * p.1) := by
    intro p hp
    have hj : p.2 < A.ncols := by
      have := List.snd_lt_of_mem_zipIdx hp
      simpa [hy] using this
    have hcol := columnDot?_eq hx fun e he => hA.row_lt_of_mem_column hj he
    rw [sum_column hA hj fun i => x.getD i 0] at hcol
    by_cases hb : b = 0 <;> simp [hA.column?_eq hj, hcol, hb]
  refine ⟨_, by rw [mulAddT?, Loop.mapM_eq_some _ hentry]; rfl, by simp [hy], funext fun j => ?_⟩
  have hj : (j : ℕ) < y.size := j.isLt.trans_eq hy.symm
  simp only [Vec.coords_apply, Pi.add_apply, Pi.smul_apply, smul_eq_mul, mulVec, dotProduct,
    transpose_apply, toMatrix, of_apply]
  rw [← Finset.sum_range fun i => A.get i j * x.getD i 0]
  simp [Array.getD, hj]

theorem mulAddT_eq {A : Csc ℝ} (hA : A.Valid) (a : ℝ) {x : Array ℝ} (hx : x.size = A.nrows) (b : ℝ)
    {y : Array ℝ} (hy : y.size = A.ncols) :
    (A.mulAddT a x b y).size = A.ncols ∧ Vec.coords A.ncols (A.mulAddT a x b y) =
      a • (A.toMatrixᵀ *ᵥ Vec.coords A.nrows x) + b • Vec.coords A.ncols y := by
  obtain ⟨z, hz, h⟩ := mulAddT?_eq hA a hx b hy
  rwa [mulAddT, hz, Option.getD_some]

/-! ## The product with a symmetric matrix -/

theorem addSymmetric?_eq {n : ℕ} (a : ℝ) {x : Array ℝ} (hx : x.size = n) {j : ℕ} (hj : j < n)
    {e : ℕ × ℝ} (he : e.1 < n) {y : Array ℝ} (hy : y.size = n) :
    ∃ z, addSymmetric? a x j y e = some z ∧ z.size = n ∧
      ∀ i < n, z.getD i 0 = y.getD i 0 + mirrored a x j e i := by
  have hxj : x[j]? = some (x.getD j 0) := by simp [Array.getD, hx, hj]
  have hxe : x[e.1]? = some (x.getD e.1 0) := by simp [Array.getD, hx, he]
  have hfirst := update?_of_lt (v := y) (· + a * e.2 * x.getD j 0) (hy ▸ he)
  by_cases hej : e.1 = j
  · refine ⟨y.modify e.1 (· + a * e.2 * x.getD j 0), ?_, by simpa using hy, fun i hi => ?_⟩
    · rw [addSymmetric?, hxj]
      simp only [Option.bind_eq_bind, Option.bind_some, hfirst, if_pos hej, Option.pure_def]
    · rw [Vec.getD_modify_add _ _ _ (hy ▸ hi), mirrored, hej]
      by_cases hji : j = i
      · simp [hji]
        ring
      · simp [hji]
  · have hsecond := update?_of_lt (v := y.modify e.1 (· + a * e.2 * x.getD j 0))
      (· + a * e.2 * x.getD e.1 0) (i := j) (by simpa [hy] using hj)
    refine ⟨(y.modify e.1 (· + a * e.2 * x.getD j 0)).modify j (· + a * e.2 * x.getD e.1 0), ?_,
      by simpa using hy, fun i hi => ?_⟩
    · rw [addSymmetric?, hxj]
      simp only [Option.bind_eq_bind, Option.bind_some, hfirst, hej, if_false, hxe]
      exact hsecond
    · rw [Vec.getD_modify_add _ _ _ (by simpa [hy] using hi), Vec.getD_modify_add _ _ _ (hy ▸ hi),
        mirrored, add_assoc]
      congr 2
      · split <;> ring
      · by_cases hji : j = i
        · have hei : e.1 ≠ i := fun h => hej (h.trans hji.symm)
          simp only [hji, if_true, hei, ne_eq, not_false_eq_true, and_self]
          ring
        · simp [hji]

/-- The product with the symmetric matrix of an upper triangle succeeds. -/
theorem symMulAdd?_eq {A : Csc ℝ} (hA : A.Valid) (hsq : A.nrows = A.ncols) (htri : A.IsTriu)
    (a : ℝ) {x : Array ℝ} (hx : x.size = A.nrows) (b : ℝ) {y : Array ℝ} (hy : y.size = A.nrows) :
    ∃ z, A.symMulAdd? a x b y = some z ∧ z.size = A.nrows ∧ Vec.coords A.nrows z =
      a • (A.symMatrix *ᵥ Vec.coords A.nrows x) + b • Vec.coords A.nrows y := by
  have hguard : ¬(A.ncols ≠ 0 ∧ A.colPtr.size ≤ A.ncols) := by
    rw [hA.size_colPtr]
    omega
  obtain ⟨z, hz, hsize, hadd⟩ := Vec.exists_foldlM_of_add (l := List.range A.ncols)
    (g := fun y j => do (← A.column? j).foldlM (addSymmetric? a x j) y)
    (f := fun j i => ((A.column j).map fun e => mirrored a x j e i).sum) (n := A.nrows)
    (y := scaleOrClear b y) (by
      intro j hj y hy
      have hj : j < A.ncols := List.mem_range.mp hj
      obtain ⟨z, hz, h⟩ := Vec.exists_foldlM_of_add (l := A.column j) (g := addSymmetric? a x j)
        (f := fun e i => mirrored a x j e i)
        (fun e he y hy => addSymmetric?_eq a hx (hsq ▸ hj) (hA.row_lt_of_mem_column hj he) hy) hy
      exact ⟨z, by simp [hA.column?_eq hj, hz], h⟩) (by simpa using hy)
  refine ⟨z, by rw [symMulAdd?, if_neg hguard]; exact hz, hsize, funext fun i => ?_⟩
  have hb := congrFun (coords_scaleOrClear A.nrows b y) i
  rw [Vec.coords_apply] at hb
  rw [Vec.coords_apply, hadd i i.isLt, hb, add_comm, Pi.add_apply]
  congr 1
  simp only [Pi.smul_apply, smul_eq_mul, mulVec, dotProduct, symMatrix, of_apply, Vec.coords_apply]
  rw [← Finset.sum_range fun j => A.symGet i j * x.getD j 0]
  exact sum_sum_mirrored hA htri hsq a x i.isLt

theorem symMulAdd_eq {A : Csc ℝ} (hA : A.Valid) (hsq : A.nrows = A.ncols) (htri : A.IsTriu)
    (a : ℝ) {x : Array ℝ} (hx : x.size = A.nrows) (b : ℝ) {y : Array ℝ} (hy : y.size = A.nrows) :
    (A.symMulAdd a x b y).size = A.nrows ∧ Vec.coords A.nrows (A.symMulAdd a x b y) =
      a • (A.symMatrix *ᵥ Vec.coords A.nrows x) + b • Vec.coords A.nrows y := by
  obtain ⟨z, hz, h⟩ := symMulAdd?_eq hA hsq htri a hx b hy
  rwa [symMulAdd, hz, Option.getD_some]

/-! ## Lengths -/

section

variable {α : Type} [Scalar α]

omit [Machine]

theorem size_of_addSymmetric? {a : α} {x : Array α} {j : ℕ} {e : ℕ × α} {y z : Array α}
    (h : addSymmetric? a x j y e = some z) : z.size = y.size := by
  simp only [addSymmetric?, Option.bind_eq_bind, Option.bind_eq_some_iff] at h
  obtain ⟨xj, -, y', hy', h⟩ := h
  have hsize := size_of_update?_eq_some hy'
  split at h
  next =>
    cases h
    exact hsize
  next =>
    obtain ⟨xi, -, h⟩ := Option.bind_eq_some_iff.mp h
    exact (size_of_update?_eq_some h).trans hsize

/-- Whatever the operands are, a product is as long as the vector it is added
to. -/
theorem size_symMulAdd (A : Csc α) (a : α) (x : Array α) (b : α) (y : Array α) :
    (A.symMulAdd a x b y).size = y.size := by
  rw [symMulAdd]
  cases h : A.symMulAdd? a x b y with
  | none => rfl
  | some z =>
    rw [symMulAdd?] at h
    split at h
    next => cases h
    next =>
      refine Loop.of_foldlM_eq_some (fun z : Array α => z.size = y.size) (size_scaleOrClear b y)
        (fun y' j z hy' hz => ?_) h
      obtain ⟨col, -, hz⟩ := Option.bind_eq_some_iff.mp hz
      exact Loop.of_foldlM_eq_some (fun z : Array α => z.size = y.size) hy'
        (fun y' e z hy' hz => (size_of_addSymmetric? hz).trans hy') hz

theorem size_mulAdd (A : Csc α) (a : α) (x : Array α) (b : α) (y : Array α) :
    (A.mulAdd a x b y).size = y.size := by
  rw [mulAdd]
  cases h : A.mulAdd? a x b y with
  | none => rfl
  | some z =>
    refine Loop.of_foldlM_eq_some (fun z : Array α => z.size = y.size) (size_scaleOrClear b y)
      (fun y' p z hy' hz => ?_) h
    obtain ⟨col, -, hz⟩ := Option.bind_eq_some_iff.mp hz
    exact Loop.of_foldlM_eq_some (fun z : Array α => z.size = y.size) hy'
      (fun y' e z hy' hz => (size_of_update?_eq_some hz).trans hy') hz

theorem size_mulAddT (A : Csc α) (a : α) (x : Array α) (b : α) (y : Array α) :
    (A.mulAddT a x b y).size = y.size := by
  rw [mulAddT]
  cases h : A.mulAddT? a x b y with
  | none => rfl
  | some z =>
    obtain ⟨entries, hentries, hz⟩ := Option.bind_eq_some_iff.mp h
    obtain rfl := Option.some.inj hz
    simpa using Loop.length_of_mapM_eq_some hentries

end

end Conic.Csc
