import Conic.Proofs.Schur.Pattern
import Conic.Proofs.Schur.Triangle

/-!
# The assembled complement

A term of the complement stands for a bilinear form of two rows of the matrix
(`Schur.Term.form`).  Its triangle has the values of the form at the rows that
the term touches (`Schur.Term.triangle_eq`), and at all other rows the form is
zero.  The assembly adds up the triangles, so the entries of the assembled
complement are the sums of the forms (`Schur.Fits.symGet_assemble`).

The squares of the complement only depend on the columns of the terms.
`Schur.Fits` says that they belong to a matrix and a cone.  This stays true when
the cone is scaled anew.
-/

namespace Conic.Schur

/-! ## Rows of a square -/

theorem mem_touched {A : Csc ℝ} {cols : List ℕ} {r : ℕ} :
    r ∈ touched A cols ↔ ∃ j ∈ cols, r ∈ (A.column j).map Prod.fst := by
  rw [touched, mem_sorted, List.mem_flatMap]

theorem isSquare_touched {A : Csc ℝ} (hA : A.Valid) {cols : List ℕ}
    (hcols : ∀ j ∈ cols, j < A.ncols) : IsSquare A.nrows (touched A cols) := by
  refine ⟨pairwise_sorted _, fun r hr => ?_⟩
  obtain ⟨j, hj, hr⟩ := mem_touched.mp hr
  obtain ⟨e, he, rfl⟩ := List.mem_map.mp hr
  exact hA.row_lt_of_mem_column (hcols j hj) he

/-- A row that is not touched is zero in all columns of the term. -/
theorem get_eq_zero_of_not_mem {A : Csc ℝ} {cols : List ℕ} {r : ℕ} (hr : r ∉ touched A cols)
    {j : ℕ} (hj : j ∈ cols) : A.get r j = 0 :=
  Vec.coefficient_eq_zero fun _ he heq =>
    hr (mem_touched.mpr ⟨j, hj, heq ▸ List.mem_map_of_mem he⟩)

section

variable {rows : List ℕ} (hrows : rows.Pairwise (· < ·))

include hrows

theorem localRow_getElem {p : ℕ} (hp : p < rows.length) : localRow rows.toArray rows[p] = p := by
  have hplace := Search.place_eq_found (r := rows.toArray) (by simpa using hrows) (k := p)
    (by simpa using hp)
  rw [List.getElem_toArray] at hplace
  rw [localRow, hplace]
  rfl

theorem localRow_eq_iff {x p : ℕ} (hx : x ∈ rows) (hp : p < rows.length) :
    localRow rows.toArray x = p ↔ x = rows[p] := by
  obtain ⟨t, ht, rfl⟩ := List.getElem_of_mem hx
  rw [localRow_getElem hrows ht]
  exact (List.Nodup.getElem_inj_iff (hrows.imp fun h => h.ne)).symm

theorem localRow_le {x y : ℕ} (hx : x ∈ rows) (hy : y ∈ rows) (hxy : x ≤ y) :
    localRow rows.toArray x ≤ localRow rows.toArray y := by
  obtain ⟨t, ht, rfl⟩ := List.getElem_of_mem hx
  obtain ⟨u, hu, rfl⟩ := List.getElem_of_mem hy
  rw [localRow_getElem hrows ht, localRow_getElem hrows hu]
  by_contra hlt
  have := List.pairwise_iff_getElem.mp hrows u t hu ht (not_le.mp hlt)
  omega

theorem getElem_le_getElem {i j : ℕ} (hij : i ≤ j) (hj : j < rows.length) :
    rows[i] ≤ rows[j] := by
  rcases hij.eq_or_lt with rfl | hlt
  · exact le_rfl
  · exact (List.pairwise_iff_getElem.mp hrows i j (hij.trans_lt hj) hj hlt).le

/-- The pairs of entries of a column that belong to a value of the triangle. -/
theorem triangular_localRow_eq_iff {a : List (ℕ × ℝ)} (ha : a.Pairwise fun d e => d.1 < e.1)
    (hmem : ∀ e ∈ a, e.1 ∈ rows) {p : (ℕ × ℝ) × ℕ × ℝ} (hp : p ∈ pairs a) {i j : ℕ} (hij : i ≤ j)
    (hj : j < rows.length) :
    triangular (localRow rows.toArray p.1.1) (localRow rows.toArray p.2.1) = triangular i j ↔
      p.1.1 = rows[i] ∧ p.2.1 = rows[j] := by
  obtain ⟨h₁, h₂, hle⟩ := mem_pairs (k := Prod.fst) ha hp
  rw [← localRow_eq_iff hrows (hmem _ h₁) (hij.trans_lt hj),
    ← localRow_eq_iff hrows (hmem _ h₂) hj]
  exact ⟨triangular_inj (localRow_le hrows (hmem _ h₁) (hmem _ h₂) hle) hij,
    fun ⟨h₁, h₂⟩ => by rw [h₁, h₂]⟩

/-- Adding a multiple of a column to the vector `u`. -/
theorem weightedColumn_spec (w : ℝ) {col : List (ℕ × ℝ)} (hcol : ∀ e ∈ col, e.1 ∈ rows)
    {u : Array ℝ} (hu : u.size = rows.length) :
    (col.foldl (fun u e => u.modify (localRow rows.toArray e.1) (· + e.2 * w)) u).size =
        rows.length ∧ ∀ p (hp : p < rows.length),
      (col.foldl (fun u e => u.modify (localRow rows.toArray e.1) (· + e.2 * w)) u).getD p 0 =
        u.getD p 0 + Vec.coefficient col rows[p] * w := by
  obtain ⟨hsize, hget⟩ := Vec.getD_foldl_of_add (l := col)
    (g := fun u e => u.modify (localRow rows.toArray e.1) (· + e.2 * w))
    (f := fun e p => if localRow rows.toArray e.1 = p then e.2 * w else 0)
    (fun e _ u hu => ⟨by simpa using hu, fun p hp => Vec.getD_modify_add u _ _ (hu ▸ hp)⟩) hu
  refine ⟨hsize, fun p hp => ?_⟩
  have hlocal : ∀ e ∈ col, (if localRow rows.toArray e.1 = p then e.2 * w else 0) =
      if e.1 = rows[p] then e.2 * w else 0 := fun e he => by
    simp only [localRow_eq_iff hrows (hcol e he) hp]
  rw [hget p hp, List.map_congr_left hlocal]
  exact congrArg _ (Vec.sum_map_ite_mul Prod.fst Prod.snd (fun _ => w) rows[p] col)

end

/-- The products of two rows of a column. -/
theorem sum_pairs_product (q : ℝ) {a : List (ℕ × ℝ)} (ha : a.Pairwise fun d e => d.1 < e.1)
    {r c : ℕ} (hrc : r ≤ c) :
    ((pairs a).map fun p => if p.1.1 = r ∧ p.2.1 = c then q * p.1.2 * p.2.2 else 0).sum =
      q * (Vec.coefficient a r * Vec.coefficient a c) := by
  have hfirst (y : ℕ × ℝ) : (a.map fun x => if x.1 = r then q * x.2 * y.2 else 0).sum =
      q * Vec.coefficient a r * y.2 := by
    rw [Vec.coefficient, ← List.sum_map_mul_left, ← List.sum_map_mul_right]
    congr 1
    refine List.map_congr_left fun x _ => ?_
    split <;> ring
  have hsecond : (a.map fun y => if y.1 = c then q * Vec.coefficient a r * y.2 else 0).sum =
      q * Vec.coefficient a r * Vec.coefficient a c := by
    rw [Vec.coefficient.eq_1 a c, ← List.sum_map_mul_left]
    congr 1
    refine List.map_congr_left fun y _ => ?_
    split <;> ring
  rw [sum_pairs (k := Prod.fst) ha hrc fun x y => q * x.2 * y.2]
  simp only [hfirst, hsecond]
  ring

/-! ## The form of a term -/

variable [Machine]

/-- The bilinear form of a term.  `refl` is the diagonal of the reflection on
all columns. -/
noncomputable def Term.form (refl : ℕ → ℝ) : Term ℝ → (ℕ → ℝ) → (ℕ → ℝ) → ℝ
  | .column j t, u, v => t * u j * v j
  | .cone start K, u, v =>
    let cols := List.range' start K.numel
    K.eta * K.eta * (2 * Vec.inner K.w (cols.map u) * Vec.inner K.w (cols.map v) -
      (cols.map fun j => refl j * (u j * v j)).sum)

theorem Term.form_comm (refl : ℕ → ℝ) (t : Term ℝ) (u v : ℕ → ℝ) :
    t.form refl u v = t.form refl v u := by
  cases t with
  | column j t => exact mul_right_comm _ _ _
  | cone start K =>
    have hcomm : (List.range' start K.numel).map (fun j => refl j * (u j * v j)) =
        (List.range' start K.numel).map fun j => refl j * (v j * u j) :=
      List.map_congr_left fun j _ => by rw [mul_comm (u j)]
    simp only [form, hcomm]
    ring

theorem inner_map_eq_zero (w : List ℝ) {cols : List ℕ} {u : ℕ → ℝ} (hu : ∀ j ∈ cols, u j = 0) :
    Vec.inner w (cols.map u) = 0 := by
  induction cols generalizing w with
  | nil => simp
  | cons j cols ih =>
    cases w with
    | nil => simp
    | cons a w =>
      rw [List.map_cons, Vec.inner_cons, hu j (by simp), ih w fun j hj => hu j (by simp [hj])]
      simp

theorem Term.form_eq_zero (refl : ℕ → ℝ) (t : Term ℝ) {u : ℕ → ℝ} (hu : ∀ j ∈ t.cols, u j = 0)
    (v : ℕ → ℝ) : t.form refl u v = 0 := by
  cases t with
  | column j t => simp [form, hu j (by simp [cols])]
  | cone start K =>
    have hsum : ((List.range' start K.numel).map fun j => refl j * (u j * v j)).sum = 0 := by
      refine List.sum_eq_zero fun x hx => ?_
      obtain ⟨j, hj, rfl⟩ := List.mem_map.mp hx
      simp [hu j hj]
    have hinner : Vec.inner K.w ((List.range' start K.numel).map u) = 0 := inner_map_eq_zero K.w hu
    simp only [form, hinner, hsum]
    ring

/-- The form at a row that is not touched. -/
theorem Term.form_eq_zero_of_not_mem (refl : ℕ → ℝ) (t : Term ℝ) {A : Csc ℝ} {r : ℕ}
    (hr : r ∉ touched A t.cols) (v : ℕ → ℝ) : t.form refl (A.get r) v = 0 :=
  t.form_eq_zero refl (fun _ hj => get_eq_zero_of_not_mem hr hj) v

/-! ## The triangle of a term -/

theorem outer_eq (t : ℝ) (a : List ℝ) : outer t a = (pairs a).map fun p => t * p.1 * p.2 := by
  simp only [outer, pairs, List.map_flatMap, List.map_map]
  rfl

theorem sum_zip_eq_inner (w : List ℝ) (cols : List ℕ) (u : ℕ → ℝ) :
    ((cols.zip w).map fun c => u c.1 * c.2).sum = Vec.inner w (cols.map u) := by
  induction cols generalizing w with
  | nil => simp
  | cons j cols ih =>
    cases w with
    | nil => simp
    | cons a w =>
      rw [List.zip_cons_cons, List.map_cons, List.sum_cons, ih, List.map_cons, Vec.inner_cons,
        mul_comm]

section

variable {A : Csc ℝ} {rows : List ℕ} (hrows : rows.Pairwise (· < ·))

include hrows

/-- The vector `u` has the inner products of `w` with the rows as its entries. -/
theorem weighted_spec (w : List ℝ) {cols : List ℕ}
    (hcols : ∀ j ∈ cols, ∀ e ∈ A.column j, e.1 ∈ rows) :
    (weighted A rows.toArray (cols.zip w)).size = rows.length ∧ ∀ p (hp : p < rows.length),
      (weighted A rows.toArray (cols.zip w)).getD p 0 = Vec.inner w (cols.map (A.get rows[p])) := by
  have hloop := Loop.foldl_induction (l := cols.zip w) (s := Vec.zeros rows.length)
    (f := fun u c => (A.column c.1).foldl
      (fun u e => u.modify (localRow rows.toArray e.1) (· + e.2 * c.2)) u)
    (fun done u => u.size = rows.length ∧ ∀ p (hp : p < rows.length),
      u.getD p 0 = (done.map fun c => A.get rows[p] c.1 * c.2).sum)
    ⟨by simp, fun p hp => by simp [Vec.zeros, Array.getD, hp]⟩
    fun done c rest heq u ⟨hu, hget⟩ => by
      have hc : c ∈ cols.zip w := heq ▸ by simp
      obtain ⟨hsize, hadd⟩ := weightedColumn_spec hrows c.2
        (hcols c.1 (List.of_mem_zip hc).1) hu
      refine ⟨hsize, fun p hp => ?_⟩
      rw [hadd p hp, hget p hp, List.map_append, List.sum_append, List.map_singleton,
        List.sum_singleton]
      rfl
  rw [weighted, List.size_toArray]
  refine ⟨hloop.1, fun p hp => ?_⟩
  rw [← sum_zip_eq_inner w cols]
  exact hloop.2 p hp

/-- Subtracting a column changes each value of the triangle by one product. -/
theorem subtractColumn_spec (q : ℝ) {a : List (ℕ × ℝ)} (ha : a.Pairwise fun d e => d.1 < e.1)
    (hmem : ∀ e ∈ a, e.1 ∈ rows) {t : Array ℝ}
    (ht : t.size = rows.length * (rows.length + 1) / 2) :
    (subtractColumn rows.toArray q a t).size = rows.length * (rows.length + 1) / 2 ∧
      ∀ i j (hij : i ≤ j) (hj : j < rows.length),
        (subtractColumn rows.toArray q a t).getD (triangular i j) 0 = t.getD (triangular i j) 0 -
          q * (Vec.coefficient a rows[i] * Vec.coefficient a rows[j]) := by
  have hloop : subtractColumn rows.toArray q a t = (pairs a).foldl (fun t p =>
      t.modify (triangular (localRow rows.toArray p.1.1) (localRow rows.toArray p.2.1))
        (· - q * p.1.2 * p.2.2)) t := by
    simp only [subtractColumn, pairs, List.foldl_flatMap, List.foldl_map]
  obtain ⟨hsize, hget⟩ := Vec.getD_foldl_of_add (l := pairs a)
    (g := fun t p => t.modify (triangular (localRow rows.toArray p.1.1)
      (localRow rows.toArray p.2.1)) (· - q * p.1.2 * p.2.2))
    (f := fun p k => if triangular (localRow rows.toArray p.1.1)
      (localRow rows.toArray p.2.1) = k then -q * p.1.2 * p.2.2 else 0)
    (fun p _ t ht => ⟨by simpa using ht, fun k hk => by
      rw [Vec.getD_modify t _ _ (ht ▸ hk)]
      split <;> ring⟩) ht
  rw [hloop]
  refine ⟨hsize, fun i j hij hj => ?_⟩
  have hplace : ∀ p ∈ pairs a, (if triangular (localRow rows.toArray p.1.1)
      (localRow rows.toArray p.2.1) = triangular i j then -q * p.1.2 * p.2.2 else 0) =
      if p.1.1 = rows[i] ∧ p.2.1 = rows[j] then -q * p.1.2 * p.2.2 else 0 := fun p hp => by
    simp only [triangular_localRow_eq_iff hrows ha hmem hp hij hj]
  rw [hget _ (triangular_lt hij hj), List.map_congr_left hplace,
    sum_pairs_product (-q) ha (getElem_le_getElem hrows hij hj)]
  ring

omit hrows in
/-- The triangle of `2 * u * uᵀ`. -/
theorem outerTriangle_spec {u : Array ℝ} {n : ℕ} (hu : u.size = n) :
    ((outer 2 u.toList).map fun v => 0 + v).toArray.size = n * (n + 1) / 2 ∧
      ∀ i j, i ≤ j → j < n → ((outer 2 u.toList).map fun v => 0 + v).toArray.getD
        (triangular i j) 0 = 2 * u.getD i 0 * u.getD j 0 := by
  have houter : (outer 2 u.toList).map (fun v => 0 + v) =
      (pairs u.toList).map fun p => 2 * p.1 * p.2 := by
    simp [outer_eq]
  rw [houter]
  refine ⟨?_, fun i j hij hj => ?_⟩
  · rw [List.size_toArray, List.length_map, length_pairs, Array.length_toList, hu]
  · rw [getD_map_pairs (fun x y : ℝ => 2 * x * y) u.toList 0 hij (by simpa [hu] using hj)]
    simp [Array.getD_eq_getD_getElem?, List.getD_eq_getElem?_getD]

/-- A value of the triangle of a second-order cone. -/
theorem coneTriangle_spec (hA : A.WellFormed) (refl : Array ℝ) (start : ℕ) (K : SecondOrder ℝ)
    (hcols : ∀ j ∈ List.range' start K.numel, j < A.ncols ∧ ∀ e ∈ A.column j, e.1 ∈ rows) :
    (coneTriangle A refl rows.toArray start K).size = rows.length * (rows.length + 1) / 2 ∧
      ∀ i j (hij : i ≤ j) (hj : j < rows.length),
        (coneTriangle A refl rows.toArray start K).getD (triangular i j) 0 =
          2 * Vec.inner K.w ((List.range' start K.numel).map (A.get rows[i])) *
              Vec.inner K.w ((List.range' start K.numel).map (A.get rows[j])) -
            ((List.range' start K.numel).map fun k =>
              refl.getD k 0 * (A.get rows[i] k * A.get rows[j] k)).sum := by
  obtain ⟨hsize, hweighted⟩ := weighted_spec hrows K.w fun j hj => (hcols j hj).2
  obtain ⟨hstart, houter⟩ := outerTriangle_spec hsize
  simp only [coneTriangle, Scalar.two_real]
  refine Loop.foldl_induction (l := List.range' start K.numel)
    (f := fun t j => subtractColumn rows.toArray (refl.getD j 0) (A.column j) t)
    (fun done t => t.size = rows.length * (rows.length + 1) / 2 ∧
      ∀ i j (hij : i ≤ j) (hj : j < rows.length), t.getD (triangular i j) 0 =
        2 * Vec.inner K.w ((List.range' start K.numel).map (A.get rows[i])) *
            Vec.inner K.w ((List.range' start K.numel).map (A.get rows[j])) -
          (done.map fun k => refl.getD k 0 * (A.get rows[i] k * A.get rows[j] k)).sum)
    ⟨hstart, fun i j hij hj => ?_⟩ fun done k rest heq t ⟨ht, hget⟩ => ?_
  · rw [houter i j hij hj, hweighted i (hij.trans_lt hj), hweighted j hj, List.map_nil,
      List.sum_nil, sub_zero]
  · obtain ⟨hk, hmem⟩ := hcols k (heq ▸ by simp)
    obtain ⟨hsize, hsub⟩ := subtractColumn_spec hrows (refl.getD k 0)
      (List.pairwise_map.mp (hA.sorted k hk)) hmem ht
    refine ⟨hsize, fun i j hij hj => ?_⟩
    rw [hsub i j hij hj, hget i j hij hj, List.map_append, List.sum_append, List.map_singleton,
      List.sum_singleton]
    simp only [Csc.get]
    ring

end

/-- The triangle of a term has the values of its form. -/
theorem Term.triangle_eq {A : Csc ℝ} (hA : A.WellFormed) (refl : Array ℝ) (t : Term ℝ)
    (hcols : ∀ j ∈ t.cols, j < A.ncols) :
    t.triangle A refl (touched A t.cols).toArray = (pairs (touched A t.cols)).map fun p =>
      t.form (fun j => refl.getD j 0) (A.get p.1) (A.get p.2) := by
  cases t with
  | column j f =>
    have hj : j < A.ncols := hcols j (by simp [cols])
    have hrows : touched A [j] = (A.column j).map Prod.fst := by
      rw [touched, List.flatMap_singleton]
      exact sorted_eq_self (hA.sorted j hj)
    have hget : ∀ e ∈ A.column j, A.get e.1 j = e.2 := fun e he =>
      Vec.coefficient_eq_of_mem ((hA.sorted j hj).imp fun h => h.ne) he
    rw [triangle, cols, hrows, outer_eq, pairs_map, pairs_map, List.map_map, List.map_map]
    refine List.map_congr_left fun p hp => ?_
    obtain ⟨h₁, h₂, -⟩ := mem_pairs (k := Prod.fst) (List.pairwise_map.mp (hA.sorted j hj)) hp
    simp [form, hget p.1 h₁, hget p.2 h₂]
  | cone start K =>
    have hrows := pairwise_sorted ((List.range' start K.numel).flatMap fun j =>
      (A.column j).map (·.1))
    obtain ⟨hsize, hget⟩ := coneTriangle_spec
      (show (touched A (List.range' start K.numel)).Pairwise (· < ·) from hrows) hA refl start K
      fun j hj => ⟨hcols j hj, fun e he => mem_touched.mpr ⟨j, hj, List.mem_map_of_mem he⟩⟩
    rw [triangle, cols, toList_triangle hsize,
      pairs_eq_map (touched A (List.range' start K.numel)) 0, List.map_map, List.map_map]
    refine List.map_congr_left fun p hp => ?_
    obtain ⟨hle, hlt⟩ := le_of_mem_pairs_range hp
    have hlt' := hle.trans_lt hlt
    have hfst : (touched A (List.range' start K.numel)).getD p.1 0 =
        (touched A (List.range' start K.numel))[p.1] := by
      simp [hlt']
    have hsnd : (touched A (List.range' start K.numel)).getD p.2 0 =
        (touched A (List.range' start K.numel))[p.2] := by
      simp [hlt]
    simp only [Function.comp_apply, form, hfst, hsnd, hget p.1 p.2 hle hlt]

/-! ## Adding up the terms -/

omit [Machine] in
theorem places_square (M : Csc ℝ) (rows : List ℕ) :
    (square M rows).places = (pairs rows).map fun p => locate M p.1 p.2 := by
  simp only [square, pairs, List.map_flatMap, List.map_map]
  rfl

/-- What a term adds to the value at a place. -/
noncomputable def Term.amount (A : Csc ℝ) (refl : Array ℝ) (M : Csc ℝ) (t : Term ℝ) (k : ℕ) : ℝ :=
  ((pairs (touched A t.cols)).map fun p => if locate M p.1 p.2 = k then
    t.form (fun j => refl.getD j 0) (A.get p.1) (A.get p.2) else 0).sum

theorem addTerm_spec {A : Csc ℝ} (hA : A.WellFormed) (refl : Array ℝ) (M : Csc ℝ) (t : Term ℝ)
    (hcols : ∀ j ∈ t.cols, j < A.ncols) (values : Array ℝ) :
    (addTerm A refl values (t, square M (touched A t.cols))).size = values.size ∧
      ∀ k < values.size, (addTerm A refl values (t, square M (touched A t.cols))).getD k 0 =
        values.getD k 0 + t.amount A refl M k := by
  have hloop : addTerm A refl values (t, square M (touched A t.cols)) =
      (pairs (touched A t.cols)).foldl (fun values p => values.modify (locate M p.1 p.2)
        (· + t.form (fun j => refl.getD j 0) (A.get p.1) (A.get p.2))) values := by
    have htriangle := t.triangle_eq hA refl hcols
    simp only [addTerm]
    rw [places_square,
      show (square M (touched A t.cols)).rows = (touched A t.cols).toArray from rfl, htriangle,
      List.zip_map', List.foldl_map]
  rw [hloop]
  exact Vec.getD_foldl_of_add (l := pairs (touched A t.cols))
    (g := fun values p => values.modify (locate M p.1 p.2)
      (· + t.form (fun j => refl.getD j 0) (A.get p.1) (A.get p.2)))
    (f := fun p k => if locate M p.1 p.2 = k then
      t.form (fun j => refl.getD j 0) (A.get p.1) (A.get p.2) else 0)
    (fun p _ y hy => ⟨by simpa using hy, fun k hk => Vec.getD_modify_add y _ _ (hy ▸ hk)⟩) rfl

/-- A term adds its form to an entry of the pattern. -/
theorem Term.amount_locate {A : Csc ℝ} {columns : Array (List ℕ)} {values : Array ℝ}
    (h : IsPattern A.nrows columns) (hvalues : values.size = columns.toList.flatten.length)
    (refl : Array ℝ) (t : Term ℝ) (hsquare : IsSquare A.nrows (touched A t.cols))
    (hmem : ∀ c ∈ touched A t.cols, ∀ r ∈ touched A t.cols, r ≤ c → r ∈ columns.getD c [])
    {r c : ℕ} (hc : c < A.nrows) (hrc : r ≤ c) (hr : r ∈ columns.getD c []) :
    t.amount A refl (withValues A.nrows columns values)
      (locate (withValues A.nrows columns values) r c) =
        t.form (fun j => refl.getD j 0) (A.get r) (A.get c) := by
  have hplace : ∀ p ∈ pairs (touched A t.cols),
      (if locate (withValues A.nrows columns values) p.1 p.2 =
          locate (withValues A.nrows columns values) r c then
        t.form (fun j => refl.getD j 0) (A.get p.1) (A.get p.2) else 0) =
      if p.1 = r ∧ p.2 = c then
        t.form (fun j => refl.getD j 0) (A.get p.1) (A.get p.2) else 0 := by
    intro p hp
    obtain ⟨h₁, h₂, hle⟩ := mem_pairs (k := id) hsquare.1 hp
    have hiff : locate (withValues A.nrows columns values) p.1 p.2 =
        locate (withValues A.nrows columns values) r c ↔ p.1 = r ∧ p.2 = c :=
      ⟨h.locate_inj hvalues (hsquare.2 _ h₂) hc (hmem _ h₂ _ h₁ hle) hr,
        fun ⟨h₁, h₂⟩ => by rw [h₁, h₂]⟩
    simp only [hiff]
  rw [amount, List.map_congr_left hplace]
  refine sum_pairs_eq (f := fun x y => t.form (fun j => refl.getD j 0) (A.get x) (A.get y))
    hsquare.1 hrc (fun hr y => t.form_eq_zero_of_not_mem _ hr _) fun hc x => ?_
  rw [t.form_comm, t.form_eq_zero_of_not_mem _ hc]

/-! ## The complement of a matrix and a cone -/

omit [Machine] in
theorem le_of_mem_spansFrom {start : ℕ} {blocks : List (Block ℝ)} {span : ℕ × Block ℝ}
    (h : span ∈ Composite.spansFrom start blocks) :
    span.1 + span.2.numel ≤ start + (Composite.mk blocks).numel := by
  induction blocks generalizing start with
  | nil => simp [Composite.spansFrom] at h
  | cons b blocks ih =>
    have hnumel : (Composite.mk (b :: blocks)).numel = b.numel + (Composite.mk blocks).numel := rfl
    rw [hnumel]
    rcases List.mem_cons.mp h with rfl | h
    · simp only
      omega
    · have := ih h
      omega

/-- The columns of the terms are those of the cone. -/
theorem lt_of_mem_cols {K : Composite ℝ} {t : Term ℝ} (ht : t ∈ terms K) {j : ℕ}
    (hj : j ∈ t.cols) : j < K.numel := by
  obtain ⟨⟨start, b⟩, hspan, ht⟩ := List.mem_flatMap.mp ht
  have hle : start + b.numel ≤ K.numel := Nat.zero_add K.numel ▸ le_of_mem_spansFrom hspan
  cases b with
  | orthant B =>
    obtain ⟨p, hp, rfl⟩ := List.mem_map.mp ht
    have hlt := List.snd_lt_add_of_mem_zipIdx hp
    rw [Term.cols, List.mem_singleton] at hj
    simp only [Orthant.thetaSq, List.length_map, Block.numel, Orthant.numel] at hlt hle
    omega
  | secondOrder B =>
    rw [blockTerms, List.mem_singleton] at ht
    rw [ht, Term.cols, List.mem_range'_1] at hj
    simp only [Block.numel] at hle
    omega

/-- The rows that the terms of a cone touch. -/
noncomputable def squareRows (A : Csc ℝ) (K : Composite ℝ) : List (List ℕ) :=
  (terms K).map fun t => touched A t.cols

theorem isSquare_of_mem_squareRows {A : Csc ℝ} (hA : A.Valid) {K : Composite ℝ}
    (hK : K.numel ≤ A.ncols) : ∀ rows ∈ squareRows A K, IsSquare A.nrows rows := by
  intro rows hrows
  obtain ⟨t, ht, rfl⟩ := List.mem_map.mp hrows
  exact isSquare_touched hA fun j hj => (lt_of_mem_cols ht hj).trans_le hK

/-- The complement belongs to a matrix and a cone.  Its values may be any. -/
structure Fits (S : Schur ℝ) (A : Csc ℝ) (K : Composite ℝ) : Prop where
  /-- The matrix has the pattern of the squares. -/
  matrix : ∃ values : Array ℝ,
    values.size = (pattern A.nrows (squareRows A K)).toList.flatten.length ∧
      S.M = withValues A.nrows (pattern A.nrows (squareRows A K)) values
  /-- The squares are in the order of the terms. -/
  squares : S.squares = (squareRows A K).map (square S.M)

theorem fits_new (A : Csc ℝ) (K : Composite ℝ) : Fits (new A K) A K where
  matrix := ⟨Array.replicate (pattern A.nrows (squareRows A K)).toList.flatten.length 0,
    Array.size_replicate, rfl⟩
  squares := rfl

namespace Fits

variable {S : Schur ℝ} {A : Csc ℝ} {K : Composite ℝ} (hS : Fits S A K)

include hS

theorem nrows_eq : S.M.nrows = A.nrows := by
  obtain ⟨values, -, hM⟩ := hS.matrix
  rw [hM]
  rfl

/-- A cone with the same columns in its terms may take the place of the other
one. -/
theorem of_cols_eq {K' : Composite ℝ} (h : (terms K').map Term.cols = (terms K).map Term.cols) :
    Fits S A K' := by
  have hrows : squareRows A K' = squareRows A K := by
    have htouched := congrArg (List.map (touched A)) h
    rwa [List.map_map, List.map_map] at htouched
  exact ⟨hrows ▸ hS.matrix, hrows ▸ hS.squares⟩

/-- The assembly keeps the pattern and computes the sums of the amounts. -/
theorem assemble_spec (hA : A.WellFormed) (hK : K.numel ≤ A.ncols) (refl : Array ℝ) :
    ∃ values : Array ℝ, (S.assemble A K refl).M =
        withValues A.nrows (pattern A.nrows (squareRows A K)) values ∧
      values.size = (pattern A.nrows (squareRows A K)).toList.flatten.length ∧
      ∀ k < values.size, values.getD k 0 =
        ((terms K).map fun t => t.amount A refl (S.assemble A K refl).M k).sum := by
  obtain ⟨start, hstart, hM⟩ := hS.matrix
  have hzip : (terms K).zip S.squares =
      (terms K).map fun t => (t, square S.M (touched A t.cols)) := by
    rw [hS.squares, squareRows, List.map_map, ← List.zip_map' (f := fun t => t), List.map_id']
    rfl
  obtain ⟨hsize, hget⟩ := Vec.getD_foldl_of_add (l := terms K) (n := start.size)
    (g := fun values t => addTerm A refl values (t, square S.M (touched A t.cols)))
    (f := fun t k => t.amount A refl S.M k) (fun t ht values hvalues => by
      obtain ⟨hsize, hget⟩ := addTerm_spec hA refl S.M t
        (fun j hj => (lt_of_mem_cols ht hj).trans_le hK) values
      exact ⟨hsize.trans hvalues, fun k hk => hget k (hvalues.symm ▸ hk)⟩)
    (y := Vec.fill S.M.values 0) (by simp [Vec.fill, hM, withValues])
  have hvalues : (S.assemble A K refl).M.values = (terms K).foldl
      (fun values t => addTerm A refl values (t, square S.M (touched A t.cols)))
        (Vec.fill S.M.values 0) := by
    refine Eq.trans ?_ (List.foldl_map (f := fun t => (t, square S.M (touched A t.cols)))
      (g := addTerm A refl))
    rw [← hzip]
    rfl
  refine ⟨_, ?_, hsize.trans hstart, fun k hk => ?_⟩
  · show ({ S.M with values := (S.assemble A K refl).M.values } : Csc ℝ) = _
    rw [hvalues, hM]
    rfl
  · rw [hget k (hsize ▸ hk)]
    have hzero : (Vec.fill S.M.values 0).getD k 0 = (0 : ℝ) := by
      by_cases h : k < S.M.values.size <;> simp [Vec.fill, Array.getD, h]
    rw [hzero, zero_add]
    rfl

theorem ncols_eq : S.M.ncols = A.nrows := by
  obtain ⟨values, -, hM⟩ := hS.matrix
  rw [hM]
  rfl

theorem wellFormed (hA : A.Valid) (hK : K.numel ≤ A.ncols) : S.M.WellFormed := by
  obtain ⟨values, hsize, hM⟩ := hS.matrix
  rw [hM]
  exact (pattern_spec (isSquare_of_mem_squareRows hA hK)).1.wellFormed hsize

theorem isTriu (hA : A.Valid) (hK : K.numel ≤ A.ncols) : S.M.IsTriu := by
  obtain ⟨values, hsize, hM⟩ := hS.matrix
  rw [hM]
  exact (pattern_spec (isSquare_of_mem_squareRows hA hK)).1.isTriu hsize

/-- The assembly keeps the number of values. -/
theorem nnz_assemble (hA : A.WellFormed) (hK : K.numel ≤ A.ncols) (refl : Array ℝ) :
    (S.assemble A K refl).M.nnz = S.M.nnz := by
  obtain ⟨values, hM, hsize, -⟩ := hS.assemble_spec hA hK refl
  obtain ⟨start, hstart, hM'⟩ := hS.matrix
  rw [hM, hM']
  exact hsize.trans hstart.symm

/-- The complement still fits after the assembly. -/
theorem assemble (hA : A.WellFormed) (hK : K.numel ≤ A.ncols) (refl : Array ℝ) :
    Fits (S.assemble A K refl) A K := by
  obtain ⟨values, hM, hsize, -⟩ := hS.assemble_spec hA hK refl
  exact ⟨⟨values, hsize, hM⟩, hS.squares⟩

/-- The entries of the upper triangle are the sums of the forms. -/
theorem get_assemble (hA : A.WellFormed) (hK : K.numel ≤ A.ncols) (refl : Array ℝ) {r c : ℕ}
    (hc : c < A.nrows) (hrc : r ≤ c) : (S.assemble A K refl).M.get r c =
      ((terms K).map fun t => t.form (fun j => refl.getD j 0) (A.get r) (A.get c)).sum := by
  obtain ⟨values, hM, hsize, hget⟩ := hS.assemble_spec hA hK refl
  have hsquares := isSquare_of_mem_squareRows hA.toValid hK
  have hsquare (t : Term ℝ) (ht : t ∈ terms K) := hsquares _ (List.mem_map_of_mem ht)
  obtain ⟨hpattern, hmem⟩ := pattern_spec hsquares
  rw [hM] at hget ⊢
  by_cases hr : r ∈ (pattern A.nrows (squareRows A K)).getD c []
  · rw [hpattern.get_eq hsize hc hr, hget _ (hpattern.locate_lt hsize hc hr)]
    congr 1
    refine List.map_congr_left fun t ht => ?_
    refine t.amount_locate hpattern hsize refl (hsquare t ht) (fun y hy x hx hxy => ?_) hc hrc hr
    exact (hmem y ((hsquare t ht).2 y hy) x).mpr
      (.inr ⟨_, List.mem_map_of_mem ht, hy, hx, hxy⟩)
  · rw [hpattern.get_eq_zero hsize hc hr]
    refine (List.sum_eq_zero fun x hx => ?_).symm
    obtain ⟨t, ht, rfl⟩ := List.mem_map.mp hx
    by_cases hrow : r ∈ touched A t.cols
    · have hcol : c ∉ touched A t.cols := fun hcol =>
        hr ((hmem c hc r).mpr (.inr ⟨_, List.mem_map_of_mem ht, hcol, hrow, hrc⟩))
      rw [t.form_comm, t.form_eq_zero_of_not_mem _ hcol]
    · exact t.form_eq_zero_of_not_mem _ hrow _

/-- The entries of the complement are the sums of the forms. -/
theorem symGet_assemble (hA : A.WellFormed) (hK : K.numel ≤ A.ncols) (refl : Array ℝ) {r c : ℕ}
    (hr : r < A.nrows) (hc : c < A.nrows) : (S.assemble A K refl).M.symGet r c =
      ((terms K).map fun t => t.form (fun j => refl.getD j 0) (A.get r) (A.get c)).sum := by
  rw [Csc.symGet]
  rcases le_total r c with h | h
  · rw [min_eq_left h, max_eq_right h, hS.get_assemble hA hK refl hc h]
  · rw [min_eq_right h, max_eq_left h, hS.get_assemble hA hK refl hr h]
    congr 1
    exact List.map_congr_left fun t _ => t.form_comm _ _ _

end Fits

end Conic.Schur
