import Conic.Proofs.Exact.Reals
import Conic.Vec

/-!
# Vectors in exact arithmetic

`Vec.coords n x` reads the array `x` as a point of `Fin n → ℝ`, zero behind the
end of the array.  For arrays of length `n` nothing is lost (`Vec.ext_coords`),
and every operation of `Conic.Vec` becomes an operation on points
(`Vec.coords_axpby`, `Vec.dot_eq`, `Vec.norm_eq`).

The cones work on lists instead.  There the inner product is linear in each
argument (`Vec.inner_combine_left`), where `Vec.combine` is the combination of
two lists entry by entry.

A sparse product is a loop that adds amounts to the entries of a vector.
`Vec.exists_foldlM_of_add` says what such a loop leaves at an index: the sum of
the amounts for it.
-/

namespace Conic.Vec

/-! ## Combinations of lists -/

/-- The combination `a * x + b * y` of two lists. -/
def combine (a : ℝ) (x : List ℝ) (b : ℝ) (y : List ℝ) : List ℝ :=
  List.zipWith (fun xi yi => a * xi + b * yi) x y

@[simp] theorem length_combine (a : ℝ) (x : List ℝ) (b : ℝ) (y : List ℝ) :
    (combine a x b y).length = min x.length y.length := by
  simp [combine]

@[simp] theorem combine_cons (a : ℝ) (xi : ℝ) (x : List ℝ) (b yi : ℝ) (y : List ℝ) :
    combine a (xi :: x) b (yi :: y) = (a * xi + b * yi) :: combine a x b y := rfl

@[simp] theorem combine_nil_left (a b : ℝ) (y : List ℝ) : combine a [] b y = [] := rfl

@[simp] theorem combine_nil_right (a : ℝ) (x : List ℝ) (b : ℝ) : combine a x b [] = [] := by
  cases x <;> rfl

theorem getElem_combine (a : ℝ) (x : List ℝ) (b : ℝ) (y : List ℝ) {i : ℕ}
    (hi : i < (combine a x b y).length) :
    (combine a x b y)[i] =
      a * x.get ⟨i, by simp at hi; omega⟩ + b * y.get ⟨i, by simp at hi; omega⟩ := by
  simp [combine]

/-- A combination with a combination of the same second list. -/
theorem combine_combine_same (a b c d : ℝ) {x y : List ℝ} :
    combine a (combine b x c y) d y = combine (a * b) x (a * c + d) y := by
  apply List.ext_getElem (by simp)
  intro i hi hi'
  simp only [getElem_combine, List.get_eq_getElem]
  ring

/-- A combination of combinations with the same second list. -/
theorem combine_combine_combine (a b c d e : ℝ) {x z y : List ℝ} :
    combine a (combine b x c y) d (combine b z e y) =
      combine b (combine a x d z) (a * c + d * e) y := by
  apply List.ext_getElem (by simp [min_comm, min_left_comm])
  intro i hi hi'
  simp only [getElem_combine, List.get_eq_getElem]
  ring

theorem combine_one_zero {x y : List ℝ} (h : x.length = y.length) : combine 1 x 0 y = x := by
  apply List.ext_getElem (by simp [h])
  intro i hi hi'
  simp [getElem_combine]

theorem combine_append {x₁ y₁ : List ℝ} (h : x₁.length = y₁.length) (a : ℝ) (x₂ : List ℝ) (b : ℝ)
    (y₂ : List ℝ) :
    combine a (x₁ ++ x₂) b (y₁ ++ y₂) = combine a x₁ b y₁ ++ combine a x₂ b y₂ :=
  List.zipWith_append h

/-! ## Inner products of lists -/

theorem foldl_add_eq (l : List ℝ) (a : ℝ) : l.foldl (· + ·) a = a + l.sum := by
  induction l generalizing a with
  | nil => simp
  | cons b l ih => rw [List.foldl_cons, ih, List.sum_cons, add_assoc]

section

variable [Machine]

@[simp] theorem inner_nil_left (y : List ℝ) : inner ([] : List ℝ) y = 0 := by
  simp [inner]

@[simp] theorem inner_nil_right (x : List ℝ) : inner x ([] : List ℝ) = 0 := by
  simp [inner]

@[simp] theorem inner_cons (a b : ℝ) (x y : List ℝ) :
    inner (a :: x) (b :: y) = a * b + inner x y := by
  have hsum (l : List ℝ) : l.foldl (· + ·) (0 : ℝ) = l.sum := by simp [foldl_add_eq]
  show (List.zipWith (· * ·) (a :: x) (b :: y)).foldl (· + ·) (0 : ℝ) =
    a * b + (List.zipWith (· * ·) x y).foldl (· + ·) (0 : ℝ)
  rw [hsum, hsum, List.zipWith_cons_cons, List.sum_cons]

theorem inner_comm : ∀ x y : List ℝ, inner x y = inner y x
  | [], y => by simp
  | _ :: _, [] => by simp
  | a :: x, b :: y => by rw [inner_cons, inner_cons, inner_comm x y, mul_comm]

theorem inner_append {x₁ y₁ : List ℝ} (h : x₁.length = y₁.length) (x₂ y₂ : List ℝ) :
    inner (x₁ ++ x₂) (y₁ ++ y₂) = inner x₁ y₁ + inner x₂ y₂ := by
  induction x₁ generalizing y₁ with
  | nil =>
    cases y₁ with
    | nil => simp
    | cons b y₁ => simp at h
  | cons a x₁ ih =>
    cases y₁ with
    | nil => simp at h
    | cons b y₁ =>
      rw [List.cons_append, List.cons_append, inner_cons, inner_cons, ih (by simpa using h)]
      ring

/-- The inner product of a list with itself is not negative. -/
theorem inner_self_nonneg : ∀ x : List ℝ, 0 ≤ inner x x
  | [] => by simp
  | a :: x => by
    rw [inner_cons]
    exact add_nonneg (mul_self_nonneg a) (inner_self_nonneg x)

/-- The Cauchy-Schwarz inequality for lists. -/
theorem inner_sq_le : ∀ x y : List ℝ, inner x y ^ 2 ≤ inner x x * inner y y
  | [], y => by simp
  | _ :: _, [] => by simp
  | a :: x, b :: y => by
    have ih := inner_sq_le x y
    have hx := inner_self_nonneg x
    have hy := inner_self_nonneg y
    simp only [inner_cons]
    -- the mixed terms are bounded by the product of the two diagonal ones
    have hmix : (2 * (a * b) * inner x y) ^ 2 ≤ (a * a * inner y y + b * b * inner x x) ^ 2 := by
      have hab := mul_nonneg (mul_self_nonneg a) (mul_self_nonneg b)
      have h₁ := mul_le_mul_of_nonneg_left ih (mul_nonneg (by norm_num : (0 : ℝ) ≤ 4) hab)
      have h₂ := sq_nonneg (a * a * inner y y - b * b * inner x x)
      nlinarith [h₁, h₂]
    have hle : 2 * (a * b) * inner x y ≤ a * a * inner y y + b * b * inner x x :=
      le_of_sq_le_sq hmix (add_nonneg (mul_nonneg (mul_self_nonneg a) hy)
        (mul_nonneg (mul_self_nonneg b) hx))
    nlinarith [ih, hle]

theorem inner_combine_left (a b : ℝ) :
    ∀ {x y : List ℝ} (z : List ℝ), x.length = y.length →
      inner (combine a x b y) z = a * inner x z + b * inner y z
  | [], [], z, _ => by simp
  | _ :: _, _ :: _, [], _ => by simp
  | xi :: x, yi :: y, zi :: z, h => by
    rw [combine_cons, inner_cons, inner_cons, inner_cons,
      inner_combine_left a b z (by simpa using h)]
    ring

theorem inner_combine_right (a b : ℝ) {x y : List ℝ} (z : List ℝ) (h : x.length = y.length) :
    inner z (combine a x b y) = a * inner z x + b * inner z y := by
  rw [inner_comm, inner_combine_left a b z h, inner_comm x, inner_comm y]

/-- The inner product as a sum over a range that covers one of the lists. -/
theorem inner_eq_sum {n : ℕ} {x : List ℝ} (hx : x.length ≤ n) (y : List ℝ) :
    inner x y = ∑ i ∈ Finset.range n, x.getD i 0 * y.getD i 0 := by
  induction x generalizing y n with
  | nil => simp
  | cons a x ih =>
    cases y with
    | nil => simp
    | cons b y =>
      obtain ⟨n, rfl⟩ : ∃ m, n = m + 1 := ⟨n - 1, by simp at hx; omega⟩
      rw [inner_cons, Finset.sum_range_succ', ih (by simpa using hx) y]
      simp only [List.getD_cons_succ, List.getD_cons_zero]
      ring

end

/-! ## Arrays as points -/

/-- The array read as a point of dimension `n`. -/
def coords (n : ℕ) (x : Array ℝ) : Fin n → ℝ := fun i => x.getD i 0

theorem coords_apply (n : ℕ) (x : Array ℝ) (i : Fin n) : coords n x i = x.getD i 0 := rfl

theorem coords_eq_getElem {n : ℕ} {x : Array ℝ} {i : Fin n} (hi : (i : ℕ) < x.size) :
    coords n x i = x[(i : ℕ)] := by
  simp [coords, Array.getD, hi]

/-- The Euclidean norm of a point. -/
noncomputable def euclidean {n : ℕ} (v : Fin n → ℝ) : ℝ := Real.sqrt (∑ i, v i ^ 2)

theorem euclidean_eq_norm {n : ℕ} (v : Fin n → ℝ) : euclidean v = ‖WithLp.toLp 2 v‖ := by
  simp [euclidean, EuclideanSpace.norm_eq]

theorem euclidean_sub_comm {n : ℕ} (u v : Fin n → ℝ) : euclidean (u - v) = euclidean (v - u) := by
  rw [euclidean_eq_norm, euclidean_eq_norm, WithLp.toLp_sub, WithLp.toLp_sub, norm_sub_rev]

theorem euclidean_smul {n : ℕ} (a : ℝ) (v : Fin n → ℝ) :
    euclidean (a • v) = |a| * euclidean v := by
  rw [euclidean_eq_norm, euclidean_eq_norm, WithLp.toLp_smul, norm_smul, Real.norm_eq_abs]

/-- Arrays of length `n` are equal if they are equal as points. -/
theorem ext_coords {n : ℕ} {x y : Array ℝ} (hx : x.size = n) (hy : y.size = n)
    (h : coords n x = coords n y) : x = y := by
  apply Array.ext (hx.trans hy.symm)
  intro i hi hi'
  have heq := congrFun h ⟨i, hx ▸ hi⟩
  rwa [coords_eq_getElem hi, coords_eq_getElem hi'] at heq

section

variable [Machine]

@[simp] theorem coords_zeros (n m : ℕ) : coords n (zeros m : Array ℝ) = 0 := by
  funext i
  by_cases h : (i : ℕ) < m <;> simp [coords, zeros, Array.getD, h]

@[simp] theorem coords_scale (n : ℕ) (y : Array ℝ) (c : ℝ) :
    coords n (scale y c) = c • coords n y := by
  funext i
  by_cases h : (i : ℕ) < y.size <;> simp [coords, scale, Array.getD, h, mul_comm]

@[simp] theorem coords_negate (n : ℕ) (y : Array ℝ) : coords n (negate y) = -coords n y := by
  funext i
  by_cases h : (i : ℕ) < y.size <;> simp [coords, negate, Array.getD, h]

theorem coords_axpby (n : ℕ) (a : ℝ) {x y : Array ℝ} (b : ℝ) (h : x.size = y.size) :
    coords n (axpby a x b y) = a • coords n x + b • coords n y := by
  funext i
  by_cases hi : (i : ℕ) < y.size <;> simp [coords, axpby, Array.getD, h, hi]

theorem toList_axpby (a : ℝ) (x : Array ℝ) (b : ℝ) (y : Array ℝ) :
    (axpby a x b y).toList = combine a x.toList b y.toList := by
  simp [axpby, combine]

/-- The inner product of arrays is that of the points. -/
theorem dot_eq {n : ℕ} {x : Array ℝ} (h : x.size = n) (y : Array ℝ) :
    dot x y = coords n x ⬝ᵥ coords n y := by
  rw [dot, inner_eq_sum (n := n) (by simp [h]), Finset.sum_range]
  simp [dotProduct, coords]

theorem dot_comm (x y : Array ℝ) : dot x y = dot y x := inner_comm _ _

theorem dot_axpby (a b : ℝ) {x y : Array ℝ} (z : Array ℝ) (h : x.size = y.size) :
    dot z (axpby a x b y) = a * dot z x + b * dot z y := by
  rw [dot, toList_axpby, inner_combine_right a b _ (by simpa using h), dot, dot]

theorem dot_negate (z x : Array ℝ) : dot z (negate x) = -dot z x := by
  rw [dot_eq rfl, coords_negate, dotProduct_neg, ← dot_eq rfl]

/-- The norm of an array is the Euclidean norm of the point. -/
theorem norm_eq {n : ℕ} {x : Array ℝ} (h : x.size = n) : norm x = euclidean (coords n x) := by
  rw [norm, sumsq, dot_eq h, euclidean, Scalar.sqrt_real]
  simp only [dotProduct, sq]

@[simp] theorem isFinite_eq_true (x : Array ℝ) : isFinite x = true := by
  simp [isFinite]

end

/-! ## Sums over lists -/

/-- A sum over the entries of a list and their positions. -/
theorem sum_map_zipIdx {β : Type} (f : β × ℕ → ℝ) (d : β) (l : List β) (k : ℕ) :
    ((l.zipIdx k).map f).sum = ∑ i ∈ Finset.range l.length, f (l.getD i d, k + i) := by
  induction l generalizing k with
  | nil => simp
  | cons b l ih =>
    rw [List.zipIdx_cons, List.map_cons, List.sum_cons, ih, List.length_cons,
      Finset.sum_range_succ']
    simp only [List.getD_cons_succ, List.getD_cons_zero, Nat.add_zero]
    rw [add_comm]
    congr 1
    exact Finset.sum_congr rfl fun i _ => by rw [Nat.add_right_comm, Nat.add_assoc]

/-- Entries grouped by a key that is below `m`. -/
theorem sum_map_eq_sum_range {ε : Type} (key : ε → ℕ) (f : ε → ℝ) {m : ℕ} {l : List ε}
    (h : ∀ e ∈ l, key e < m) :
    (l.map f).sum = ∑ i ∈ Finset.range m, (l.map fun e => if key e = i then f e else 0).sum := by
  induction l with
  | nil => simp
  | cons e l ih =>
    simp only [List.map_cons, List.sum_cons, Finset.sum_add_distrib]
    rw [ih fun e' he' => h e' (by simp [he']), Finset.sum_ite_eq]
    simp [h e (by simp)]

/-- Amounts taken at one key, times a function of that key. -/
theorem sum_map_ite_mul {ε : Type} (key : ε → ℕ) (f : ε → ℝ) (g : ℕ → ℝ) (i : ℕ) (l : List ε) :
    (l.map fun e => if key e = i then f e * g (key e) else 0).sum =
      (l.map fun e => if key e = i then f e else 0).sum * g i := by
  induction l with
  | nil => simp
  | cons e l ih =>
    simp only [List.map_cons, List.sum_cons, add_mul, ih]
    by_cases h : key e = i <;> simp [h]

/-! ## Entries of a row -/

/-- The sum of the entries of a sparse vector at one row. -/
def coefficient (col : List (ℕ × ℝ)) (i : ℕ) : ℝ :=
  (col.map fun e => if e.1 = i then e.2 else 0).sum

@[simp] theorem coefficient_nil (i : ℕ) : coefficient [] i = 0 := rfl

theorem coefficient_concat (l : List (ℕ × ℝ)) (e : ℕ × ℝ) (i : ℕ) :
    coefficient (l ++ [e]) i = coefficient l i + if e.1 = i then e.2 else 0 := by
  simp [coefficient]

theorem coefficient_eq_zero {l : List (ℕ × ℝ)} {i : ℕ} (h : ∀ e ∈ l, e.1 ≠ i) :
    coefficient l i = 0 := by
  refine List.sum_eq_zero fun x hx => ?_
  obtain ⟨e, he, rfl⟩ := List.mem_map.mp hx
  exact if_neg (h e he)

/-- A row that occurs once has the value of its entry. -/
theorem coefficient_eq_of_mem {l : List (ℕ × ℝ)} (h : (l.map Prod.fst).Nodup) {e : ℕ × ℝ}
    (he : e ∈ l) : coefficient l e.1 = e.2 := by
  induction l with
  | nil => simp at he
  | cons e' l ih =>
    obtain ⟨hnew, hl⟩ := List.nodup_cons.mp h
    rw [coefficient, List.map_cons, List.sum_cons]
    rcases List.mem_cons.mp he with rfl | he
    · have hzero : coefficient l e.1 = 0 :=
        coefficient_eq_zero fun e' he' heq => hnew (heq ▸ List.mem_map_of_mem he')
      rw [coefficient] at hzero
      rw [if_pos rfl, hzero, add_zero]
    · have hne : e'.1 ≠ e.1 := fun heq => hnew (heq ▸ List.mem_map_of_mem he)
      rw [if_neg hne, zero_add]
      exact ih hl he

/-- A sum over a sparse vector weighted by a function of the row. -/
theorem sum_mul_eq_sum_coefficient {m : ℕ} {l : List (ℕ × ℝ)} (h : ∀ e ∈ l, e.1 < m) (f : ℕ → ℝ) :
    (l.map fun e => e.2 * f e.1).sum = ∑ i ∈ Finset.range m, coefficient l i * f i := by
  rw [sum_map_eq_sum_range Prod.fst _ h]
  exact Finset.sum_congr rfl fun i _ => sum_map_ite_mul Prod.fst Prod.snd f i l

/-! ## Loops that accumulate -/

/-- A loop whose passes succeed and add an amount to each entry succeeds and adds
the sum of the amounts. -/
theorem exists_foldlM_of_add {ε : Type} {g : Array ℝ → ε → Option (Array ℝ)}
    {f : ε → ℕ → ℝ} {n : ℕ} {l : List ε}
    (hg : ∀ e ∈ l, ∀ y : Array ℝ, y.size = n → ∃ z, g y e = some z ∧ z.size = n ∧
      ∀ i < n, z.getD i 0 = y.getD i 0 + f e i)
    {y : Array ℝ} (hy : y.size = n) :
    ∃ z, l.foldlM g y = some z ∧ z.size = n ∧
      ∀ i < n, z.getD i 0 = y.getD i 0 + (l.map fun e => f e i).sum := by
  induction l generalizing y with
  | nil => exact ⟨y, rfl, hy, by simp⟩
  | cons e l ih =>
    obtain ⟨z, hz, hsize, hadd⟩ := hg e (by simp) y hy
    obtain ⟨z', hz', hsize', hadd'⟩ := ih (fun e' he' => hg e' (by simp [he'])) hsize
    refine ⟨z', by simp [hz, hz'], hsize', fun i hi => ?_⟩
    rw [hadd' i hi, hadd i hi, List.map_cons, List.sum_cons, add_assoc]

/-- The same for a loop that cannot fail. -/
theorem getD_foldl_of_add {ε : Type} {g : Array ℝ → ε → Array ℝ} {f : ε → ℕ → ℝ} {n : ℕ}
    {l : List ε} (hg : ∀ e ∈ l, ∀ y : Array ℝ, y.size = n → (g y e).size = n ∧
      ∀ i < n, (g y e).getD i 0 = y.getD i 0 + f e i)
    {y : Array ℝ} (hy : y.size = n) :
    (l.foldl g y).size = n ∧
      ∀ i < n, (l.foldl g y).getD i 0 = y.getD i 0 + (l.map fun e => f e i).sum := by
  obtain ⟨z, hz, hsize, hadd⟩ := exists_foldlM_of_add (g := fun y e => some (g y e))
    (fun e he y hy => ⟨_, rfl, hg e he y hy⟩) hy
  rw [show l.foldlM (fun y e => some (g y e)) y = some (l.foldl g y) from List.foldlM_pure,
    Option.some.injEq] at hz
  subst hz
  exact ⟨hsize, hadd⟩

/-- One entry changed. -/
theorem getD_modify (y : Array ℝ) (k : ℕ) (f : ℝ → ℝ) {i : ℕ} (hi : i < y.size) :
    (y.modify k f).getD i 0 = if k = i then f (y.getD i 0) else y.getD i 0 := by
  by_cases h : k = i <;> simp [Array.getD, hi, h, Array.getElem_modify]

/-- One entry increased. -/
theorem getD_modify_add (y : Array ℝ) (k : ℕ) (a : ℝ) {i : ℕ} (hi : i < y.size) :
    (y.modify k (· + a)).getD i 0 = y.getD i 0 + if k = i then a else 0 := by
  rw [getD_modify y k _ hi]
  split <;> simp

end Conic.Vec
