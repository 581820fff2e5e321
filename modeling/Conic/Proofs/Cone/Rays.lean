import Conic.Proofs.Cone.Blocks

/-!
# Rays

A ray consists of the points `v + t * dv` for `t` from zero on (`Vec.ray`).  Its
*extent* in a cone says how far it goes, if it starts in the interior: up to the
point at which it meets the boundary, or one if it never does (`Extent`).  A ray
that has met the boundary is outside from then on, since a point between an
interior point and a point of the cone is interior.

`maxStep` is the extent of a ray on the orthant (`Orthant.extent_maxStep`) and on a
second-order cone (`SecondOrder.extent_maxStep`).  On the orthant each coordinate
that decreases has its own bound, and the least one counts.  On a second-order
cone the residual along the ray is a quadratic polynomial, which is positive up
to its first root ahead (`SecondOrder.firstRoot_spec`).  Before that root the ray
cannot jump to the backward cone.  On its way there it would pass a point with
bound zero, and the residual of such a point is not positive
(`SecondOrder.bound_nonneg`).
-/

namespace Conic

open Vec

/-! ## The points of a cone -/

/-- No coordinate is negative. -/
def Orthant.Contains (x : List ℝ) : Prop := ∀ a ∈ x, 0 ≤ a

/-- The norm of the vector is at most the bound. -/
def SecondOrder.Contains : List ℝ → Prop
  | [] => False
  | t :: u => Real.sqrt (u.map (· ^ 2)).sum ≤ t

/-! ## Rays and their extent -/

/-- The point `v + t * dv` of a ray. -/
def Vec.ray (v dv : List ℝ) (t : ℝ) : List ℝ := combine t dv 1 v

@[simp] theorem Vec.ray_cons (v₀ : ℝ) (v : List ℝ) (dv₀ : ℝ) (dv : List ℝ) (t : ℝ) :
    ray (v₀ :: v) (dv₀ :: dv) t = (t * dv₀ + 1 * v₀) :: ray v dv t := rfl

theorem Vec.ray_zero {v dv : List ℝ} (h : dv.length = v.length) : ray v dv 0 = v := by
  apply List.ext_getElem (by simp [ray, h])
  intro i hi hi'
  simp [ray, getElem_combine]

/-- The point at `s` is a combination of the start and the point at `t`. -/
theorem Vec.ray_between {v dv : List ℝ} (h : dv.length = v.length) (s : ℝ) {t : ℝ} (ht : t ≠ 0) :
    ray v dv s = combine (s / t) (ray v dv t) (1 - s / t) v := by
  apply List.ext_getElem (by simp [ray, h])
  intro i hi hi'
  simp only [ray, getElem_combine, List.get_eq_getElem]
  field_simp
  ring

/-- How far a ray goes that starts in the interior.  The predicates say of `t`
whether the point `v + t * dv` is interior and whether it lies in the cone. -/
inductive Extent (interior contains : ℝ → Prop) : ℝ → Prop
  /-- The ray never meets the boundary. -/
  | stays : (∀ t, 0 ≤ t → interior t) → Extent interior contains 1
  /-- The ray meets the boundary at `a` and is outside from then on. -/
  | exits {a : ℝ} : 0 < a → (∀ t, 0 ≤ t → (interior t ↔ t < a)) →
      (∀ t, 0 ≤ t → (contains t ↔ t ≤ a)) → Extent interior contains a

namespace Extent

variable {interior contains interior' contains' : ℝ → Prop} {a : ℝ}

theorem pos (h : Extent interior contains a) : 0 < a := by
  cases h with
  | stays _ => exact one_pos
  | exits ha _ _ => exact ha

theorem interior_of_lt (h : Extent interior contains a) {t : ℝ} (ht : 0 ≤ t) (hta : t < a) :
    interior t := by
  cases h with
  | stays hstays => exact hstays t ht
  | exits _ hinterior _ => exact (hinterior t ht).mpr hta

theorem congr (h : Extent interior contains a) (hinterior : ∀ t, interior t ↔ interior' t)
    (hcontains : ∀ t, contains t ↔ contains' t) : Extent interior' contains' a := by
  obtain rfl : interior = interior' := funext fun t => propext (hinterior t)
  obtain rfl : contains = contains' := funext fun t => propext (hcontains t)
  exact h

end Extent

variable [Machine]

/-! ## The orthant -/

namespace Orthant

theorem foldl_lesser (m : ℝ) (rs : List ℝ) :
    rs.foldl lesser (some m) = some (rs.foldl min m) := by
  induction rs generalizing m with
  | nil => rfl
  | cons r rs ih => exact ih (min m r)

theorem least?_eq_min? (rs : List ℝ) : least? rs = rs.min? := by
  cases rs with
  | nil => rfl
  | cons r rs => exact foldl_lesser r rs

theorem mem_ratios {v dv : List ℝ} {r : ℝ} :
    r ∈ ratios v dv ↔ ∃ p ∈ v.zip dv, p.2 < 0 ∧ -p.1 / p.2 = r := by
  simp [ratios]

omit [Machine] in
/-- A condition on the coordinates of a point of a ray. -/
theorem forall_mem_ray {v dv : List ℝ} {t : ℝ} {P : ℝ → Prop} :
    (∀ x ∈ ray v dv t, P x) ↔ ∀ p ∈ v.zip dv, P (p.1 + t * p.2) := by
  have hray : ray v dv t = (v.zip dv).map fun p => p.1 + t * p.2 := by
    apply List.ext_getElem (by simp [ray, min_comm])
    intro i hi hi'
    simp only [ray, getElem_combine, List.get_eq_getElem, List.getElem_map, List.getElem_zip]
    ring
  rw [hray, List.forall_mem_map]

omit [Machine] in
/-- A coordinate that decreases is positive until its ratio. -/
theorem pos_iff_lt_ratio {x dx t : ℝ} (h : dx < 0) : 0 < x + t * dx ↔ t < -x / dx := by
  rw [lt_div_iff_of_neg h]
  constructor <;> intro h <;> linarith

omit [Machine] in
theorem nonneg_iff_le_ratio {x dx t : ℝ} (h : dx < 0) : 0 ≤ x + t * dx ↔ t ≤ -x / dx := by
  rw [le_div_iff_of_neg h]
  constructor <;> intro h <;> linarith

/-- The step to the boundary of the orthant is the extent of the ray. -/
theorem extent_maxStep {v dv : List ℝ} (hv : isInterior v = true) :
    Extent (fun t => isInterior (ray v dv t) = true) (fun t => Contains (ray v dv t))
      (maxStep v dv) := by
  have hpos (p : ℝ × ℝ) (hp : p ∈ v.zip dv) : 0 < p.1 :=
    isInterior_iff.mp hv _ (List.of_mem_zip hp).1
  rw [maxStep, least?_eq_min?]
  cases hleast : (ratios v dv).min? with
  | none =>
    have hnone : ratios v dv = [] := List.min?_eq_none_iff.mp hleast
    refine .stays fun t ht => isInterior_iff.mpr (forall_mem_ray.mpr fun p hp => ?_)
    have hnonneg : 0 ≤ p.2 := by
      by_contra hneg
      have hmem : -p.1 / p.2 ∈ ratios v dv := mem_ratios.mpr ⟨p, hp, not_le.mp hneg, rfl⟩
      simp [hnone] at hmem
    have := hpos p hp
    positivity
  | some a =>
    obtain ⟨hmem, hle⟩ := List.min?_eq_some_iff.mp hleast
    obtain ⟨q, hq, hqneg, rfl⟩ := mem_ratios.mp hmem
    have hgrows (p : ℝ × ℝ) (hp : p ∈ v.zip dv) (hnonneg : 0 ≤ p.2) {t : ℝ} (ht : 0 ≤ t) :
        0 < p.1 + t * p.2 := by
      have := hpos p hp
      positivity
    simp only [Scalar.isFinite_real, if_true]
    refine .exits (div_pos_of_neg_of_neg (neg_lt_zero.mpr (hpos q hq)) hqneg) ?_ ?_
    · intro t ht
      rw [isInterior_iff, forall_mem_ray]
      refine ⟨fun h => (pos_iff_lt_ratio hqneg).mp (h q hq), fun h p hp => ?_⟩
      rcases lt_or_ge p.2 0 with hneg | hnonneg
      · exact (pos_iff_lt_ratio hneg).mpr (h.trans_le (hle _ (mem_ratios.mpr ⟨p, hp, hneg, rfl⟩)))
      · exact hgrows p hp hnonneg ht
    · intro t ht
      rw [Contains, forall_mem_ray]
      refine ⟨fun h => (nonneg_iff_le_ratio hqneg).mp (h q hq), fun h p hp => ?_⟩
      rcases lt_or_ge p.2 0 with hneg | hnonneg
      · exact (nonneg_iff_le_ratio hneg).mpr (h.trans (hle _ (mem_ratios.mpr ⟨p, hp, hneg, rfl⟩)))
      · exact (hgrows p hp hnonneg ht).le

end Orthant

/-! ## The residual and its form -/

namespace SecondOrder

/-- The bilinear form that belongs to the residual. -/
noncomputable def polar : List ℝ → List ℝ → ℝ
  | x₀ :: x, y₀ :: y => x₀ * y₀ - inner x y
  | _, _ => 0

theorem sub_inner_eq_polar (v₀ dv₀ : ℝ) (v dv : List ℝ) :
    v₀ * dv₀ - inner v dv = polar (dv₀ :: dv) (v₀ :: v) := by
  rw [polar, mul_comm v₀, inner_comm]

theorem residual_combine (a b : ℝ) {x y : List ℝ} (hlen : x.length = y.length) :
    residual (combine a x b y) = a ^ 2 * residual x + 2 * a * b * polar x y + b ^ 2 * residual y := by
  cases x with
  | nil =>
    cases y with
    | nil => simp [residual, polar]
    | cons y₀ y => simp at hlen
  | cons x₀ x =>
    cases y with
    | nil => simp at hlen
    | cons y₀ y =>
      have hlen : x.length = y.length := by simpa using hlen
      rw [combine_cons, residual, residual, residual, polar, sumsq, sumsq, sumsq,
        inner_combine_left _ _ _ hlen, inner_combine_right _ _ _ hlen,
        inner_combine_right _ _ _ hlen, inner_comm y x]
      ring

/-- The residual along a ray. -/
theorem residual_ray {v dv : List ℝ} (hlen : dv.length = v.length) (t : ℝ) :
    residual (ray v dv t) = residual dv * t ^ 2 + 2 * polar dv v * t + residual v := by
  rw [ray, residual_combine t 1 hlen]
  ring

theorem contains_cons_iff {t : ℝ} {u : List ℝ} :
    Contains (t :: u) ↔ 0 ≤ t ∧ 0 ≤ residual (t :: u) := by
  have hsum : (u.map (· ^ 2)).sum = inner u u := by
    induction u with
    | nil => simp
    | cons a u ih => rw [List.map_cons, List.sum_cons, inner_cons, ih, sq]
  rw [Contains, Real.sqrt_le_iff, hsum, residual, sumsq, sub_nonneg, sq]

theorem isInterior_cons_iff {t : ℝ} {u : List ℝ} :
    isInterior (t :: u) = true ↔ 0 < t ∧ 0 < residual (t :: u) := by
  simp [isInterior]

theorem contains_of_isInterior {x : List ℝ} (h : isInterior x = true) : Contains x := by
  cases x with
  | nil => simp [isInterior] at h
  | cons t u =>
    obtain ⟨ht, hres⟩ := isInterior_cons_iff.mp h
    exact contains_cons_iff.mpr ⟨ht.le, hres.le⟩

/-- Two points whose residuals are not negative. -/
theorem abs_inner_le {t t' : ℝ} {u u' : List ℝ} (h : 0 ≤ residual (t :: u))
    (h' : 0 ≤ residual (t' :: u')) : |inner u u'| ≤ |t * t'| := by
  rw [residual, sumsq, sub_nonneg] at h h'
  rw [← sq_le_sq]
  calc inner u u' ^ 2 ≤ inner u u * inner u' u' := inner_sq_le u u'
    _ ≤ (t * t) * (t' * t') := mul_le_mul h h' (inner_self_nonneg u') (mul_self_nonneg t)
    _ = (t * t') ^ 2 := by ring

/-- Two points of the cone have a form that is not negative. -/
theorem polar_nonneg {x y : List ℝ} (hx : Contains x) (hy : Contains y) : 0 ≤ polar x y := by
  cases x with
  | nil => cases hx
  | cons x₀ x =>
    cases y with
    | nil => cases hy
    | cons y₀ y =>
      obtain ⟨hx₀, hx⟩ := contains_cons_iff.mp hx
      obtain ⟨hy₀, hy⟩ := contains_cons_iff.mp hy
      have hinner := (abs_le.mp (abs_inner_le hx hy)).2
      rw [abs_of_nonneg (mul_nonneg hx₀ hy₀)] at hinner
      exact sub_nonneg.mpr hinner

/-- The cone is convex and closed under scaling. -/
theorem contains_combine {x y : List ℝ} (hlen : x.length = y.length) (hx : Contains x)
    (hy : Contains y) {a b : ℝ} (ha : 0 ≤ a) (hb : 0 ≤ b) : Contains (combine a x b y) := by
  have hpolar := polar_nonneg hx hy
  have hres := residual_combine a b hlen
  cases x with
  | nil => cases hx
  | cons x₀ x =>
    cases y with
    | nil => cases hy
    | cons y₀ y =>
      obtain ⟨hx₀, hx⟩ := contains_cons_iff.mp hx
      obtain ⟨hy₀, hy⟩ := contains_cons_iff.mp hy
      rw [combine_cons] at hres ⊢
      refine contains_cons_iff.mpr ⟨by positivity, ?_⟩
      rw [hres]
      positivity

/-- A combination with an interior point is interior. -/
theorem isInterior_combine {x y : List ℝ} (hlen : x.length = y.length) (hx : Contains x)
    (hy : isInterior y = true) {a b : ℝ} (ha : 0 ≤ a) (hb : 0 < b) :
    isInterior (combine a x b y) = true := by
  have hpolar := polar_nonneg hx (contains_of_isInterior hy)
  have hres := residual_combine a b hlen
  cases x with
  | nil => cases hx
  | cons x₀ x =>
    cases y with
    | nil => simp [isInterior] at hy
    | cons y₀ y =>
      obtain ⟨hx₀, hx⟩ := contains_cons_iff.mp hx
      obtain ⟨hy₀, hy⟩ := isInterior_cons_iff.mp hy
      rw [combine_cons] at hres ⊢
      refine isInterior_cons_iff.mpr ⟨by positivity, ?_⟩
      rw [hres]
      positivity

/-! ## The first root -/

/-- The nearer of two roots is the least one that lies ahead. -/
theorem nearer_ahead {r r' : ℝ} (h : 0 ≤ r ∨ 0 ≤ r') :
    ∃ m, nearer (ahead r) (ahead r') = some m ∧ 0 ≤ m ∧ (m = r ∨ m = r') ∧
      (0 ≤ r → m ≤ r) ∧ (0 ≤ r' → m ≤ r') := by
  have hnone {r : ℝ} (h : r < 0) : ahead r = none := by simp [ahead, h]
  have hsome {r : ℝ} (h : 0 ≤ r) : ahead r = some r := by simp [ahead, h]
  rcases lt_or_ge r 0 with hr | hr
  · have hr' : 0 ≤ r' := h.resolve_left hr.not_ge
    rw [hnone hr, hsome hr']
    exact ⟨r', rfl, hr', .inr rfl, fun h => absurd hr h.not_gt, fun _ => le_rfl⟩
  · rcases lt_or_ge r' 0 with hr' | hr'
    · rw [hsome hr, hnone hr']
      exact ⟨r, rfl, hr, .inl rfl, fun _ => le_rfl, fun h => absurd hr' h.not_gt⟩
    · rw [hsome hr, hsome hr']
      exact ⟨min r r', rfl, le_min hr hr', min_choice r r', fun _ => min_le_left r r',
        fun _ => min_le_right r r'⟩

omit [Machine] in
/-- A positive number before the root `r`, if that lies ahead, is on the same
side of it as zero. -/
theorem same_side {r t : ℝ} (hr : r ≠ 0) (ht : 0 < t) (h : 0 ≤ r → t < r) :
    0 < (t - r) * (0 - r) := by
  rcases lt_or_gt_of_ne hr with hneg | hpos
  · exact mul_pos (by linarith) (by linarith)
  · exact mul_pos_of_neg_of_neg (by linarith [h hpos.le]) (by linarith)

/-- The sum `q` that the two roots `2 * c / q` and `q / (2 * a)` are computed from.  One of
them lies ahead. -/
theorem exists_sum_of_roots {a b c : ℝ} (ha : a ≠ 0) (hc : 0 < c) (hd : 0 ≤ b * b - 4 * a * c)
    (hahead : ¬(0 < a ∧ 0 < b)) :
    ∃ q, q ≠ 0 ∧ q ^ 2 + 2 * b * q + 4 * a * c = 0 ∧ (0 ≤ 2 * c / q ∨ 0 ≤ q / (2 * a)) ∧
      ∀ m, nearer (ahead (2 * c / q)) (ahead (q / (2 * a))) = some m →
        firstRoot a b c (b * b - 4 * a * c) = m := by
  obtain ⟨q, hsq, hside, hfirst⟩ : ∃ q, (q + b) ^ 2 = b * b - 4 * a * c ∧ (0 < q ∨ a < 0) ∧
      ∀ m, nearer (ahead (2 * c / q)) (ahead (q / (2 * a))) = some m →
        firstRoot a b c (b * b - 4 * a * c) = m := by
    refine ⟨if 0 ≤ b then -b - Real.sqrt (b * b - 4 * a * c)
      else -b + Real.sqrt (b * b - 4 * a * c), ?_, ?_, ?_⟩
    · have hsq := Real.sq_sqrt hd
      split <;> linear_combination hsq
    · rcases lt_or_gt_of_ne ha with hneg | hpos
      · exact .inr hneg
      · -- the linear term is negative, since the discriminant of `a * t ^ 2 + c` is
        have hb : b < 0 := by
          refine lt_of_le_of_ne (not_lt.mp fun h => hahead ⟨hpos, h⟩) ?_
          rintro rfl
          linarith [mul_pos hpos hc]
        rw [if_neg hb.not_ge]
        exact .inl (by linarith [Real.sqrt_nonneg (b * b - 4 * a * c)])
    · intro m hm
      simp only [firstRoot, Scalar.two_real, Scalar.sqrt_real, hm, Scalar.isFinite_real, if_true]
  have hquadratic : q ^ 2 + 2 * b * q + 4 * a * c = 0 := by linear_combination hsq
  have hq : q ≠ 0 := by
    rintro rfl
    have hzero : a * c = 0 := by linear_combination hquadratic / 4
    exact mul_ne_zero ha hc.ne' hzero
  refine ⟨q, hq, hquadratic, ?_, hfirst⟩
  rcases lt_or_gt_of_ne hq with hneg | hpos
  · have ha : a < 0 := hside.resolve_left hneg.not_gt
    exact .inr (div_nonneg_of_nonpos hneg.le (by linarith))
  · exact .inl (by positivity)

omit [Machine] in
/-- A quadratic that is positive at zero is positive up to the first of its two roots. -/
theorem quadratic_pos {a b c q t : ℝ} (ha : a ≠ 0) (hc : 0 < c) (hq : q ≠ 0)
    (hquadratic : q ^ 2 + 2 * b * q + 4 * a * c = 0) (ht : 0 < t)
    (hfirst : 0 ≤ 2 * c / q → t < 2 * c / q) (hsecond : 0 ≤ q / (2 * a) → t < q / (2 * a)) :
    0 < a * t ^ 2 + b * t + c := by
  have hside := same_side (div_ne_zero (mul_ne_zero two_ne_zero hc.ne') hq) ht hfirst
  have hside' := same_side (div_ne_zero hq (mul_ne_zero two_ne_zero ha)) ht hsecond
  -- the product of the two roots is `c / a`, and their sum is `-b / a`
  have hfactor : (a * t ^ 2 + b * t + c) * c = a ^ 2 *
      (((t - 2 * c / q) * (0 - 2 * c / q)) * ((t - q / (2 * a)) * (0 - q / (2 * a)))) := by
    field_simp
    linear_combination (2 * c * t * q) * hquadratic
  have hpos : 0 < (a * t ^ 2 + b * t + c) * c := by
    rw [hfactor]
    exact mul_pos (pow_pos (abs_pos.mpr ha) 2 |>.trans_eq (sq_abs a)) (mul_pos hside hside')
  exact (pos_iff_pos_of_mul_pos hpos).mpr hc

/-- A quadratic that is positive at zero and has a root ahead is positive up to
`firstRoot` and vanishes there. -/
theorem firstRoot_spec {a b c : ℝ} (ha : a ≠ 0) (hc : 0 < c) (hd : 0 ≤ b * b - 4 * a * c)
    (hahead : ¬(0 < a ∧ 0 < b)) {r : ℝ} (hr : firstRoot a b c (b * b - 4 * a * c) = r) :
    0 < r ∧ a * r ^ 2 + b * r + c = 0 ∧ ∀ t, 0 < t → t < r → 0 < a * t ^ 2 + b * t + c := by
  obtain ⟨q, hq, hquadratic, hroots, hfirst⟩ := exists_sum_of_roots ha hc hd hahead
  obtain ⟨m, hm, hnonneg, hroot, hle, hle'⟩ := nearer_ahead hroots
  obtain rfl : m = r := (hfirst m hm).symm.trans hr
  have hzero : a * m ^ 2 + b * m + c = 0 := by
    rcases hroot with rfl | rfl
    · field_simp
      linear_combination c * hquadratic
    · field_simp
      linear_combination hquadratic
  have hne : m ≠ 0 := by
    rintro rfl
    exact hc.ne' (by linear_combination hzero)
  refine ⟨lt_of_le_of_ne hnonneg hne.symm, hzero, fun t ht htm => ?_⟩
  exact quadratic_pos ha hc hq hquadratic ht (fun h => htm.trans_le (hle h))
    fun h => htm.trans_le (hle' h)

/-! ## The extent of a ray -/

/-- As long as the residual is positive, the bound does not become negative. -/
theorem bound_nonneg {v₀ dv₀ : ℝ} {v dv : List ℝ} (hv : 0 < v₀) {t : ℝ} (ht : 0 ≤ t)
    (h : ∀ s, 0 < s → s < t → 0 < residual (ray (v₀ :: v) (dv₀ :: dv) s)) :
    0 ≤ t * dv₀ + 1 * v₀ := by
  by_contra hneg
  -- the ray would have the bound zero at `s`
  have hdecreases : dv₀ < 0 := by
    by_contra hnonneg
    have := mul_nonneg ht (not_lt.mp hnonneg)
    linarith
  have hs : 0 < -v₀ / dv₀ := div_pos_of_neg_of_neg (neg_lt_zero.mpr hv) hdecreases
  have hst : -v₀ / dv₀ < t := by
    rw [div_lt_iff_of_neg hdecreases]
    linarith
  have hzero : -v₀ / dv₀ * dv₀ + 1 * v₀ = 0 := by
    rw [div_mul_cancel₀ _ hdecreases.ne]
    ring
  have hbad := h _ hs hst
  rw [ray_cons, hzero, residual, sumsq] at hbad
  linarith [inner_self_nonneg (ray v dv (-v₀ / dv₀))]

/-- A point whose bound is not negative is interior if its residual is positive. -/
theorem isInterior_iff_residual_pos {t : ℝ} {u : List ℝ} (ht : 0 ≤ t) :
    isInterior (t :: u) = true ↔ 0 < residual (t :: u) := by
  rw [isInterior_cons_iff]
  refine ⟨fun h => h.2, fun h => ⟨lt_of_le_of_ne ht ?_, h⟩⟩
  rintro rfl
  rw [residual, sumsq] at h
  linarith [inner_self_nonneg u]

/-- What the step of an interior point is: one if the residual has no root ahead,
and the first root otherwise. -/
theorem maxStep_cases {v₀ : ℝ} (dv₀ : ℝ) {v dv : List ℝ} (hv : v ≠ [])
    (hlen : dv.length = v.length) (hint : isInterior (v₀ :: v) = true) :
    (maxStep (v₀ :: v) (dv₀ :: dv) = 1 ∧
      ∀ t, 0 < t → 0 < residual (ray (v₀ :: v) (dv₀ :: dv) t)) ∨
    (0 < maxStep (v₀ :: v) (dv₀ :: dv) ∧
      residual (ray (v₀ :: v) (dv₀ :: dv) (maxStep (v₀ :: v) (dv₀ :: dv))) = 0 ∧
      ∀ t, 0 < t → t < maxStep (v₀ :: v) (dv₀ :: dv) →
        0 < residual (ray (v₀ :: v) (dv₀ :: dv) t)) := by
  obtain ⟨v₁, vs, rfl⟩ := List.exists_cons_of_ne_nil hv
  obtain ⟨hpos, hres⟩ := isInterior_cons_iff.mp hint
  have hlen' : (dv₀ :: dv).length = (v₀ :: v₁ :: vs).length := by simpa using hlen
  have hray := residual_ray hlen'
  simp only [hray]
  rw [maxStep]
  simp only [Scalar.two_real, Scalar.four_real, sub_inner_eq_polar]
  set a := residual (dv₀ :: dv)
  set b := 2 * polar (dv₀ :: dv) (v₀ :: v₁ :: vs)
  set c := residual (v₀ :: v₁ :: vs)
  rw [if_neg (by simp [hres.le, hpos.le])]
  split
  next hgrows =>
    refine .inl ⟨rfl, fun t ht => ?_⟩
    rcases hgrows with ⟨ha, hb⟩ | hd
    · positivity
    · -- without a real root the sign never changes
      have hsquare : 4 * c * (a * t ^ 2 + b * t + c) =
          (2 * c + b * t) ^ 2 + t ^ 2 * (4 * a * c - b * b) := by ring
      have hdisc : 0 < t ^ 2 * (4 * a * c - b * b) := mul_pos (pow_pos ht 2) (by linarith)
      have hprod : 0 < 4 * c * (a * t ^ 2 + b * t + c) := by
        rw [hsquare]
        exact add_pos_of_nonneg_of_pos (sq_nonneg _) hdisc
      exact (pos_iff_pos_of_mul_pos hprod).mp (by positivity)
  next hgrows =>
    obtain ⟨hgrows, hd⟩ := not_or.mp hgrows
    split
    next ha =>
      have ha : a = 0 := by simpa using ha
      simp only [ha, zero_mul, zero_add]
      split
      next hb =>
        refine .inr ⟨div_pos_of_neg_of_neg (neg_lt_zero.mpr hres) hb, ?_, fun t ht hlt => ?_⟩
        · rw [mul_div_cancel₀ _ hb.ne]
          ring
        · rw [lt_div_iff_of_neg hb] at hlt
          linarith
      next hb =>
        refine .inl ⟨rfl, fun t ht => ?_⟩
        have := mul_nonneg (not_lt.mp hb) ht.le
        linarith
    next ha =>
      have ha : a ≠ 0 := by simpa using ha
      rw [if_neg (by simpa using hres.ne')]
      exact .inr (firstRoot_spec ha hres (not_lt.mp hd) hgrows rfl)

/-- The points of a ray before a point of the cone are interior. -/
theorem isInterior_ray {v dv : List ℝ} (hlen : dv.length = v.length) (hv : isInterior v = true)
    {s t : ℝ} (hs : 0 ≤ s) (hst : s < t) (ht : Contains (ray v dv t)) :
    isInterior (ray v dv s) = true := by
  have hpos := hs.trans_lt hst
  rw [ray_between hlen s hpos.ne']
  exact isInterior_combine (by simp [ray, hlen]) ht hv (by positivity)
    (sub_pos.mpr ((div_lt_one hpos).mpr hst))

/-- A ray from the interior that meets the boundary leaves the cone there. -/
theorem extent_of_boundary {v dv : List ℝ} (hlen : dv.length = v.length)
    (hv : isInterior v = true) {a : ℝ} (ha : 0 < a) (hend : Contains (ray v dv a))
    (hnot : isInterior (ray v dv a) ≠ true) :
    Extent (fun t => isInterior (ray v dv t) = true) (fun t => Contains (ray v dv t)) a := by
  have hbeyond {t : ℝ} (ht : Contains (ray v dv t)) : t ≤ a :=
    not_lt.mp fun hlt => hnot (isInterior_ray hlen hv ha.le hlt ht)
  refine .exits ha (fun t ht => ⟨fun h => ?_, fun h => isInterior_ray hlen hv ht h hend⟩)
    fun t ht => ⟨hbeyond, fun h => ?_⟩
  · refine lt_of_le_of_ne (hbeyond (contains_of_isInterior h)) ?_
    rintro rfl
    exact hnot h
  · rcases h.lt_or_eq with hlt | rfl
    · exact contains_of_isInterior (isInterior_ray hlen hv ht hlt hend)
    · exact hend

/-- A bound alone is a coordinate of the orthant. -/
theorem extent_bound {v₀ : ℝ} (hv : 0 < v₀) (dv₀ : ℝ) :
    Extent (fun t => isInterior (ray [v₀] [dv₀] t) = true)
      (fun t => Contains (ray [v₀] [dv₀] t)) (maxStep [v₀] [dv₀]) := by
  have hpoint : Orthant.isInterior [v₀] = true := Orthant.isInterior_iff.mpr (by simpa using hv)
  have hstep : Extent _ _ (Orthant.maxStep [v₀] [dv₀]) := Orthant.extent_maxStep hpoint
  have hres (x : ℝ) : residual [x] = x * x := by
    rw [residual, sumsq, inner_nil_left, sub_zero]
  refine hstep.congr (fun t => ?_) fun t => ?_
  · rw [ray_cons, ray, combine_nil_left, isInterior_cons_iff, hres, Orthant.isInterior_iff,
      List.forall_mem_singleton]
    exact ⟨fun h => ⟨h, mul_pos h h⟩, fun h => h.1⟩
  · rw [ray_cons, ray, combine_nil_left, contains_cons_iff, hres, Orthant.Contains,
      List.forall_mem_singleton]
    exact ⟨fun h => ⟨h, mul_nonneg h h⟩, fun h => h.1⟩

/-- The step to the boundary of a second-order cone is the extent of the ray. -/
theorem extent_maxStep {v dv : List ℝ} (hlen : dv.length = v.length)
    (hv : isInterior v = true) :
    Extent (fun t => isInterior (ray v dv t) = true) (fun t => Contains (ray v dv t))
      (maxStep v dv) := by
  cases v with
  | nil => simp [isInterior] at hv
  | cons v₀ v =>
    cases dv with
    | nil => simp at hlen
    | cons dv₀ dv =>
      have hlen' : dv.length = v.length := by simpa using hlen
      have hpos := (isInterior_cons_iff.mp hv).1
      rcases eq_or_ne v [] with rfl | hne
      · obtain rfl : dv = [] := List.length_eq_zero_iff.mp hlen'
        exact extent_bound hpos dv₀
      · rcases maxStep_cases dv₀ hne hlen' hv with ⟨hone, hstays⟩ | ⟨ha, hroot, hbefore⟩
        · rw [hone]
          refine .stays fun t ht => isInterior_ray hlen hv ht (lt_add_one t) ?_
          have hbound := bound_nonneg hpos (by positivity : 0 ≤ t + 1) fun s hs _ => hstays s hs
          exact contains_cons_iff.mpr ⟨hbound, (hstays (t + 1) (by positivity)).le⟩
        · refine extent_of_boundary hlen hv ha ?_ fun h => (isInterior_cons_iff.mp h).2.ne' hroot
          exact contains_cons_iff.mpr ⟨bound_nonneg hpos ha.le hbefore, hroot.ge⟩

end SecondOrder

end Conic
