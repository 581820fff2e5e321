import Conic.Cone.SecondOrder
import Conic.Proofs.Exact.Vectors

/-!
# The second-order cone in exact arithmetic

A product with `Θ` or with `Θ⁻¹` is a *boost* along the bounded part of the
scaling point (`SecondOrder.boost`).  Boosts are linear and symmetric, the boost
along the opposite direction is the inverse, and a boost taken twice is the
quadratic form `η²(2wwᵀ - Q)`, all of this for a scaling point `w` of residual
one.

`SecondOrder.IsScaling` says that the cone is scaled at a pair of points, and
`SecondOrder.isScaling_updateScaling` that the update does that for interior
points.  The point of the scaling satisfies `Θ²s = x`.

The Jordan product with an interior point is undone by `SecondOrder.invCirc`
(`SecondOrder.invCirc_circ`), and undoes it (`SecondOrder.circ_invCirc`).
-/

namespace Conic.SecondOrder

open Vec

variable [Machine]

/-! ## Boosts -/

/-- The boost along `ε * w₁` with the bound `w₀`, times `η`.  The sign `ε` is the
direction. -/
noncomputable def boost (η ε w₀ : ℝ) (w₁ : List ℝ) : List ℝ → List ℝ
  | [] => []
  | v₀ :: v₁ => η * (w₀ * v₀ + ε * inner w₁ v₁) ::
      combine η v₁ (η * (v₀ + ε * inner w₁ v₁ / (1 + w₀)) * ε) w₁

theorem length_boost (η ε w₀ : ℝ) {w₁ v : List ℝ} (h : v.length = w₁.length + 1) :
    (boost η ε w₀ w₁ v).length = v.length := by
  cases v with
  | nil => rfl
  | cons v₀ v₁ =>
    have hlen : v₁.length = w₁.length := by simpa using h
    simp [boost, hlen]

theorem boost_combine (η ε w₀ : ℝ) {w₁ u v : List ℝ} (hu : u.length = w₁.length + 1)
    (hv : v.length = w₁.length + 1) (a b : ℝ) :
    boost η ε w₀ w₁ (combine a u b v) =
      combine a (boost η ε w₀ w₁ u) b (boost η ε w₀ w₁ v) := by
  cases u with
  | nil => simp at hu
  | cons u₀ u₁ =>
    cases v with
    | nil => simp at hv
    | cons v₀ v₁ =>
      have hlen : u₁.length = v₁.length := by simp at hu hv; omega
      simp only [boost, combine_cons, inner_combine_right a b w₁ hlen, combine_combine_combine]
      congr 1
      · ring
      · congr 1
        ring

/-- Boosts are symmetric. -/
theorem inner_boost (η ε w₀ : ℝ) {w₁ u v : List ℝ} (hu : u.length = w₁.length + 1)
    (hv : v.length = w₁.length + 1) :
    inner (boost η ε w₀ w₁ u) v = inner u (boost η ε w₀ w₁ v) := by
  cases u with
  | nil => simp at hu
  | cons u₀ u₁ =>
    cases v with
    | nil => simp at hv
    | cons v₀ v₁ =>
      have hu₁ : u₁.length = w₁.length := by simpa using hu
      have hv₁ : v₁.length = w₁.length := by simpa using hv
      simp only [boost, inner_cons, inner_combine_left _ _ v₁ hu₁, inner_combine_right _ _ u₁ hv₁]
      rw [inner_comm u₁ w₁]
      ring

/-- The scaling point has residual one and a positive bound. -/
def OnHyperboloid (w₀ : ℝ) (w₁ : List ℝ) : Prop := 0 < w₀ ∧ w₀ * w₀ - inner w₁ w₁ = 1

section

variable {w₀ : ℝ} {w₁ : List ℝ} (hw : OnHyperboloid w₀ w₁)

include hw

/-- A boost taken twice. -/
theorem boost_boost (η v₀ : ℝ) {v₁ : List ℝ} (hv : v₁.length = w₁.length) :
    boost η 1 w₀ w₁ (boost η 1 w₀ w₁ (v₀ :: v₁)) =
      (η * η * (2 * w₀ * (w₀ * v₀ + inner w₁ v₁) - v₀)) ::
        combine (η * η) v₁ (η * η * (2 * (w₀ * v₀ + inner w₁ v₁))) w₁ := by
  obtain ⟨hpos, hres⟩ := hw
  have hne : 1 + w₀ ≠ 0 := by positivity
  have hself : inner w₁ w₁ = w₀ * w₀ - 1 := by linarith
  simp only [boost, inner_combine_right _ _ w₁ hv, combine_combine_same, hself]
  congr 1
  · field_simp
    ring
  · congr 1
    field_simp
    ring

/-- The boost in the opposite direction is the inverse. -/
theorem boost_boost_neg {η η' ε : ℝ} (hη : η * η' = 1) (hε : ε * ε = 1) {v : List ℝ}
    (hv : v.length = w₁.length + 1) : boost η ε w₀ w₁ (boost η' (-ε) w₀ w₁ v) = v := by
  obtain ⟨hpos, hres⟩ := hw
  have hne : 1 + w₀ ≠ 0 := by positivity
  have hself : inner w₁ w₁ = w₀ * w₀ - 1 := by linarith
  cases v with
  | nil => rfl
  | cons v₀ v₁ =>
    have hlen : v₁.length = w₁.length := by simpa using hv
    set c := v₀ - ε * inner w₁ v₁ / (1 + w₀) with hc
    -- the two steps cancel in the bound, and so do their multiples of `w₁`
    have hfirst : w₀ * (w₀ * v₀ - ε * inner w₁ v₁) +
        ε * (inner w₁ v₁ - c * ε * (w₀ * w₀ - 1)) = v₀ := by
      have hcancel : inner w₁ v₁ / (1 + w₀) * (w₀ * w₀ - 1) = inner w₁ v₁ * (w₀ - 1) := by
        field_simp
        ring
      linear_combination c * (1 - w₀ * w₀) * hε + (1 - w₀ * w₀) * hc + ε * hcancel
    have hsecond : w₀ * v₀ - ε * inner w₁ v₁ +
        ε * (inner w₁ v₁ - c * ε * (w₀ * w₀ - 1)) / (1 + w₀) = c := by
      rw [show ε * (inner w₁ v₁ - c * ε * (w₀ * w₀ - 1)) =
        v₀ - w₀ * (w₀ * v₀ - ε * inner w₁ v₁) by linarith, hc]
      field_simp
      ring
    have hback : boost η' (-ε) w₀ w₁ (v₀ :: v₁) =
        η' * (w₀ * v₀ - ε * inner w₁ v₁) :: combine η' v₁ (-(η' * c * ε)) w₁ := by
      simp only [boost, hc]
      congr 1
      · ring
      · congr 1
        ring
    rw [hback, boost, inner_combine_right _ _ w₁ hlen, combine_combine_same, hself, hη]
    have hbound : η * (w₀ * (η' * (w₀ * v₀ - ε * inner w₁ v₁)) +
        ε * (η' * inner w₁ v₁ + -(η' * c * ε) * (w₀ * w₀ - 1))) = v₀ := by
      linear_combination (w₀ * (w₀ * v₀ - ε * inner w₁ v₁) +
        ε * (inner w₁ v₁ - c * ε * (w₀ * w₀ - 1))) * hη + hfirst
    have htail : η * -(η' * c * ε) + η * (η' * (w₀ * v₀ - ε * inner w₁ v₁) +
        ε * (η' * inner w₁ v₁ + -(η' * c * ε) * (w₀ * w₀ - 1)) / (1 + w₀)) * ε = 0 := by
      linear_combination η * η' * ε * hsecond
    rw [hbound, htail, combine_one_zero hlen]

end

/-! ## The products with the scaling -/

section

variable {K : SecondOrder ℝ} {w₀ : ℝ} {w₁ : List ℝ} (hw : K.w = w₀ :: w₁)

include hw

theorem mulTheta_eq (v : List ℝ) : K.mulTheta v = boost K.eta 1 w₀ w₁ v := by
  cases v with
  | nil => simp only [mulTheta, hw, boost]
  | cons v₀ v₁ =>
    simp only [mulTheta, hw, boost, combine, one_mul, mul_one]
    congr 2
    funext v w
    ring

omit hw in
/-- The inner product with the reflected bounded part. -/
theorem foldl_reflected (w₁ v₁ : List ℝ) :
    (List.zipWith (fun p v => p.1 * p.2 * v) (w₁.zip (List.replicate w₁.length (-1))) v₁).foldl
      (· + ·) (0 : ℝ) = -inner w₁ v₁ := by
  rw [foldl_add_eq, zero_add]
  induction w₁ generalizing v₁ with
  | nil => simp
  | cons w w₁ ih =>
    cases v₁ with
    | nil => simp
    | cons v v₁ =>
      rw [List.length_cons, List.replicate_succ, List.zip_cons_cons, List.zipWith_cons_cons,
        List.sum_cons, ih, inner_cons]
      ring

omit [Machine] hw in
/-- A list that is zipped with a constant one. -/
theorem zipWith_zip_replicate (f : ℝ × ℝ → ℝ → ℝ) (w₁ : List ℝ) (c : ℝ) (v₁ : List ℝ) :
    List.zipWith f (w₁.zip (List.replicate w₁.length c)) v₁ =
      List.zipWith (fun v w => f (w, c) v) v₁ w₁ := by
  apply List.ext_getElem (by simp [min_comm])
  intro i hi hi'
  simp

theorem mulThetaInv_eq (hq : K.q = reflection (w₁.length + 1)) (v : List ℝ) :
    K.mulThetaInv v = boost (1 / K.eta) (-1) w₀ w₁ v := by
  have hq' : K.q = 1 :: List.replicate w₁.length (-1) := by
    rw [hq, reflection]
    simp
  cases v with
  | nil => simp only [mulThetaInv, hw, hq', boost]
  | cons v₀ v₁ =>
    simp only [mulThetaInv, hw, hq', foldl_reflected]
    simp only [zipWith_zip_replicate, boost, combine]
    congr 1
    · ring
    · congr 1
      funext v w
      ring

theorem mulThetaSq_eq (hq : K.q = reflection (w₁.length + 1)) (v₀ : ℝ) (v₁ : List ℝ) :
    K.mulThetaSq (v₀ :: v₁) =
      (K.eta * K.eta * (2 * w₀ * (w₀ * v₀ + inner w₁ v₁) - v₀)) ::
        combine (K.eta * K.eta) v₁ (K.eta * K.eta * (2 * (w₀ * v₀ + inner w₁ v₁))) w₁ := by
  have hq' : K.q = 1 :: List.replicate w₁.length (-1) := by
    rw [hq, reflection]
    simp
  rw [mulThetaSq, hw, hq']
  simp only [Scalar.two_real, inner_cons, List.zip_cons_cons, List.zipWith_cons_cons,
    zipWith_zip_replicate, combine, one_mul]
  congr 2
  funext v w
  ring

end

/-! ## Interior points -/

theorem isInterior_iff {x : List ℝ} :
    isInterior x = true ↔ ∃ t u, x = t :: u ∧ 0 < t ∧ 0 < t * t - inner u u := by
  cases x with
  | nil => simp [isInterior]
  | cons t u => simp [isInterior, residual, sumsq]

/-- Two interior points have a positive inner product. -/
theorem abs_inner_lt {t t' : ℝ} {u u' : List ℝ} (ht : 0 < t) (hu : 0 < t * t - inner u u)
    (ht' : 0 < t') (hu' : 0 < t' * t' - inner u' u') : |inner u u'| < t * t' := by
  have hcs := inner_sq_le u u'
  have hnonneg := inner_self_nonneg u
  have hnonneg' := inner_self_nonneg u'
  refine abs_lt_of_sq_lt_sq ?_ (by positivity)
  calc inner u u' ^ 2 ≤ inner u u * inner u' u' := hcs
    _ < (t * t) * (t' * t') := mul_lt_mul'' (by linarith) (by linarith) hnonneg hnonneg'
    _ = (t * t') ^ 2 := by ring

/-! ## The scaling at a pair of points -/

/-- The cone is scaled at a pair of interior points. -/
structure IsScaling (K : SecondOrder ℝ) (x s : List ℝ) : Prop where
  /-- The scaling point has residual one. -/
  point : ∃ w₀ w₁, K.w = w₀ :: w₁ ∧ OnHyperboloid w₀ w₁
  /-- The diagonal of the reflection. -/
  reflection : K.q = reflection K.w.length
  /-- The factor is positive. -/
  eta : 0 < K.eta
  /-- The points have the dimension of the cone. -/
  length : x.length = K.numel ∧ s.length = K.numel
  /-- The first point is interior. -/
  interior : isInterior x = true
  /-- The scaling takes the second point to the first one. -/
  thetaSq : K.mulThetaSq s = x

omit [Machine] in
theorem zipWith_zip_reflected (f : ℝ × ℝ → ℝ → ℝ) {x s : List ℝ} (h : x.length = s.length) (c : ℝ) :
    List.zipWith f (x.zip s) (List.replicate x.length c) =
      List.zipWith (fun x s => f (x, s) c) x s := by
  apply List.ext_getElem (by simp [h])
  intro i hi hi'
  simp

/-- The numbers that an update computes: the sizes `X` and `S` of the points,
their inner product `p` and the factor `γ`. -/
structure Sizes (x₀ : ℝ) (x₁ : List ℝ) (s₀ : ℝ) (s₁ : List ℝ) (X S γ : ℝ) : Prop where
  /-- The sizes are positive. -/
  pos : 0 < X ∧ 0 < S ∧ 0 < γ
  /-- The size of the first point. -/
  first : X * X = x₀ * x₀ - inner x₁ x₁
  /-- The size of the second point. -/
  second : S * S = s₀ * s₀ - inner s₁ s₁
  /-- The factor. -/
  factor : 2 * (γ * γ) * (X * S) = X * S + (x₀ * s₀ + inner x₁ s₁)

section

variable {x₀ s₀ X S γ : ℝ} {x₁ s₁ : List ℝ} (h : Sizes x₀ x₁ s₀ s₁ X S γ)
  (hlen : x₁.length = s₁.length)

include h hlen

/-- The scaling point is on the hyperboloid. -/
theorem Sizes.onHyperboloid (hx₀ : 0 < x₀) (hs₀ : 0 < s₀) :
    OnHyperboloid (x₀ / (2 * X * γ) + s₀ / (2 * S * γ))
      (combine (1 / (2 * X * γ)) x₁ (-(1 / (2 * S * γ))) s₁) := by
  obtain ⟨⟨hX, hS, hγ⟩, hfirst, hsecond, hfactor⟩ := h
  refine ⟨by positivity, ?_⟩
  rw [inner_combine_left _ _ _ hlen, inner_combine_right _ _ _ hlen, inner_combine_right _ _ _ hlen,
    inner_comm s₁ x₁]
  have hxx : inner x₁ x₁ = x₀ * x₀ - X * X := by linarith
  have hss : inner s₁ s₁ = s₀ * s₀ - S * S := by linarith
  have hxs : inner x₁ s₁ = 2 * (γ * γ) * (X * S) - X * S - x₀ * s₀ := by linarith
  rw [hxx, hss, hxs]
  field_simp
  ring

theorem Sizes.inner_point : (x₀ / (2 * X * γ) + s₀ / (2 * S * γ)) * s₀ +
    inner (combine (1 / (2 * X * γ)) x₁ (-(1 / (2 * S * γ))) s₁) s₁ = S * γ := by
  obtain ⟨⟨hX, hS, hγ⟩, -, hsecond, hfactor⟩ := h
  rw [inner_combine_left _ _ _ hlen]
  have hss : inner s₁ s₁ = s₀ * s₀ - S * S := by linarith
  have hxs : inner x₁ s₁ = 2 * (γ * γ) * (X * S) - X * S - x₀ * s₀ := by linarith
  rw [hss, hxs]
  field_simp
  ring

/-- The scaling that the sizes give. -/
theorem Sizes.isScaling (hx₀ : 0 < x₀) (hs₀ : 0 < s₀) : IsScaling
    ⟨(x₀ / (2 * X * γ) + s₀ / (2 * S * γ)) ::
        combine (1 / (2 * X * γ)) x₁ (-(1 / (2 * S * γ))) s₁,
      Real.sqrt (X / S), 1 :: List.replicate x₁.length (-1)⟩ (x₀ :: x₁) (s₀ :: s₁) := by
  have hpoint := h.onHyperboloid hlen hx₀ hs₀
  have hinner := h.inner_point hlen
  obtain ⟨⟨hX, hS, hγ⟩, hfirst, hsecond, hfactor⟩ := h
  have hη : Real.sqrt (X / S) * Real.sqrt (X / S) = X / S :=
    Real.mul_self_sqrt (div_pos hX hS).le
  have hq : (1 :: List.replicate x₁.length (-1) : List ℝ) =
      SecondOrder.reflection ((combine (1 / (2 * X * γ)) x₁ (-(1 / (2 * S * γ))) s₁).length + 1) := by
    simp [SecondOrder.reflection, hlen]
  refine ⟨⟨_, _, rfl, hpoint⟩, ?_, Real.sqrt_pos.mpr (div_pos hX hS), ?_, ?_, ?_⟩
  · exact hq
  · simp [numel, hlen]
  · exact isInterior_iff.mpr ⟨x₀, x₁, rfl, hx₀, hfirst ▸ mul_pos hX hX⟩
  · rw [mulThetaSq_eq rfl hq, hinner, hη]
    congr 1
    · field_simp
      ring
    · apply List.ext_getElem (by simp [hlen])
      intro i hi hi'
      simp only [getElem_combine, List.get_eq_getElem]
      field_simp
      ring

end

theorem exists_sizes {x₀ s₀ : ℝ} {x₁ s₁ : List ℝ} (hx₀ : 0 < x₀) (hx : 0 < x₀ * x₀ - inner x₁ x₁)
    (hs₀ : 0 < s₀) (hs : 0 < s₀ * s₀ - inner s₁ s₁) :
    Sizes x₀ x₁ s₀ s₁ (Real.sqrt (x₀ * x₀ - inner x₁ x₁)) (Real.sqrt (s₀ * s₀ - inner s₁ s₁))
      (Real.sqrt ((1 + (x₀ * s₀ + inner x₁ s₁) / (Real.sqrt (x₀ * x₀ - inner x₁ x₁) *
        Real.sqrt (s₀ * s₀ - inner s₁ s₁))) * (1 / 2))) := by
  have hX := Real.sqrt_pos.mpr hx
  have hS := Real.sqrt_pos.mpr hs
  have hp : 0 < x₀ * s₀ + inner x₁ s₁ := by
    have := (abs_lt.mp (abs_inner_lt hx₀ hx hs₀ hs)).1
    linarith
  set X := Real.sqrt (x₀ * x₀ - inner x₁ x₁) with hXdef
  set S := Real.sqrt (s₀ * s₀ - inner s₁ s₁) with hSdef
  have harg : 0 < (1 + (x₀ * s₀ + inner x₁ s₁) / (X * S)) * (1 / 2) := by positivity
  refine ⟨⟨hX, hS, Real.sqrt_pos.mpr harg⟩, Real.mul_self_sqrt hx.le, Real.mul_self_sqrt hs.le, ?_⟩
  rw [Real.mul_self_sqrt harg.le]
  field_simp

/-- The update scales the cone at interior points. -/
theorem isScaling_updateScaling {K : SecondOrder ℝ} {x s : List ℝ} (hx : x.length = K.numel)
    (hs : s.length = K.numel) (h : (K.updateScaling x s (reflection K.numel)).1 = true) :
    IsScaling (K.updateScaling x s (reflection K.numel)).2 x s := by
  rw [updateScaling] at h ⊢
  split at h
  next hint =>
    rw [if_pos hint]
    obtain ⟨hxint, hsint⟩ := (Bool.and_eq_true _ _).mp hint
    obtain ⟨x₀, x₁, rfl, hx₀, hxres⟩ := isInterior_iff.mp hxint
    obtain ⟨s₀, s₁, rfl, hs₀, hsres⟩ := isInterior_iff.mp hsint
    have hlen : x₁.length = s₁.length := by simpa using hx.trans hs.symm
    have hrefl : (reflection K.numel : List ℝ) = 1 :: List.replicate x₁.length (-1) := by
      rw [← hx, reflection]
      simp
    have hsizes := exists_sizes hx₀ hxres hs₀ hsres
    simp only [hrefl, residual, sumsq, Scalar.sqrt_real, Scalar.two_real, Scalar.half_real,
      inner_cons, List.zip_cons_cons, List.zipWith_cons_cons, one_mul]
    set X := Real.sqrt (x₀ * x₀ - inner x₁ x₁)
    set S := Real.sqrt (s₀ * s₀ - inner s₁ s₁)
    set γ := Real.sqrt ((1 + (x₀ * s₀ + inner x₁ s₁) / (X * S)) * (1 / 2))
    have hbounded : List.zipWith (fun p q => p.1 / (2 * X * γ) + q * p.2 / (2 * S * γ)) (x₁.zip s₁)
        (List.replicate x₁.length (-1)) =
          combine (1 / (2 * X * γ)) x₁ (-(1 / (2 * S * γ))) s₁ := by
      rw [zipWith_zip_reflected _ hlen, combine]
      congr 1
      funext x s
      ring
    rw [hbounded]
    exact hsizes.isScaling hlen hx₀ hs₀
  next => simp at h

/-! ## What the scaling does -/

/-- A boost multiplies the residual by `η²`. -/
theorem residual_boost {w₀ : ℝ} {w₁ : List ℝ} (hw : OnHyperboloid w₀ w₁) {η ε : ℝ} (hε : ε * ε = 1)
    (v₀ : ℝ) {v₁ : List ℝ} (hv : v₁.length = w₁.length) :
    residual (boost η ε w₀ w₁ (v₀ :: v₁)) = η * η * residual (v₀ :: v₁) := by
  obtain ⟨hpos, hres⟩ := hw
  have hne : 1 + w₀ ≠ 0 := by positivity
  have hself : inner w₁ w₁ = w₀ * w₀ - 1 := by linarith
  simp only [boost, residual, sumsq, inner_combine_left _ _ _ hv, inner_combine_right _ _ _ hv,
    hself, inner_comm v₁ w₁]
  set c := v₀ + ε * inner w₁ v₁ / (1 + w₀) with hc
  have hcancel : (1 + w₀) * c = (1 + w₀) * v₀ + ε * inner w₁ v₁ := by
    rw [hc]
    field_simp
  linear_combination -(η * η * c * c * (w₀ * w₀ - 1)) * hε -
    η * η * ((w₀ - 1) * c + (w₀ - 1) * v₀ + ε * inner w₁ v₁) * hcancel

/-- The scaled form of the point is interior. -/
theorem IsScaling.isInterior_mulThetaInv {K : SecondOrder ℝ} {x s : List ℝ} (h : K.IsScaling x s) :
    isInterior (K.mulThetaInv x) = true := by
  obtain ⟨w₀, w₁, hw, hpoint⟩ := h.point
  obtain ⟨x₀, x₁, rfl, hx₀, hx⟩ := isInterior_iff.mp h.interior
  have hlen : x₁.length = w₁.length := by simpa [numel, hw] using h.length.1
  have hη : 0 < 1 / K.eta := div_pos one_pos h.eta
  have hres := residual_boost hpoint (η := 1 / K.eta) (ε := -1) (by norm_num) x₀ hlen
  rw [mulThetaInv_eq hw (by simpa [hw] using h.reflection)]
  rw [boost] at hres ⊢
  refine isInterior_iff.mpr ⟨_, _, rfl, ?_, ?_⟩
  · have habs := abs_inner_lt hpoint.1 (hpoint.2.symm ▸ one_pos) hx₀ hx
    have := (abs_lt.mp habs).2
    exact mul_pos hη (by linarith)
  · rw [residual, residual, sumsq, sumsq] at hres
    rw [hres]
    exact mul_pos (mul_pos hη hη) hx

/-! ## The Jordan product -/

/-- The division undoes the product. -/
theorem circ_invCirc {x y : List ℝ} (hx : isInterior x = true) (hlen : x.length = y.length) :
    circ x (invCirc x y) = y := by
  obtain ⟨x₀, x₁, rfl, hx₀, hres⟩ := isInterior_iff.mp hx
  cases y with
  | nil => simp at hlen
  | cons y₀ y₁ =>
    have hlen : x₁.length = y₁.length := by simpa using hlen
    have hself : inner x₁ x₁ = x₀ * x₀ - (x₀ * x₀ - inner x₁ x₁) := by ring
    simp only [invCirc, circ, Scalar.recip_real, residual, sumsq, inner_cons]
    set ρ := x₀ * x₀ - inner x₁ x₁
    congr 1
    · have hz := inner_combine_right (ρ⁻¹ * (inner x₁ y₁ / x₀ - y₀)) x₀⁻¹ x₁ hlen
      rw [combine] at hz
      rw [hz, hself]
      field_simp
      ring
    · apply List.ext_getElem (by simp [hlen])
      intro i hi hi'
      simp only [List.getElem_zipWith]
      field_simp
      ring

/-- The product undoes the division. -/
theorem invCirc_circ {x y : List ℝ} (hx : isInterior x = true) (hlen : x.length = y.length) :
    invCirc x (circ x y) = y := by
  obtain ⟨x₀, x₁, rfl, hx₀, hres⟩ := isInterior_iff.mp hx
  cases y with
  | nil => simp at hlen
  | cons y₀ y₁ =>
    have hlen : x₁.length = y₁.length := by simpa using hlen
    have hinner : inner x₁ (List.zipWith (fun y x => x₀ * y + y₀ * x) y₁ x₁) =
        x₀ * inner x₁ y₁ + y₀ * inner x₁ x₁ := inner_combine_right x₀ y₀ x₁ hlen.symm
    have hself : inner x₁ x₁ = x₀ * x₀ - (x₀ * x₀ - inner x₁ x₁) := by ring
    simp only [circ, invCirc, Scalar.recip_real, residual, sumsq, inner_cons, hinner]
    set ρ := x₀ * x₀ - inner x₁ x₁
    have hbound : (x₀ * (x₀ * y₀ + inner x₁ y₁) - (x₀ * inner x₁ y₁ + y₀ * inner x₁ x₁)) * ρ⁻¹ =
        y₀ := by
      rw [hself]
      field_simp
      ring
    -- the multiple of `x₁` that the product has added
    have hcoeff : ρ⁻¹ * ((x₀ * inner x₁ y₁ + y₀ * inner x₁ x₁) / x₀ - (x₀ * y₀ + inner x₁ y₁)) =
        -(y₀ / x₀) := by
      rw [hself]
      field_simp
      ring
    rw [hbound, hcoeff]
    congr 1
    apply List.ext_getElem (by simp [hlen])
    intro i hi hi'
    simp only [List.getElem_zipWith]
    field_simp
    ring

theorem inner_replicate_zero (n : ℕ) (v : List ℝ) : inner (List.replicate n 0) v = 0 := by
  induction n generalizing v with
  | zero => simp
  | succ n ih =>
    cases v with
    | nil => simp
    | cons a v => simp [List.replicate_succ, ih]

/-- The bound is the product with the identity. -/
theorem inner_unit {n : ℕ} (v₀ : ℝ) (v₁ : List ℝ) : inner (unit (n + 1)) (v₀ :: v₁) = v₀ := by
  have hunit : (unit (n + 1) : List ℝ) = 1 :: List.replicate n 0 := by simp [unit]
  rw [hunit, inner_cons, inner_replicate_zero]
  ring

theorem addScaledE_eq (a : ℝ) (v : List ℝ) : addScaledE a v = combine 1 v a (unit v.length) := by
  cases v with
  | nil => rfl
  | cons v₀ v₁ =>
    have hunit : (unit (v₁.length + 1) : List ℝ) = 1 :: List.replicate v₁.length 0 := by simp [unit]
    rw [List.length_cons, hunit, addScaledE, combine_cons]
    congr 1
    · ring
    · apply List.ext_getElem (by simp)
      intro i hi hi'
      simp [getElem_combine, List.get_eq_getElem]

end Conic.SecondOrder
