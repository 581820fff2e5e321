import Conic.Proofs.Cone.Rays

/-!
# The largest step in a second-order cone

A ray that starts in the cone stays there for ever, or leaves it at some `e`: up to
`e` its points lie in the cone, and behind `e` they do not (`SecondOrder.LeavesAt`).
`SecondOrder.IsLargestStep` says what is expected of `maxStep` in either case, and
what for a ray that starts outside.  In each case it leaves one answer.

From the interior `maxStep` is the extent of the ray, which is the expected answer.
From the boundary it decides by the sign of the residual of the direction alone,
unless that is zero (`SecondOrder.maxStep_of_boundary`).  There are three kinds of
rays for which this is too coarse (`SecondOrder.Misjudged`).

* A direction in the interior of the backward cone leaves the cone at once.  The
  answer is one.
* A direction of negative residual may lead through the interior to another point
  of the boundary.  The answer is zero.
* A direction on the boundary of the backward cone may lead along the boundary to
  the apex and out of the cone there.  The answer is one, wherever the apex is.

`SecondOrder.exists_isLargestStep_iff` says that `maxStep` is right about all
other rays, and wrong about these.
-/

namespace Conic.SecondOrder

open Vec

/-! ## What is expected -/

/-- The ray leaves the cone at `e`. -/
structure LeavesAt (v dv : List ℝ) (e : ℝ) : Prop where
  /-- The end lies ahead. -/
  nonneg : 0 ≤ e
  /-- The points up to the end are those in the cone. -/
  contains_iff : ∀ t, 0 ≤ t → (Contains (ray v dv t) ↔ t ≤ e)

/-- What a step along a ray is expected to be. -/
structure IsLargestStep (v dv : List ℝ) (a : ℝ) : Prop where
  /-- It is zero outside of the cone. -/
  outside : ¬Contains v → a = 0
  /-- If the ray leaves the cone, it is the largest step that keeps it in the cone. -/
  leaves : Contains v → (∃ t, 0 < t ∧ ¬Contains (ray v dv t)) →
    IsGreatest {a | 0 ≤ a ∧ ∀ t, 0 ≤ t → t ≤ a → Contains (ray v dv t)} a
  /-- It is one if the ray never leaves the cone. -/
  stays : (∀ t, 0 ≤ t → Contains (ray v dv t)) → a = 1

section

variable {v dv : List ℝ} (hlen : dv.length = v.length) {a : ℝ}

include hlen

theorem isLargestStep_iff_of_not_contains (h : ¬Contains v) : IsLargestStep v dv a ↔ a = 0 := by
  refine ⟨fun ha => ha.outside h, fun ha => ⟨fun _ => ha, fun hv => absurd hv h, fun hstays => ?_⟩⟩
  have hstart := hstays 0 le_rfl
  rw [ray_zero hlen] at hstart
  exact absurd hstart h

theorem isLargestStep_iff_of_stays (h : ∀ t, 0 ≤ t → Contains (ray v dv t)) :
    IsLargestStep v dv a ↔ a = 1 := by
  have hstart := h 0 le_rfl
  rw [ray_zero hlen] at hstart
  refine ⟨fun ha => ha.stays h, fun ha => ⟨fun hv => absurd hstart hv, ?_, fun _ => ha⟩⟩
  rintro - ⟨t, ht, hout⟩
  exact absurd (h t ht.le) hout

theorem LeavesAt.isLargestStep_iff {e : ℝ} (h : LeavesAt v dv e) :
    IsLargestStep v dv a ↔ a = e := by
  have hstart : Contains v := by
    have hzero := (h.contains_iff 0 le_rfl).mpr h.nonneg
    rwa [ray_zero hlen] at hzero
  have hout (t : ℝ) (ht : e < t) : ¬Contains (ray v dv t) := fun hmem =>
    ht.not_ge ((h.contains_iff t (h.nonneg.trans ht.le)).mp hmem)
  have hgreatest : IsGreatest {a | 0 ≤ a ∧ ∀ t, 0 ≤ t → t ≤ a → Contains (ray v dv t)} e := by
    constructor
    · exact ⟨h.nonneg, fun t ht => (h.contains_iff t ht).mpr⟩
    · rintro b ⟨hb, hkeeps⟩
      exact (h.contains_iff b hb).mp (hkeeps b hb le_rfl)
  have hafter : 0 < e + 1 := by linarith [h.nonneg]
  constructor
  · intro ha
    exact (ha.leaves hstart ⟨e + 1, hafter, hout _ (lt_add_one e)⟩).unique hgreatest
  · rintro rfl
    exact ⟨fun hv => absurd hstart hv, fun _ _ => hgreatest,
      fun hstays => absurd (hstays _ hafter.le) (hout _ (lt_add_one _))⟩

end

variable [Machine]

/-- The extent of a ray from the interior is the step that is expected. -/
theorem isLargestStep_of_extent {v dv : List ℝ} (hlen : dv.length = v.length) {a : ℝ}
    (h : Extent (fun t => isInterior (ray v dv t) = true) (fun t => Contains (ray v dv t)) a) :
    IsLargestStep v dv a := by
  cases h with
  | stays hstays =>
    exact (isLargestStep_iff_of_stays hlen fun t ht => contains_of_isInterior (hstays t ht)).mpr rfl
  | exits hpos _ hcontains =>
    have hleaves : LeavesAt v dv a := ⟨hpos.le, hcontains⟩
    exact (hleaves.isLargestStep_iff hlen).mpr rfl

/-! ## Rays from the boundary -/

theorem polar_ray {v dv : List ℝ} (hlen : dv.length = v.length) (t : ℝ) :
    polar dv (ray v dv t) = t * residual dv + polar dv v := by
  cases dv with
  | nil =>
    cases v with
    | nil => simp [polar, residual]
    | cons v₀ v => simp at hlen
  | cons dv₀ dv =>
    cases v with
    | nil => simp at hlen
    | cons v₀ v =>
      have hlen : dv.length = v.length := by simpa using hlen
      rw [ray_cons, polar, polar, residual, sumsq, ray, inner_combine_right _ _ _ hlen]
      ring

/-- A direction in the backward cone has no positive form with a point of the cone. -/
theorem polar_nonpos {x : List ℝ} {d₀ : ℝ} {d : List ℝ} (hx : Contains x) (hd₀ : d₀ ≤ 0)
    (hd : 0 ≤ residual (d₀ :: d)) : polar (d₀ :: d) x ≤ 0 := by
  cases x with
  | nil => cases hx
  | cons x₀ x =>
    obtain ⟨hx₀, hx⟩ := contains_cons_iff.mp hx
    have hinner := (abs_le.mp (abs_inner_le hd hx)).1
    rw [abs_of_nonpos (mul_nonpos_of_nonpos_of_nonneg hd₀ hx₀)] at hinner
    rw [polar]
    linarith

/-- The apex has no positive form with anything. -/
theorem bound_pos_of_polar_pos {v₀ : ℝ} {v : List ℝ} (hv₀ : 0 ≤ v₀)
    (hv : residual (v₀ :: v) = 0) {d₀ : ℝ} {d : List ℝ}
    (hpolar : 0 < polar (d₀ :: d) (v₀ :: v)) : 0 < v₀ := by
  refine lt_of_le_of_ne hv₀ ?_
  rintro rfl
  have hself : inner v v = 0 := by
    rw [residual, sumsq] at hv
    linarith
  have hzero : inner d v = 0 := by
    have hcs := inner_sq_le d v
    rw [hself, mul_zero] at hcs
    exact pow_eq_zero_iff two_ne_zero |>.mp (le_antisymm hcs (sq_nonneg _))
  rw [polar, hzero, mul_zero, sub_zero] at hpolar
  exact lt_irrefl 0 hpolar

section

variable {v₀ dv₀ : ℝ} {v dv : List ℝ} (hlen : dv.length = v.length) (hv₀ : 0 ≤ v₀)
  (hv : residual (v₀ :: v) = 0)

include hlen hv

/-- The points of the ray that lie in the cone.  The residual has a root at zero. -/
theorem contains_ray_iff (t : ℝ) : Contains (ray (v₀ :: v) (dv₀ :: dv) t) ↔
    0 ≤ t * dv₀ + v₀ ∧
      0 ≤ t * (residual (dv₀ :: dv) * t + 2 * polar (dv₀ :: dv) (v₀ :: v)) := by
  have hlen' : (dv₀ :: dv).length = (v₀ :: v).length := by simpa using hlen
  have hray := residual_ray hlen' t
  rw [hv, add_zero] at hray
  have hfactor : residual (dv₀ :: dv) * t ^ 2 + 2 * polar (dv₀ :: dv) (v₀ :: v) * t =
      t * (residual (dv₀ :: dv) * t + 2 * polar (dv₀ :: dv) (v₀ :: v)) := by ring
  rw [ray_cons] at hray ⊢
  rw [contains_cons_iff, hray, hfactor, one_mul]

include hv₀

/-- A ray whose residual becomes negative leaves the cone at once. -/
theorem leavesAt_zero_of_neg
    (h : ∀ t, 0 < t → residual (dv₀ :: dv) * t + 2 * polar (dv₀ :: dv) (v₀ :: v) < 0) :
    LeavesAt (v₀ :: v) (dv₀ :: dv) 0 := by
  refine ⟨le_rfl, fun t ht => ?_⟩
  rw [contains_ray_iff hlen hv]
  constructor
  · rintro ⟨-, hres⟩
    refine not_lt.mp fun hpos => ?_
    exact (mul_neg_of_pos_of_neg hpos (h t hpos)).not_ge hres
  · intro hle
    obtain rfl : t = 0 := le_antisymm hle ht
    simpa using hv₀

/-- A ray into the interior of the backward cone leaves the cone at once. -/
theorem leavesAt_zero_of_backward (hdv₀ : dv₀ < 0) (hdv : 0 < residual (dv₀ :: dv)) :
    LeavesAt (v₀ :: v) (dv₀ :: dv) 0 := by
  refine ⟨le_rfl, fun t ht => ⟨fun hmem => not_lt.mp fun hpos => ?_, fun hle => ?_⟩⟩
  · have hpolar := polar_nonpos hmem hdv₀.le hdv.le
    rw [polar_ray (by simpa using hlen)] at hpolar
    obtain ⟨-, hres⟩ := (contains_ray_iff hlen hv t).mp hmem
    have hgrows : 0 < t * residual (dv₀ :: dv) := mul_pos hpos hdv
    exact (mul_neg_of_pos_of_neg hpos (by linarith)).not_ge hres
  · obtain rfl : t = 0 := le_antisymm hle ht
    exact (contains_ray_iff hlen hv 0).mpr (by simpa using hv₀)

/-- A ray of residual zero leaves the cone where its bound becomes negative. -/
theorem leavesAt_apex (hdv₀ : dv₀ < 0) (hdv : residual (dv₀ :: dv) = 0)
    (hpolar : polar (dv₀ :: dv) (v₀ :: v) = 0) :
    LeavesAt (v₀ :: v) (dv₀ :: dv) (-v₀ / dv₀) := by
  refine ⟨div_nonneg_of_nonpos (neg_nonpos.mpr hv₀) hdv₀.le, fun t ht => ?_⟩
  rw [contains_ray_iff hlen hv, hdv, hpolar, le_div_iff_of_neg hdv₀]
  simp only [zero_mul, mul_zero, add_zero, le_refl, and_true]
  exact neg_le_iff_add_nonneg.symm

/-- A ray through the interior leaves the cone at the other root. -/
theorem leavesAt_chord (hdv : residual (dv₀ :: dv) < 0)
    (hpolar : 0 < polar (dv₀ :: dv) (v₀ :: v)) : LeavesAt (v₀ :: v) (dv₀ :: dv)
      (2 * polar (dv₀ :: dv) (v₀ :: v) / -residual (dv₀ :: dv)) := by
  have hlen' : (dv₀ :: dv).length = (v₀ :: v).length := by simpa using hlen
  have hpos : 0 < -residual (dv₀ :: dv) := neg_pos.mpr hdv
  have hbound := bound_pos_of_polar_pos hv₀ hv hpolar
  refine ⟨by positivity, fun t ht => ⟨fun hmem => ?_, fun hle => ?_⟩⟩
  · obtain ⟨-, hres⟩ := (contains_ray_iff hlen hv t).mp hmem
    rw [le_div_iff₀ hpos]
    rcases ht.eq_or_lt with rfl | ht
    · linarith
    · linarith [nonneg_of_mul_nonneg_right hres ht]
  · rw [le_div_iff₀ hpos] at hle
    refine (contains_ray_iff hlen hv t).mpr ⟨?_, mul_nonneg ht (by linarith)⟩
    have hbefore (s : ℝ) (hs : 0 < s) (hst : s < t) :
        0 < residual (ray (v₀ :: v) (dv₀ :: dv) s) := by
      rw [residual_ray hlen', hv]
      have hfactor : 0 < s * (residual (dv₀ :: dv) * s + 2 * polar (dv₀ :: dv) (v₀ :: v)) :=
        mul_pos hs (by linarith [mul_lt_mul_of_pos_right hst hpos])
      linarith
    linarith [bound_nonneg hbound ht hbefore]

/-- The answer for a ray that starts on the boundary. -/
theorem maxStep_of_boundary (hne : v ≠ []) : maxStep (v₀ :: v) (dv₀ :: dv) =
    if residual (dv₀ :: dv) < 0 ∨
      residual (dv₀ :: dv) = 0 ∧ polar (dv₀ :: dv) (v₀ :: v) < 0 then 0 else 1 := by
  obtain ⟨v₁, vs, rfl⟩ := List.exists_cons_of_ne_nil hne
  rw [maxStep]
  simp only [Scalar.two_real, Scalar.four_real, sub_inner_eq_polar, hv]
  set a := residual (dv₀ :: dv)
  set p := polar (dv₀ :: dv) (v₀ :: v₁ :: vs)
  have hsq : ¬2 * p * (2 * p) < 0 := (mul_self_nonneg (2 * p)).not_gt
  have hsign : 2 * p < 0 ↔ p < 0 := by
    constructor <;> intro h <;> linarith
  rcases lt_trichotomy a 0 with ha | ha | ha
  · simp [ha, ha.not_gt, ha.ne, hv₀.not_gt, hsq]
  · simp [ha, hv₀.not_gt, hsq, hsign]
  · simp [ha, ha.not_gt, ha.ne', ha.le, hv₀.not_gt, hsq]

end

/-! ## The rays that are misjudged -/

/-- The rays from the boundary of the cone about which `maxStep` is wrong. -/
inductive Misjudged : List ℝ → List ℝ → Prop
  /-- The ray leads into the interior of the backward cone.  The answer is one. -/
  | backward {v₀ dv₀ : ℝ} {v dv : List ℝ} : 0 ≤ v₀ → residual (v₀ :: v) = 0 → dv₀ < 0 →
      0 < residual (dv₀ :: dv) → Misjudged (v₀ :: v) (dv₀ :: dv)
  /-- The ray leads through the interior of the cone.  The answer is zero. -/
  | chord {v₀ dv₀ : ℝ} {v dv : List ℝ} : 0 ≤ v₀ → residual (v₀ :: v) = 0 →
      residual (dv₀ :: dv) < 0 → 0 < polar (dv₀ :: dv) (v₀ :: v) →
      Misjudged (v₀ :: v) (dv₀ :: dv)
  /-- The ray leads along the boundary and through the apex, which it does not meet at
  one.  The answer is one. -/
  | apex {v₀ dv₀ : ℝ} {v dv : List ℝ} : 0 ≤ v₀ → residual (v₀ :: v) = 0 → dv₀ < 0 →
      residual (dv₀ :: dv) = 0 → polar (dv₀ :: dv) (v₀ :: v) = 0 → v₀ + dv₀ ≠ 0 →
      Misjudged (v₀ :: v) (dv₀ :: dv)

theorem Misjudged.boundary {v₀ dv₀ : ℝ} {v dv : List ℝ} (h : Misjudged (v₀ :: v) (dv₀ :: dv)) :
    0 ≤ v₀ ∧ residual (v₀ :: v) = 0 := by
  cases h with
  | backward hv₀ hv _ _ => exact ⟨hv₀, hv⟩
  | chord hv₀ hv _ _ => exact ⟨hv₀, hv⟩
  | apex hv₀ hv _ _ _ _ => exact ⟨hv₀, hv⟩

section

variable {v₀ dv₀ : ℝ} {v dv : List ℝ} (hne : v ≠ []) (hlen : dv.length = v.length)
  (hv₀ : 0 ≤ v₀) (hv : residual (v₀ :: v) = 0)

include hne hlen hv₀ hv

/-- Directions of negative residual lead out of the cone or through it. -/
theorem isLargestStep_iff_of_neg (hdv : residual (dv₀ :: dv) < 0) :
    IsLargestStep (v₀ :: v) (dv₀ :: dv) (maxStep (v₀ :: v) (dv₀ :: dv)) ↔
      ¬Misjudged (v₀ :: v) (dv₀ :: dv) := by
  have hlen' : (dv₀ :: dv).length = (v₀ :: v).length := by simpa using hlen
  rw [maxStep_of_boundary hlen hv₀ hv hne, if_pos (.inl hdv)]
  rcases lt_or_ge 0 (polar (dv₀ :: dv) (v₀ :: v)) with hpolar | hpolar
  · rw [(leavesAt_chord hlen hv₀ hv hdv hpolar).isLargestStep_iff hlen']
    have hpos : 0 < 2 * polar (dv₀ :: dv) (v₀ :: v) / -residual (dv₀ :: dv) :=
      div_pos (by positivity) (neg_pos.mpr hdv)
    exact iff_of_false hpos.ne (not_not.mpr (.chord hv₀ hv hdv hpolar))
  · have hleaves := leavesAt_zero_of_neg hlen hv₀ hv fun t ht => by
      linarith [mul_neg_of_neg_of_pos hdv ht]
    rw [hleaves.isLargestStep_iff hlen']
    refine iff_of_true rfl fun h => ?_
    cases h with
    | backward _ _ _ h => exact h.not_gt hdv
    | chord _ _ _ h => exact h.not_ge hpolar
    | apex _ _ _ h _ _ => exact hdv.ne h

/-- Directions in the cone never lead out of it. -/
theorem isLargestStep_iff_of_forward (hdv₀ : 0 ≤ dv₀) (hdv : 0 ≤ residual (dv₀ :: dv)) :
    IsLargestStep (v₀ :: v) (dv₀ :: dv) (maxStep (v₀ :: v) (dv₀ :: dv)) ↔
      ¬Misjudged (v₀ :: v) (dv₀ :: dv) := by
  have hlen' : (dv₀ :: dv).length = (v₀ :: v).length := by simpa using hlen
  have hmem : Contains (v₀ :: v) := contains_cons_iff.mpr ⟨hv₀, hv.ge⟩
  have hdir : Contains (dv₀ :: dv) := contains_cons_iff.mpr ⟨hdv₀, hdv⟩
  have hpolar := polar_nonneg hdir hmem
  rw [maxStep_of_boundary hlen hv₀ hv hne, if_neg (by simp [hdv.not_gt, hpolar.not_gt]),
    isLargestStep_iff_of_stays hlen' fun t ht => contains_combine hlen' hdir hmem ht zero_le_one]
  refine iff_of_true rfl fun h => ?_
  cases h with
  | backward _ _ h _ => exact h.not_ge hdv₀
  | chord _ _ h _ => exact h.not_ge hdv
  | apex _ _ h _ _ _ => exact h.not_ge hdv₀

/-- Directions in the backward cone lead out of the cone at once, or along its boundary to
the apex. -/
theorem isLargestStep_iff_of_backward (hdv₀ : dv₀ < 0) (hdv : 0 ≤ residual (dv₀ :: dv)) :
    IsLargestStep (v₀ :: v) (dv₀ :: dv) (maxStep (v₀ :: v) (dv₀ :: dv)) ↔
      ¬Misjudged (v₀ :: v) (dv₀ :: dv) := by
  have hlen' : (dv₀ :: dv).length = (v₀ :: v).length := by simpa using hlen
  have hpolar := polar_nonpos (contains_cons_iff.mpr ⟨hv₀, hv.ge⟩) hdv₀.le hdv
  rw [maxStep_of_boundary hlen hv₀ hv hne]
  rcases hdv.lt_or_eq with hpos | hzero
  · rw [if_neg (by simp [hpos.not_gt, hpos.ne']),
      (leavesAt_zero_of_backward hlen hv₀ hv hdv₀ hpos).isLargestStep_iff hlen']
    exact iff_of_false one_ne_zero (not_not.mpr (.backward hv₀ hv hdv₀ hpos))
  · rcases hpolar.lt_or_eq with hneg | hpolar
    · have hleaves := leavesAt_zero_of_neg hlen hv₀ hv fun t ht => by
        rw [← hzero]
        linarith
      rw [if_pos (.inr ⟨hzero.symm, hneg⟩), hleaves.isLargestStep_iff hlen']
      refine iff_of_true rfl fun h => ?_
      cases h with
      | backward _ _ _ h => exact h.ne hzero
      | chord _ _ h _ => exact h.ne hzero.symm
      | apex _ _ _ _ h _ => exact hneg.ne h
    · -- the answer is one, so it is right if the apex is met at one
      rw [if_neg (by simp [← hzero, hpolar]),
        (leavesAt_apex hlen hv₀ hv hdv₀ hzero.symm hpolar).isLargestStep_iff hlen',
        eq_div_iff hdv₀.ne, one_mul, eq_neg_iff_add_eq_zero, add_comm]
      refine ⟨fun hsum h => ?_, fun h => by_contra fun hsum => ?_⟩
      · cases h with
        | backward _ _ _ h => exact h.ne hzero
        | chord _ _ h _ => exact h.ne hzero.symm
        | apex _ _ _ _ _ h => exact h hsum
      · exact h (.apex hv₀ hv hdv₀ hzero.symm hpolar hsum)

/-- The rays from the boundary whose answer is right. -/
theorem isLargestStep_iff_of_boundary :
    IsLargestStep (v₀ :: v) (dv₀ :: dv) (maxStep (v₀ :: v) (dv₀ :: dv)) ↔
      ¬Misjudged (v₀ :: v) (dv₀ :: dv) := by
  rcases lt_or_ge (residual (dv₀ :: dv)) 0 with hdv | hdv
  · exact isLargestStep_iff_of_neg hne hlen hv₀ hv hdv
  · rcases lt_or_ge dv₀ 0 with hdv₀ | hdv₀
    · exact isLargestStep_iff_of_backward hne hlen hv₀ hv hdv₀ hdv
    · exact isLargestStep_iff_of_forward hne hlen hv₀ hv hdv₀ hdv

end

/-! ## All rays -/

/-- The step is computed for every direction that is as long as the point. -/
theorem maxStep?_eq {v dv : List ℝ} (hlen : dv.length = v.length) :
    maxStep? v dv = some (maxStep v dv) := by
  refine if_neg fun ⟨hlong, hempty⟩ => ?_
  rw [List.isEmpty_iff.mp hempty, List.length_nil] at hlen
  omega

theorem maxStep_of_not_contains {v₀ dv₀ : ℝ} {v dv : List ℝ} (hne : v ≠ [])
    (h : ¬Contains (v₀ :: v)) : maxStep (v₀ :: v) (dv₀ :: dv) = 0 := by
  obtain ⟨v₁, vs, rfl⟩ := List.exists_cons_of_ne_nil hne
  rw [contains_cons_iff, not_and_or, not_le, not_le] at h
  rw [maxStep]
  exact if_pos h.symm

/-- The step is the largest one that keeps the ray in the cone, zero if the ray starts
outside and one if it never leaves, for all rays but those that are misjudged. -/
theorem exists_isLargestStep_iff {v dv : List ℝ} (hlen : dv.length = v.length)
    (hdim : 2 ≤ v.length) :
    ∃ a, maxStep? v dv = some a ∧ (IsLargestStep v dv a ↔ ¬Misjudged v dv) := by
  refine ⟨maxStep v dv, maxStep?_eq hlen, ?_⟩
  cases v with
  | nil => simp at hdim
  | cons v₀ v =>
    cases dv with
    | nil => simp at hlen
    | cons dv₀ dv =>
      have hlen' : dv.length = v.length := by simpa using hlen
      have hne : v ≠ [] := List.ne_nil_of_length_pos (Nat.le_of_succ_le_succ hdim)
      by_cases hmem : Contains (v₀ :: v)
      · obtain ⟨hv₀, hv⟩ := contains_cons_iff.mp hmem
        rcases hv.eq_or_lt with hzero | hpos
        · exact isLargestStep_iff_of_boundary hne hlen' hv₀ hzero.symm
        · have hint := (isInterior_iff_residual_pos hv₀).mpr hpos
          exact iff_of_true (isLargestStep_of_extent hlen (extent_maxStep hlen hint))
            fun h => hpos.ne' h.boundary.2
      · rw [maxStep_of_not_contains hne hmem, isLargestStep_iff_of_not_contains hlen hmem]
        refine iff_of_true rfl fun h => hmem ?_
        exact contains_cons_iff.mpr ⟨h.boundary.1, h.boundary.2.ge⟩

omit [Machine] in
/-- A ray from the axis of the cone, which meets the boundary half way. -/
theorem isLargestStep_axis : letI := Machine.double
    (([3, 3, 4] : List ℝ).length = ([1, 0, 0] : List ℝ).length ∧
      2 ≤ ([1, 0, 0] : List ℝ).length) ∧
    maxStep? ([1, 0, 0] : List ℝ) [3, 3, 4] = some (1 / 2) ∧
      IsLargestStep [1, 0, 0] [3, 3, 4] (1 / 2) := by
  let _ := Machine.double
  have hstep : maxStep? ([1, 0, 0] : List ℝ) [3, 3, 4] = some (1 / 2) := by
    have hsqrt : Real.sqrt 100 = 10 := by
      rw [show (100 : ℝ) = 10 ^ 2 by norm_num]
      exact Real.sqrt_sq (by norm_num)
    rw [maxStep?_eq (by simp)]
    norm_num [maxStep, firstRoot, nearer, ahead, residual, sumsq, hsqrt]
  have hlen : ([3, 3, 4] : List ℝ).length = ([1, 0, 0] : List ℝ).length := rfl
  obtain ⟨a, ha, hiff⟩ := exists_isLargestStep_iff hlen (by simp)
  obtain rfl : 1 / 2 = a := Option.some.inj (hstep.symm.trans ha)
  refine ⟨⟨rfl, by simp⟩, hstep, hiff.mpr fun h => ?_⟩
  have hres := h.boundary.2
  norm_num [residual, sumsq] at hres

omit [Machine] in
/-- Three rays from the boundary that are misjudged.  The first one leaves the cone at once and
the others at two. -/
theorem not_isLargestStep_boundary : letI := Machine.double
    (LeavesAt [1, 1] [-1, 0] 0 ∧ maxStep? ([1, 1] : List ℝ) [-1, 0] = some 1 ∧
      ¬IsLargestStep [1, 1] [-1, 0] 1) ∧
    (LeavesAt [1, 1] [0, -1] 2 ∧ maxStep? ([1, 1] : List ℝ) [0, -1] = some 0 ∧
      ¬IsLargestStep [1, 1] [0, -1] 0) ∧
    LeavesAt [2, 2] [-1, -1] 2 ∧ maxStep? ([2, 2] : List ℝ) [-1, -1] = some 1 ∧
      ¬IsLargestStep [2, 2] [-1, -1] 1 := by
  let _ := Machine.double
  have hone : residual ([1, 1] : List ℝ) = 0 := by simp [residual, sumsq]
  have htwo : residual ([2, 2] : List ℝ) = 0 := by simp [residual, sumsq]
  have hlen {a b : ℝ} : [a].length = [b].length := rfl
  refine ⟨?_, ?_, ?_⟩
  · have hleaves : LeavesAt [1, 1] [-1, 0] 0 :=
      leavesAt_zero_of_backward rfl zero_le_one hone (by norm_num) (by simp [residual, sumsq])
    refine ⟨hleaves, ?_, fun h => ?_⟩
    · rw [maxStep?_eq (by simp), maxStep_of_boundary (by simp) zero_le_one hone (by simp)]
      norm_num [residual, sumsq]
    · exact one_ne_zero ((hleaves.isLargestStep_iff (by simp)).mp h)
  · have hleaves : LeavesAt [1, 1] [0, -1] 2 := by
      have hdv : residual ([0, -1] : List ℝ) < 0 := by simp [residual, sumsq]
      have hchord := leavesAt_chord hlen zero_le_one hone hdv (by simp [polar])
      norm_num [residual, sumsq, polar] at hchord
      exact hchord
    refine ⟨hleaves, ?_, fun h => ?_⟩
    · rw [maxStep?_eq (by simp), maxStep_of_boundary (by simp) zero_le_one hone (by simp)]
      norm_num [residual, sumsq]
    · exact two_ne_zero ((hleaves.isLargestStep_iff (by simp)).mp h).symm
  · have hleaves : LeavesAt [2, 2] [-1, -1] 2 := by
      have hdv : residual ([-1, -1] : List ℝ) = 0 := by simp [residual, sumsq]
      have hapex := leavesAt_apex hlen zero_le_two htwo (by norm_num) hdv (by simp [polar])
      norm_num at hapex
      exact hapex
    refine ⟨hleaves, ?_, fun h => ?_⟩
    · rw [maxStep?_eq (by simp), maxStep_of_boundary (by simp) zero_le_two htwo (by simp)]
      norm_num [residual, sumsq, polar]
    · have hone := (hleaves.isLargestStep_iff (by simp)).mp h
      norm_num at hone

end Conic.SecondOrder
