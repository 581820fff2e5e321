import Conic.Proofs.Decimal.Interval

/-!
# Rounding to a magnitude

An operation on floating point values ends with a quotient `v / w` that is not exact.  It
keeps the integral part of the quotient and what its remainder says about rounding
(`extended`).  To shift such a mantissa is to double the denominator, and rounding it is
`Digits.roundQuotient`, so a shift followed by rounding is rounding the quotient in the unit
of the target exponent (`roundWithAccuracy_eq`).

`round_of_attracts` says to what it is rounded: if the number lies in the interval of a
magnitude then to this magnitude.  There are two cases.  The number has the exponent of the
magnitude, or it lies in the binade below (`Dyadic.Undercut`).  In the second case it is
rounded up, and the carry gives the magnitude.

Products and quotients of mantissas have enough bits for this (`mul_of_attracts`,
`div_of_attracts`).
-/

namespace Conic.Decimal

open Float.Model Float.Model.UnpackedFloat

/-! ## Mantissas -/

/-- A quotient as a mantissa with the bits that decide how it is rounded. -/
def extended (v w : ℕ) : ExtendedMantissa :=
  .ofMantissaAndAccuracy (v / w) (accuracyOfFraction (v % w) w)

variable {v w : ℕ}

theorem extended_eq (hw : 0 < w) (v : ℕ) : extended v w =
    ⟨v / w, decide (w ≤ 2 * (v % w)), decide (v % w ≠ 0 ∧ 2 * (v % w) ≠ w)⟩ := by
  rw [extended, accuracyOfFraction]
  split
  next hzero =>
    simp [ExtendedMantissa.ofMantissaAndAccuracy, hzero]
    omega
  next hzero =>
    rcases lt_trichotomy (2 * (v % w)) w with h | h | h
    · simp [ExtendedMantissa.ofMantissaAndAccuracy, Nat.compare_eq_lt.mpr h, hzero, h.ne, h]
    · simp [ExtendedMantissa.ofMantissaAndAccuracy, h]
    · simp [ExtendedMantissa.ofMantissaAndAccuracy, Nat.compare_eq_gt.mpr h, hzero, h.ne', h.le]

/-- To shift the mantissa is to divide by two. -/
theorem shiftRightOne_extended (hw : 0 < w) (v : ℕ) :
    (extended v w).shiftRightOne = extended v (w * 2) := by
  have hdiv : v / (w * 2) = v / w / 2 := (Nat.div_div_eq_div_mul v w 2).symm
  have hmod : v % (w * 2) = v % w + w * (v / w % 2) := Nat.mod_mul
  have hlt := Nat.mod_lt v hw
  rw [extended_eq hw, extended_eq (by omega), ExtendedMantissa.shiftRightOne, hdiv, hmod]
  rcases Nat.mod_two_eq_zero_or_one (v / w) with hbit | hbit
  · simp [hbit]
    grind
  · simp [hbit]
    grind

theorem shiftRight_extended (hw : 0 < w) (v n : ℕ) :
    extended v w >>> n = extended v (w * 2 ^ n) := by
  induction n with
  | zero => simp [HShiftRight.hShiftRight, Nat.repeat]
  | succ n ih =>
    show (extended v w >>> n).shiftRightOne = _
    rw [ih, shiftRightOne_extended (Nat.mul_pos hw (Nat.pow_pos two_pos)), mul_assoc, pow_succ]

/-- The mantissa is rounded like the quotient. -/
theorem roundedMantissa_extended (hw : 0 < w) (v : ℕ) :
    (extended v w).roundedMantissa = Digits.roundQuotient .even v w := by
  have hsplit := Nat.div_add_mod v w
  have hlt := Nat.mod_lt v hw
  have hbelow : 2 * v < (2 * (v / w) + 1) * w ↔ 2 * (v % w) < w := by
    constructor <;> intro h <;> nlinarith
  have habove : (2 * (v / w) + 1) * w < 2 * v ↔ w < 2 * (v % w) := by
    constructor <;> intro h <;> nlinarith
  rw [extended_eq hw, ExtendedMantissa.roundedMantissa, Digits.roundQuotient]
  simp only [hbelow, habove]
  rcases lt_trichotomy (2 * (v % w)) w with h | h | h
  · by_cases hzero : v % w = 0
    · simp [ExtendedMantissa.accuracy, Accuracy.roundToNearestEven, hzero, hw, hw.ne']
    · simp [ExtendedMantissa.accuracy, Accuracy.roundToNearestEven, hzero, h, h.ne, h.not_ge]
  · have hzero : v % w ≠ 0 := by omega
    rcases Nat.mod_two_eq_zero_or_one (v / w) with hbit | hbit
    all_goals simp [ExtendedMantissa.accuracy, Accuracy.roundToNearestEven, h, Tie.choose, hbit]
  · have hzero : v % w ≠ 0 := by omega
    simp [ExtendedMantissa.accuracy, Accuracy.roundToNearestEven, hzero, h.le, h.ne', h, h.not_gt]

/-- Rounding takes the natural number from which the quotient differs by at most a half,
and in case of a tie the even one. -/
theorem roundQuotient_eq (hw : 0 < w) {r : ℕ} (hlow : (r - 1 / 2 : ℚ) ≤ v / w)
    (hhigh : (v / w : ℚ) ≤ r + 1 / 2)
    (hodd : r % 2 = 1 → (r - 1 / 2 : ℚ) < v / w ∧ (v / w : ℚ) < r + 1 / 2) :
    Digits.roundQuotient .even v w = r := by
  have hw' : (0 : ℚ) < w := by exact_mod_cast hw
  have hlow' : 2 * r * w ≤ 2 * v + w := by
    rw [le_div_iff₀ hw'] at hlow
    exact_mod_cast (by linarith : (2 * r * w : ℚ) ≤ 2 * v + w)
  have hhigh' : 2 * v ≤ (2 * r + 1) * w := by
    rw [div_le_iff₀ hw'] at hhigh
    exact_mod_cast (by linarith : (2 * v : ℚ) ≤ (2 * r + 1) * w)
  have hodd' (hr : r % 2 = 1) : 2 * r * w < 2 * v + w ∧ 2 * v < (2 * r + 1) * w := by
    obtain ⟨h₁, h₂⟩ := hodd hr
    rw [lt_div_iff₀ hw'] at h₁
    rw [div_lt_iff₀ hw'] at h₂
    exact ⟨by exact_mod_cast (by linarith : (2 * r * w : ℚ) < 2 * v + w),
      by exact_mod_cast (by linarith : (2 * v : ℚ) < (2 * r + 1) * w)⟩
  have hfloor : v / w * w ≤ v := Nat.div_mul_le_self v w
  have hceil : v < (v / w + 1) * w := Nat.lt_mul_of_div_lt (Nat.lt_succ_self _) hw
  rw [Digits.roundQuotient]
  generalize v / w = d at hfloor hceil ⊢
  have hle : r ≤ d + 1 := by
    have h : 2 * r < 2 * d + 3 := Nat.lt_of_mul_lt_mul_right (a := w) (by nlinarith)
    omega
  have hge : d ≤ r := by
    have h : 2 * d ≤ 2 * r + 1 := Nat.le_of_mul_le_mul_right (by nlinarith) hw
    omega
  rcases hge.eq_or_lt with rfl | hlt
  · split
    · rfl
    next hbelow =>
      have hodd'' : d % 2 = 0 := by
        by_contra hbit
        exact hbelow (hodd' (by omega)).2
      rw [if_neg (by omega), Tie.choose, if_pos hodd'']
  · obtain rfl : r = d + 1 := by omega
    have hmiddle : (2 * d + 1) * w ≤ 2 * v := by nlinarith
    rw [if_neg hmiddle.not_gt]
    split
    · rfl
    next habove =>
      have hbit : ¬ d % 2 = 0 := fun hbit => by
        have := (hodd' (by omega)).1
        exact habove (by nlinarith)
      rw [Tie.choose, if_neg hbit]

/-! ## Magnitudes -/

/-- The exponent to which a quotient is rounded. -/
def target (v w : ℕ) (e : ℤ) : ℤ := Format.binary64.targetExponent (totalExponent (v / w) e)

theorem targetExponent_eq (m : ℕ) (e : ℤ) :
    Format.binary64.targetExponent (totalExponent m e) = max (m.log2 + e - 52) (-1074) := by
  simp only [Format.targetExponent, totalExponent, Format.mantissaBits, Format.minExponent]
  norm_num
  omega

/-- The bits of the mantissa suffice to round it. -/
def Precise (m : ℕ) (e : ℤ) : Prop := 2 ^ 52 ≤ m ∨ e ≤ -1074

theorem Precise.le_target {e : ℤ} (h : Precise (v / w) e) : e ≤ target v w e := by
  rw [target, targetExponent_eq]
  rcases h with h | h
  · have hlog : 52 ≤ (v / w).log2 := (Nat.le_log2 (by omega)).mpr h
    omega
  · omega

theorem shiftToTargetExponent_of_lt {r : ℕ} (hr : r < 2 ^ 53) {t : ℤ} (ht : -1074 ≤ t) :
    shiftToTargetExponent Format.binary64 r t .exact = (⟨r, false, false⟩, t) := by
  have hlog : r.log2 ≤ 52 := by
    by_cases hzero : r = 0
    · simp [hzero]
    · have := (Nat.log2_lt hzero).mpr hr
      omega
  have hstay : (max (r.log2 + t - 52) (-1074) - t).toNat = 0 := by omega
  rw [shiftToTargetExponent, targetExponent_eq, shiftToExponent, hstay]
  simp [HShiftRight.hShiftRight, Nat.repeat, ExtendedMantissa.ofMantissaAndAccuracy]

/-- A mantissa that was rounded up to one bit more is shifted once. -/
theorem shiftToTargetExponent_carry {t : ℤ} (ht : -1074 ≤ t) :
    shiftToTargetExponent Format.binary64 (2 ^ 53) t .exact = (⟨2 ^ 52, false, false⟩, t + 1) := by
  have hstep : (max ((2 ^ 53).log2 + t - 52) (-1074) - t).toNat = 1 := by
    rw [Nat.log2_two_pow]
    omega
  rw [shiftToTargetExponent, targetExponent_eq, shiftToExponent, hstep]
  simp [HShiftRight.hShiftRight, Nat.repeat, ExtendedMantissa.ofMantissaAndAccuracy,
    ExtendedMantissa.shiftRightOne]

/-- A quotient is rounded to a natural number of units of its exponent. -/
theorem roundWithAccuracy_eq (hw : 0 < w) (s : Sign) {v : ℕ} {e : ℤ} (h : Precise (v / w) e)
    {r : ℕ} (hr : Digits.roundQuotient .even v (w * 2 ^ (target v w e - e).toNat) = r) :
    (∀ hpos : 0 < r, r < 2 ^ 53 →
      roundWithAccuracy Format.binary64 s (v / w) e (accuracyOfFraction (v % w) w) =
        .finite s r (target v w e) hpos) ∧
    (r = 2 ^ 53 →
      roundWithAccuracy Format.binary64 s (v / w) e (accuracyOfFraction (v % w) w) =
        .finite s (2 ^ 52) (target v w e + 1) (Nat.pow_pos two_pos)) := by
  have htarget : -1074 ≤ target v w e := by
    rw [target, targetExponent_eq]
    exact le_max_right _ _
  have hexponent : e + ((target v w e - e).toNat : ℤ) = target v w e := by
    have := h.le_target
    omega
  have hfirst : shiftToTargetExponent Format.binary64 (v / w) e (accuracyOfFraction (v % w) w) =
      (extended v (w * 2 ^ (target v w e - e).toNat), target v w e) :=
    Prod.ext (shiftRight_extended hw v _) hexponent
  have hrounded : (extended v (w * 2 ^ (target v w e - e).toNat)).roundedMantissa = r := by
    rw [roundedMantissa_extended (Nat.mul_pos hw (Nat.pow_pos two_pos)), hr]
  rw [roundWithAccuracy, hfirst]
  simp only [hrounded]
  refine ⟨fun hpos hlt => ?_, fun hcarry => ?_⟩
  · simp only [shiftToTargetExponent_of_lt hlt htarget, hpos.ne', dif_neg, not_false_eq_true]
  · simp only [hcarry, shiftToTargetExponent_carry htarget]
    rfl

theorem target_eq (hw : 0 < w) {e q : ℤ} (h : Precise (v / w) e) (hq : -1074 ≤ q)
    (hlow : (2 : ℚ) ^ (52 + q) ≤ v / w * 2 ^ e ∨ q = -1074)
    (hhigh : (v / w * 2 ^ e : ℚ) < 2 ^ (53 + q)) : target v w e = q := by
  have hunit : (0 : ℚ) < 2 ^ e := by positivity
  have hbelow : (v / w : ℚ) < 2 ^ ((v / w).log2 + 1) := by
    rw [div_lt_iff₀ (by exact_mod_cast hw)]
    exact_mod_cast Nat.lt_mul_of_div_lt Nat.lt_log2_self hw
  have hle : (v / w).log2 + e - 52 ≤ q := by
    rcases Nat.eq_zero_or_pos (v / w) with hzero | hpos
    · rw [hzero, Precise] at h
      rw [hzero, Nat.log2_zero]
      omega
    · have habove : (2 : ℚ) ^ (v / w).log2 ≤ v / w := by
        refine le_trans ?_ Nat.cast_div_le
        exact_mod_cast Nat.log2_self_le hpos.ne'
      have hpow : (2 : ℚ) ^ ((v / w).log2 + e) < 2 ^ (53 + q) := by
        rw [zpow_add₀ two_ne_zero, zpow_natCast]
        exact (mul_le_mul_of_nonneg_right habove hunit.le).trans_lt hhigh
      have := (zpow_lt_zpow_iff_right₀ one_lt_two).mp hpow
      omega
  have hge : q ≤ (v / w).log2 + e - 52 ∨ q = -1074 := by
    refine hlow.imp_left fun hlow => ?_
    have hpow : (2 : ℚ) ^ (52 + q) < 2 ^ (((v / w).log2 + 1 : ℕ) + e) := by
      rw [zpow_add₀ two_ne_zero (_ : ℤ) e, zpow_natCast]
      exact hlow.trans_lt (mul_lt_mul_of_pos_right hbelow hunit)
    have := (zpow_lt_zpow_iff_right₀ one_lt_two).mp hpow
    omega
  rw [target, targetExponent_eq]
  omega

/-- The quotient in units of the exponent to which it is rounded. -/
theorem scaled_eq {e : ℤ} (h : Precise (v / w) e) :
    (v / (w * 2 ^ (target v w e - e).toNat : ℕ) : ℚ) = v / w * 2 ^ e / 2 ^ target v w e := by
  have hexponent : ((target v w e - e).toNat : ℤ) = target v w e - e := by
    have := h.le_target
    omega
  rw [Nat.cast_mul, Nat.cast_pow, Nat.cast_ofNat, ← zpow_natCast, hexponent,
    zpow_sub₀ two_ne_zero]
  field_simp

/-! ## Rounding to a magnitude -/

section

variable {x : Dyadic} {y : ℚ} {e : ℤ}

/-- The bounds of the numbers that round to a magnitude, in units of the magnitude. -/
theorem Dyadic.Attracts.units (hy : x.Attracts y) :
    (x.m - if x.narrowBelow then 1 / 4 else 1 / 2 : ℚ) ≤ y / 2 ^ x.q ∧
      y / 2 ^ x.q ≤ x.m + 1 / 2 ∧
      (x.m % 2 = 1 → (x.m - if x.narrowBelow then 1 / 4 else 1 / 2 : ℚ) < y / 2 ^ x.q ∧
        y / 2 ^ x.q < x.m + 1 / 2) := by
  have hunit : (0 : ℚ) < 2 ^ x.q := by positivity
  obtain ⟨hlow, hhigh, hodd⟩ := hy
  rw [Dyadic.least, ← le_div_iff₀ hunit] at hlow
  rw [Dyadic.greatest, ← div_le_iff₀ hunit] at hhigh
  rw [Dyadic.least, Dyadic.greatest, ← lt_div_iff₀ hunit, ← div_lt_iff₀ hunit] at hodd
  exact ⟨hlow, hhigh, hodd⟩

theorem two_zpow_add (n : ℕ) (q : ℤ) : (2 : ℚ) ^ (n + q) = 2 ^ n * 2 ^ q := by
  rw [zpow_add₀ two_ne_zero, zpow_natCast]

/-- A number that rounds to a magnitude is below it and has a smaller exponent. -/
def Dyadic.Undercut (x : Dyadic) (y : ℚ) : Prop := x.narrowBelow = true ∧ y < 2 ^ (52 + x.q)

/-- A number with a smaller exponent is less than a quarter of the unit below. -/
theorem Dyadic.Undercut.units (hx : x.Canonical) (h : x.Undercut y) (hy : x.Attracts y) :
    (2 ^ 52 - 1 / 4 : ℚ) ≤ y / 2 ^ x.q ∧ y / 2 ^ x.q < 2 ^ 52 := by
  have hunit : (0 : ℚ) < 2 ^ x.q := by positivity
  have hlow := hy.units.1
  rw [(hx.narrow.mp h.1).1, if_pos h.1] at hlow
  push_cast at hlow
  refine ⟨hlow, ?_⟩
  rw [div_lt_iff₀ hunit]
  exact h.2.trans_eq (two_zpow_add 52 x.q)

theorem target_of_undercut (hx : x.Canonical) (hw : 0 < w) (h : Precise (v / w) e)
    (hbelow : x.Undercut (v / w * 2 ^ e)) (hy : x.Attracts (v / w * 2 ^ e)) :
    target v w e = x.q - 1 := by
  have hunit : (0 : ℚ) < 2 ^ x.q := by positivity
  obtain ⟨hlow, -⟩ := hbelow.units hx hy
  have hq := (hx.narrow.mp hbelow.1).2
  refine target_eq hw h (by omega) (.inl ?_) ?_
  · rw [show (52 : ℤ) + (x.q - 1) = (51 : ℕ) + x.q by omega, two_zpow_add, ← le_div_iff₀ hunit]
    linarith
  · rw [show (53 : ℤ) + (x.q - 1) = 52 + x.q by omega]
    exact hbelow.2

/-- A quotient with a smaller exponent is rounded up to the next power of two. -/
theorem roundQuotient_of_undercut (hx : x.Canonical) (hw : 0 < w) (h : Precise (v / w) e)
    (hbelow : x.Undercut (v / w * 2 ^ e)) (hy : x.Attracts (v / w * 2 ^ e)) :
    Digits.roundQuotient .even v (w * 2 ^ (target v w e - e).toNat) = 2 ^ 53 := by
  obtain ⟨hlow, hhigh⟩ := hbelow.units hx hy
  have hscaled := scaled_eq h
  have hdouble : (v / w * 2 ^ e / 2 ^ (x.q - 1) : ℚ) = 2 * (v / w * 2 ^ e / 2 ^ x.q) := by
    rw [zpow_sub_one₀ two_ne_zero]
    field_simp
  rw [target_of_undercut hx hw h hbelow hy] at hscaled ⊢
  rw [hdouble] at hscaled
  refine roundQuotient_eq (Nat.mul_pos hw (Nat.pow_pos two_pos)) ?_ ?_
    fun hbit => absurd hbit (by decide)
  all_goals
    rw [hscaled]
    push_cast
    linarith

theorem target_of_not_undercut (hx : x.Canonical) (hw : 0 < w) (h : Precise (v / w) e)
    (habove : ¬ x.Undercut (v / w * 2 ^ e)) (hy : x.Attracts (v / w * 2 ^ e)) :
    target v w e = x.q := by
  have hunit : (0 : ℚ) < 2 ^ x.q := by positivity
  obtain ⟨hlow, hhigh, -⟩ := hy.units
  have hfactor : (x.m : ℚ) + 1 ≤ 2 ^ 53 := by exact_mod_cast hx.lt
  refine target_eq hw h hx.le_q ?_ ?_
  · rw [or_iff_not_imp_right]
    intro hq
    cases hnarrow : x.narrowBelow with
    | true => exact not_lt.mp fun hlt => habove ⟨hnarrow, hlt⟩
    | false =>
      have hne : x.m ≠ 2 ^ 52 := fun hm => by
        have := hx.narrow.mpr ⟨hm, lt_of_le_of_ne hx.le_q (Ne.symm hq)⟩
        rw [hnarrow] at this
        cases this
      have hnormal := hx.normal.resolve_right hq
      have hlt : (2 : ℚ) ^ 52 + 1 ≤ x.m := by exact_mod_cast (by omega : 2 ^ 52 + 1 ≤ x.m)
      rw [hnarrow, if_neg Bool.false_ne_true] at hlow
      refine (two_zpow_add 52 x.q).trans_le ?_
      rw [← le_div_iff₀ hunit]
      linarith
  · refine lt_of_lt_of_eq ?_ (two_zpow_add 53 x.q).symm
    rw [← div_lt_iff₀ hunit]
    linarith

theorem roundQuotient_of_not_undercut (hx : x.Canonical) (hw : 0 < w) (h : Precise (v / w) e)
    (habove : ¬ x.Undercut (v / w * 2 ^ e)) (hy : x.Attracts (v / w * 2 ^ e)) :
    Digits.roundQuotient .even v (w * 2 ^ (target v w e - e).toNat) = x.m := by
  obtain ⟨hlow, hhigh, hodd⟩ := hy.units
  have hhalf : (x.m : ℚ) - 1 / 2 ≤ x.m - if x.narrowBelow then 1 / 4 else 1 / 2 := by
    split <;> linarith
  have hscaled := scaled_eq h
  rw [target_of_not_undercut hx hw h habove hy] at hscaled ⊢
  refine roundQuotient_eq (Nat.mul_pos hw (Nat.pow_pos two_pos)) ?_ ?_ fun hbit => ?_
  all_goals rw [hscaled]
  · exact hhalf.trans hlow
  · exact hhigh
  · exact ⟨hhalf.trans_lt (hodd hbit).1, (hodd hbit).2⟩

/-- A quotient that rounds to a magnitude is rounded to it. -/
theorem round_of_attracts (hx : x.Canonical) (hpos : 0 < x.m) (hw : 0 < w) (s : Sign)
    (h : Precise (v / w) e) (hy : x.Attracts (v / w * 2 ^ e)) :
    roundWithAccuracy Format.binary64 s (v / w) e (accuracyOfFraction (v % w) w) =
      .finite s x.m x.q hpos := by
  by_cases hbelow : x.Undercut (v / w * 2 ^ e)
  · have hcarry := (roundWithAccuracy_eq hw s h (roundQuotient_of_undercut hx hw h hbelow hy)).2 rfl
    rw [target_of_undercut hx hw h hbelow hy, sub_add_cancel] at hcarry
    rw [hcarry]
    simp only [(hx.narrow.mp hbelow.1).1]
  · have hfinite := (roundWithAccuracy_eq hw s h
      (roundQuotient_of_not_undercut hx hw h hbelow hy)).1 hpos hx.lt
    rwa [target_of_not_undercut hx hw h hbelow hy] at hfinite

end

/-! ## Products and quotients -/

section

variable {x : Dyadic} {m₁ m₂ : ℕ} {e₁ e₂ : ℤ}

theorem mul_of_attracts (hx : x.Canonical) (hpos : 0 < x.m) (h₁ : 0 < m₁) (h₂ : 0 < m₂)
    (h : Precise (m₁ * m₂) (e₁ + e₂)) (hy : x.Attracts (m₁ * 2 ^ e₁ * (m₂ * 2 ^ e₂))) :
    UnpackedFloat.mul Format.binary64 (.finite .positive m₁ e₁ h₁) (.finite .positive m₂ e₂ h₂) =
      .finite .positive x.m x.q hpos := by
  have hvalue : (m₁ * 2 ^ e₁ * (m₂ * 2 ^ e₂) : ℚ) = (m₁ * m₂ : ℕ) / (1 : ℕ) * 2 ^ (e₁ + e₂) := by
    rw [zpow_add₀ two_ne_zero]
    push_cast
    ring
  rw [hvalue] at hy
  rw [← Nat.div_one (m₁ * m₂)] at h
  have hround := round_of_attracts hx hpos one_pos .positive h hy
  rwa [Nat.div_one, Nat.mod_one] at hround

/-- The quotient of two mantissas is computed with enough bits. -/
theorem precise_div (h₁ : 0 < m₁) (h₂ : 0 < m₂) {t : ℤ}
    (ht : t = min (e₁ - e₂)
      (Format.binary64.targetExponent (totalExponent m₁ e₁ - totalExponent m₂ e₂))) :
    Precise ((m₁ <<< (e₁ - e₂ - t).toNat) / m₂) t := by
  have hmin : t ≤ max ((m₁.log2 : ℤ) + e₁ - (m₂.log2 + e₂) - 53) (-1074) := by
    rw [ht]
    refine (min_le_right _ _).trans_eq ?_
    simp only [Format.targetExponent, totalExponent, Format.mantissaBits, Format.minExponent]
    norm_num
    omega
  rcases le_max_iff.mp hmin with hbits | hleast
  · left
    rw [Nat.le_div_iff_mul_le h₂, Nat.shiftLeft_eq]
    calc 2 ^ 52 * m₂ ≤ 2 ^ 52 * 2 ^ (m₂.log2 + 1) := Nat.mul_le_mul_left _ Nat.lt_log2_self.le
      _ = 2 ^ (m₂.log2 + 53) := by ring
      _ ≤ 2 ^ (m₁.log2 + (e₁ - e₂ - t).toNat) := Nat.pow_le_pow_right two_pos (by omega)
      _ = 2 ^ m₁.log2 * 2 ^ (e₁ - e₂ - t).toNat := pow_add _ _ _
      _ ≤ m₁ * 2 ^ (e₁ - e₂ - t).toNat := Nat.mul_le_mul_right _ (Nat.log2_self_le h₁.ne')
  · exact .inr hleast

theorem div_of_attracts (hx : x.Canonical) (hpos : 0 < x.m) (h₁ : 0 < m₁) (h₂ : 0 < m₂)
    (hy : x.Attracts (m₁ * 2 ^ e₁ / (m₂ * 2 ^ e₂))) :
    UnpackedFloat.div Format.binary64 (.finite .positive m₁ e₁ h₁) (.finite .positive m₂ e₂ h₂) =
      .finite .positive x.m x.q hpos := by
  obtain ⟨t, ht⟩ : ∃ t, t = min (e₁ - e₂)
    (Format.binary64.targetExponent (totalExponent m₁ e₁ - totalExponent m₂ e₂)) := ⟨_, rfl⟩
  have hvalue : (m₁ * 2 ^ e₁ / (m₂ * 2 ^ e₂) : ℚ) =
      (m₁ <<< (e₁ - e₂ - t).toNat : ℕ) / m₂ * 2 ^ t := by
    have hshift : ((e₁ - e₂ - t).toNat : ℤ) = e₁ - e₂ - t := by omega
    rw [Nat.shiftLeft_eq, Nat.cast_mul, Nat.cast_pow, Nat.cast_ofNat, ← zpow_natCast, hshift,
      zpow_sub₀ two_ne_zero, zpow_sub₀ two_ne_zero]
    field_simp
  rw [hvalue] at hy
  have hround := round_of_attracts hx hpos h₂ .positive (precise_div h₁ h₂ ht) hy
  rw [UnpackedFloat.div, divCore]
  simp only [← ht]
  exact hround

end

end Conic.Decimal
