import Conic.Proofs.Decimal.Rounding
import Conic.Proofs.Decimal.Values

/-!
# From decimals to values

`Float.ofScientific` computes the value of a decimal `m * 10 ^ e` in one of two ways.  If both
`m` and the power of ten are values themselves then it multiplies or divides them.  Otherwise
it rounds the quotient of two natural numbers, after a test that the exponent is not far out of
range.  Either way it rounds once, so a decimal in the interval of a magnitude is read as that
magnitude (`ofScientific_eq`).
-/

namespace Conic.Decimal

open Float.Model Float.Model.UnpackedFloat

variable {x : Dyadic} {y : ℚ} {m : ℕ} {e : ℤ}

/-! ## Bounds -/

theorem Dyadic.Attracts.lt (hy : x.Attracts y) (hx : x.Canonical) : y < 10 ^ (400 : ℤ) := by
  have hfactor : (x.m : ℚ) + 1 ≤ 2 ^ 53 := by exact_mod_cast hx.lt
  have hunit : (2 : ℚ) ^ x.q ≤ 2 ^ (971 : ℤ) := zpow_le_zpow_right₀ one_le_two hx.q_le
  have hgreatest : x.greatest ≤ 2 ^ 53 * 2 ^ (971 : ℤ) := by
    rw [greatest]
    exact mul_le_mul (by linarith) hunit (by positivity) (by positivity)
  have hpow : 2 ^ 53 * 2 ^ 971 < 10 ^ 400 := by decide +kernel
  refine (hy.le_greatest.trans hgreatest).trans_lt ?_
  rw [zpow_ofNat, zpow_ofNat]
  exact_mod_cast hpow

theorem Dyadic.Attracts.gt (hy : x.Attracts y) (hx : x.Canonical) (hpos : 0 < x.m) :
    10 ^ (-400 : ℤ) < y := by
  have hfactor : (1 : ℚ) ≤ x.m := by exact_mod_cast hpos
  have hunit : (2 : ℚ) ^ (-1074 : ℤ) ≤ 2 ^ x.q := zpow_le_zpow_right₀ one_le_two hx.le_q
  have hleast : 1 / 2 * 2 ^ (-1074 : ℤ) ≤ x.least := by
    rw [least]
    refine mul_le_mul ?_ hunit (by positivity) ?_
    all_goals split <;> linarith
  have hpow : 2 * 2 ^ 1074 < 10 ^ 400 := by decide +kernel
  have hpow' : (2 * 2 ^ 1074 : ℚ) < 10 ^ 400 := by exact_mod_cast hpow
  refine lt_of_lt_of_le ?_ (hleast.trans hy.least_le)
  rw [zpow_neg, zpow_neg, zpow_ofNat, zpow_ofNat, one_div, ← mul_inv]
  exact inv_strictAnti₀ (by positivity) hpow'

/-- A decimal that rounds to a magnitude is neither too large nor too small. -/
theorem Dyadic.Attracts.exponent_lt (hy : x.Attracts (m * 10 ^ e)) (hx : x.Canonical) {k : ℕ}
    (hk : 10 ^ k ≤ m) : e + k < 400 := by
  have hk' : (10 : ℚ) ^ k ≤ m := by exact_mod_cast hk
  have hpow : (10 : ℚ) ^ (e + k) < 10 ^ (400 : ℤ) := by
    rw [zpow_add₀ (by norm_num), zpow_natCast, mul_comm]
    exact (mul_le_mul_of_nonneg_right hk' (by positivity)).trans_lt (hy.lt hx)
  exact (zpow_lt_zpow_iff_right₀ (by norm_num)).mp hpow

theorem Dyadic.Attracts.exponent_gt (hy : x.Attracts (m * 10 ^ e)) (hx : x.Canonical)
    (hpos : 0 < x.m) {k : ℕ} (hk : m < 10 ^ k) : -400 < e + k := by
  have hk' : (m : ℚ) ≤ 10 ^ k := by exact_mod_cast hk.le
  have hpow : (10 : ℚ) ^ (-400 : ℤ) < 10 ^ (e + k) := by
    rw [zpow_add₀ (by norm_num), zpow_natCast, mul_comm]
    exact (hy.gt hx hpos).trans_le (mul_le_mul_of_nonneg_right hk' (by positivity))
  exact (zpow_lt_zpow_iff_right₀ (by norm_num)).mp hpow

/-! ## Rounding a decimal -/

theorem unpacked_ofScientific (hx : x.Canonical) (hpos : 0 < x.m) (hm : 0 < m)
    (hy : x.Attracts (m * 10 ^ e)) :
    UnpackedFloat.ofScientific Format.binary64 m e = .finite .positive x.m x.q hpos := by
  have hupper : e + (0 : ℕ) < 400 := hy.exponent_lt hx hm
  have hlower : -400 < e + (m.log2 + 1 : ℕ) := by
    refine hy.exponent_gt hx hpos (Nat.lt_log2_self.trans_le ?_)
    exact Nat.pow_le_pow_left (by decide) _
  have hpower (n : ℕ) : 0 < 10 ^ n := Nat.pow_pos (by decide)
  rw [UnpackedFloat.ofScientific, dif_neg hm.ne', if_neg (by show ¬ 2 ^ 11 < e; omega),
    if_neg (by show ¬ e < -(2 ^ 11 + (m.log2 : ℤ)); omega)]
  split
  next he =>
    refine mul_of_attracts hx hpos _ (hpower _) (.inl ?_) ?_
    · show 2 ^ 52 ≤ (m <<< 53) * 10 ^ e.toNat
      rw [Nat.shiftLeft_eq]
      calc 2 ^ 52 ≤ 1 * 2 ^ 53 * 1 := by norm_num
        _ ≤ m * 2 ^ 53 * 10 ^ e.toNat := Nat.mul_le_mul (Nat.mul_le_mul_right _ hm) (hpower _)
    · have hten : (10 : ℚ) ^ e = 10 ^ e.toNat := by
        rw [← zpow_natCast, Int.toNat_of_nonneg he]
      have hvalue : ((m <<< 53 : ℕ) * 2 ^ (-53 : ℤ) * ((10 ^ e.toNat : ℕ) * 2 ^ (0 : ℤ)) : ℚ) =
          m * 10 ^ e := by
        rw [Nat.shiftLeft_eq, hten]
        push_cast
        rw [zpow_neg, zpow_ofNat]
        ring
      rwa [← hvalue] at hy
  next he =>
    refine div_of_attracts hx hpos hm (hpower _) ?_
    have hten : (10 : ℚ) ^ e = ((10 ^ (-e).toNat : ℕ) : ℚ)⁻¹ := by
      rw [Nat.cast_pow, Nat.cast_ofNat, ← zpow_natCast, Int.toNat_of_nonneg (by omega), zpow_neg,
        inv_inv]
    rwa [zpow_zero, mul_one, mul_one, div_eq_mul_inv, ← hten]

/-! ## Small decimals -/

/-- A natural number of at most 53 bits, as a magnitude. -/
def wholeMagnitude (n : ℕ) : Dyadic :=
  ⟨n <<< (52 - n.log2), n.log2 - 52, n <<< (52 - n.log2) == 2 ^ 52⟩

theorem canonical_wholeMagnitude {n : ℕ} (hn : 0 < n) (h : n < 2 ^ 53) :
    (wholeMagnitude n).Canonical := by
  have hlog := (Nat.log2_lt hn.ne').mpr h
  have hbits : 2 ^ 52 ≤ n <<< (52 - n.log2) ∧ n <<< (52 - n.log2) < 2 ^ 53 := by
    rw [Nat.shiftLeft_eq]
    have hpow : 2 ^ n.log2 * 2 ^ (52 - n.log2) = 2 ^ 52 := by
      rw [← pow_add]
      congr 1
      omega
    have hlow := Nat.mul_le_mul_right (2 ^ (52 - n.log2)) (Nat.log2_self_le hn.ne')
    have hhigh := Nat.mul_lt_mul_of_pos_right (Nat.lt_log2_self (n := n))
      (Nat.pow_pos two_pos (n := 52 - n.log2))
    rw [pow_succ, mul_right_comm, hpow] at hhigh
    exact ⟨hpow ▸ hlow, hhigh⟩
  refine ⟨hbits.2, ?_, ?_, .inl hbits.1, ?_⟩
  · show (-1074 : ℤ) ≤ n.log2 - 52
    omega
  · show (n.log2 : ℤ) - 52 ≤ 971
    omega
  · show (n <<< (52 - n.log2) == 2 ^ 52) = true ↔ _
    rw [beq_iff_eq]
    refine ⟨fun heq => ⟨heq, ?_⟩, And.left⟩
    show (-1074 : ℤ) < n.log2 - 52
    omega

theorem value_wholeMagnitude {n : ℕ} (hn : 0 < n) (h : n < 2 ^ 53) :
    (wholeMagnitude n).value = n := by
  have hlog := (Nat.log2_lt hn.ne').mpr h
  have hexponent : (n.log2 : ℤ) - 52 = -((52 - n.log2 : ℕ) : ℤ) := by omega
  rw [Dyadic.value, wholeMagnitude, hexponent, Nat.shiftLeft_eq, zpow_neg, zpow_natCast]
  push_cast
  field_simp

/-- A natural number of at most 53 bits is converted without rounding. -/
theorem unpack_toFloat {n : ℕ} (hn : 0 < n) (h : n < 2 ^ 53) :
    ∃ hpos : 0 < (wholeMagnitude n).m, n.toUInt64.toFloat.toModel.unpack =
      .finite .positive (wholeMagnitude n).m (wholeMagnitude n).q hpos := by
  have hcanonical := canonical_wholeMagnitude hn h
  have hlog := (Nat.log2_lt hn.ne').mpr h
  have hbits : 2 ^ 52 ≤ (wholeMagnitude n).m := by
    refine hcanonical.normal.resolve_right fun hq => ?_
    change (n.log2 : ℤ) - 52 = -1074 at hq
    omega
  have hpos : 0 < (wholeMagnitude n).m := (Nat.pow_pos two_pos).trans_le hbits
  refine ⟨hpos, ?_⟩
  have htoNat : n.toUInt64.toNat = n := by
    rw [Nat.toUInt64_eq, UInt64.toNat_ofNat']
    omega
  have hround : UnpackedFloat.round Format.binary64 .positive n 0 =
      .finite .positive (wholeMagnitude n).m (wholeMagnitude n).q hpos := by
    have hprecise : Precise ((wholeMagnitude n).m / 1) (wholeMagnitude n).q := by
      rw [Nat.div_one]
      exact .inl hbits
    have hvalue : (((wholeMagnitude n).m : ℚ) / (1 : ℕ)) * 2 ^ (wholeMagnitude n).q =
        (wholeMagnitude n).value := by
      rw [Nat.cast_one, div_one, Dyadic.value]
    have hwhole := round_of_attracts hcanonical hpos one_pos .positive hprecise
      (hvalue ▸ (wholeMagnitude n).attracts_value)
    rw [Nat.div_one, Nat.mod_one] at hwhole
    have htarget : max ((n.log2 : ℤ) + 0 - 52) (-1074) = n.log2 - 52 := by omega
    have hshift : (0 - ((n.log2 : ℤ) - 52)).toNat = 52 - n.log2 := by omega
    have hexponent : (0 : ℤ) - (52 - n.log2 : ℕ) = n.log2 - 52 := by omega
    rw [UnpackedFloat.round, targetExponent_eq, htarget]
    simp only [decreaseExponent, hshift, hexponent]
    exact hwhole
  show (Float.Model.pack
    (UnpackedFloat.normalize Format.binary64 (n.toUInt64.toNat : ℤ) 0 _)).unpack = _
  rw [htoNat, UnpackedFloat.normalize]
  have hcompare : compare (n : ℤ) 0 = .gt := Int.compare_eq_gt.mpr (by omega)
  simp only [hcompare, Int.toNat_natCast, hround]
  exact unpack_pack hcanonical hpos _

/-- The value is the power of ten, with all bits of a mantissa. -/
def isPowerOfTen (k : ℕ) : UnpackedFloat → Bool
  | .finite .positive m e _ =>
    decide (2 ^ 52 ≤ m ∧ -52 ≤ e ∧ m * 2 ^ (e + 52).toNat = 10 ^ k * 2 ^ 52)
  | _ => false

theorem isPowerOfTen_unpack : ∀ k (hk : k < Float.exactlyRepresentablePowersOfTen.size),
    isPowerOfTen k (Float.exactlyRepresentablePowersOfTen[k]).toModel.unpack = true := by
  decide +kernel

/-- The table of powers of ten is exact. -/
theorem exists_unpack_power {k : ℕ} (hk : k < Float.exactlyRepresentablePowersOfTen.size) :
    ∃ n t, ∃ hn : 0 < n, (Float.exactlyRepresentablePowersOfTen[k]).toModel.unpack =
      .finite .positive n t hn ∧ 2 ^ 52 ≤ n ∧ (n * 2 ^ t : ℚ) = 10 ^ k := by
  have hpower := isPowerOfTen_unpack k hk
  cases hunpack : (Float.exactlyRepresentablePowersOfTen[k]).toModel.unpack with
  | finite sign n t hn =>
    rw [hunpack] at hpower
    cases sign with
    | negative => cases hpower
    | positive =>
      obtain ⟨hbits, ht, hvalue⟩ := of_decide_eq_true hpower
      have hvalue' : (n : ℚ) * 2 ^ (t + 52).toNat = 10 ^ k * 2 ^ 52 := by exact_mod_cast hvalue
      rw [← zpow_natCast, Int.toNat_of_nonneg (by omega), zpow_add₀ two_ne_zero, zpow_ofNat,
        ← mul_assoc] at hvalue'
      exact ⟨n, t, hn, rfl, hbits, mul_right_cancel₀ (by positivity) hvalue'⟩
  | _ => rw [hunpack] at hpower; cases hpower

/-- A decimal that rounds to a magnitude is read as this magnitude. -/
theorem ofScientific_eq (hx : x.Canonical) (hpos : 0 < x.m) (hm : 0 < m)
    (hy : x.Attracts (m * 10 ^ e)) : Float.ofScientific m (decide (e < 0)) e.natAbs =
      .ofModel (.pack (.finite .positive x.m x.q hpos)) := by
  rw [Float.ofScientific]
  split
  next hsmall =>
    obtain ⟨hm', hpos', hwhole⟩ : ∃ h : m < 2 ^ 53, _ := ⟨hsmall.1, unpack_toFloat hm hsmall.1⟩
    have hvalue := value_wholeMagnitude hm hm'
    rw [Dyadic.value] at hvalue
    obtain ⟨n, t, hn, hpower, hbits, hten⟩ :=
      exists_unpack_power (k := e.natAbs) (by simp [Float.exactlyRepresentablePowersOfTen]; omega)
    split
    next he =>
      rw [decide_eq_true_eq] at he
      have hexponent : (10 : ℚ) ^ e = (10 ^ e.natAbs)⁻¹ := by
        rw [← zpow_natCast, ← zpow_neg]
        congr 1
        omega
      show Float.ofModel (.pack (UnpackedFloat.div _ (Float.toModel _).unpack
        (Float.toModel _).unpack)) = _
      rw [hwhole, hpower, div_of_attracts hx hpos]
      rwa [hvalue, hten, div_eq_mul_inv, ← hexponent]
    next he =>
      rw [decide_eq_true_eq] at he
      have hexponent : (10 : ℚ) ^ e = 10 ^ e.natAbs := by
        rw [← zpow_natCast]
        congr 1
        omega
      show Float.ofModel (.pack (UnpackedFloat.mul _ (Float.toModel _).unpack
        (Float.toModel _).unpack)) = _
      rw [hwhole, hpower, mul_of_attracts hx hpos _ _ (.inl (hbits.trans _))]
      · rwa [hvalue, hten, ← hexponent]
      · exact Nat.le_mul_of_pos_left n hpos'
  next =>
    have hsigned : (if decide (e < 0) = true then Int.negOfNat e.natAbs
        else Int.ofNat e.natAbs) = e := by
      split
      next he =>
        rw [decide_eq_true_eq] at he
        rw [Int.negOfNat_eq, Int.ofNat_eq_natCast]
        omega
      next he =>
        rw [decide_eq_true_eq] at he
        exact Int.natAbs_of_nonneg (by omega)
    simp only [hsigned]
    show Float.ofModel (.pack (UnpackedFloat.ofScientific Format.binary64 m e)) = _
    rw [unpacked_ofScientific hx hpos hm hy]

end Conic.Decimal
