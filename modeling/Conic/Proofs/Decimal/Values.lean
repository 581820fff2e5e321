import Conic.Proofs.Decimal.Interval
import Conic.Decimal.Layout

/-!
# The bits of finite values

A finite value is made of a sign, an exponent and a fraction.  `Dyadic.ofFloat` reads its
magnitude off its bits, and the operations on values take it apart and put it together again.
Both agree: a magnitude of a finite value is canonical (`canonical_ofFloat`), a canonical
magnitude survives being packed (`unpack_pack`), and a value is its magnitude with its sign
(`eq_of_ofFloat`, `eq_zero_of_ofFloat`).
-/

namespace Conic.Decimal

open Float.Model Float.Model.UnpackedFloat

/-! ## Bits -/

section

variable (b : BitVec Format.binary64.numBits)

theorem toNat_unpackExponent : (unpackExponent b).toNat = b.toNat / 2 ^ 52 % 2 ^ 11 := by
  simp [unpackExponent, Nat.shiftRight_eq_div_pow]

theorem toNat_unpackMantissa : (unpackMantissa b).toNat = b.toNat % 2 ^ 52 := by
  simp [unpackMantissa]

theorem toNat_unpackSign : (unpackSign b).toNat = b.toNat / 2 ^ 63 := by
  have hlt : b.toNat < 2 ^ 64 := b.isLt
  simp [unpackSign, Nat.shiftRight_eq_div_pow]
  omega

end

theorem toNat_append {m n : ℕ} (a : BitVec m) (b : BitVec n) :
    (a ++ b).toNat = a.toNat * 2 ^ n + b.toNat := by
  rw [BitVec.toNat_append, ← Nat.shiftLeft_add_eq_or_of_lt b.isLt, Nat.shiftLeft_eq]

theorem toNat_packComponents (s : Sign) (e : BitVec 11) (f : BitVec 52) :
    (packComponents Format.binary64 s e f).toNat =
      s.toBitVec.toNat * 2 ^ 63 + e.toNat * 2 ^ 52 + f.toNat := by
  rw [packComponents, toNat_append, toNat_append]
  ring

/-- The sign of a value with the given bits. -/
def signOf (bits : ℕ) : Sign := if 2 ^ 63 ≤ bits then .negative else .positive

theorem ofBitVec_unpackSign (b : BitVec Format.binary64.numBits) :
    Sign.ofBitVec (unpackSign b) = signOf b.toNat := by
  have hlt : b.toNat < 2 ^ 64 := b.isLt
  have hsign := toNat_unpackSign b
  rw [Sign.ofBitVec, signOf]
  by_cases h : 2 ^ 63 ≤ b.toNat
  · rw [if_pos h, if_neg]
    rintro heq
    rw [heq] at hsign
    simp at hsign
    omega
  · rw [if_neg h, if_pos]
    refine BitVec.eq_of_toNat_eq ?_
    rw [hsign]
    simp
    omega

theorem finite_congr {s s' : Sign} {m m' : ℕ} {e e' : ℤ} (hs : s = s') (hm : m = m') (he : e = e')
    (h : 0 < m) (h' : 0 < m') : UnpackedFloat.finite s m e h = .finite s' m' e' h' := by
  subst hs hm he
  rfl

/-- A finite value in parts. -/
theorem unpack_eq (b : BitVec Format.binary64.numBits)
    (hfinite : b.toNat / 2 ^ 52 % 2 ^ 11 ≠ 2047) :
    UnpackedFloat.unpack Format.binary64 b = if b.toNat / 2 ^ 52 % 2 ^ 11 = 0 then
        if h : b.toNat % 2 ^ 52 = 0 then .zero (signOf b.toNat)
        else .finite (signOf b.toNat) (b.toNat % 2 ^ 52) (-1074) (Nat.pos_of_ne_zero h)
      else .finite (signOf b.toNat) (2 ^ 52 + b.toNat % 2 ^ 52)
        ((b.toNat / 2 ^ 52 % 2 ^ 11 : ℕ) - 1075) (by omega) := by
  have hexponent := toNat_unpackExponent b
  have hmantissa := toNat_unpackMantissa b
  have hsign := ofBitVec_unpackSign b
  have hbias : (Format.binary64.exponentBias : ℤ) = 1023 := rfl
  have hlast : unpackExponent b ≠ -1#11 := fun heq => by
    rw [heq] at hexponent
    exact hfinite hexponent.symm
  rw [UnpackedFloat.unpack, if_neg hlast]
  by_cases hzero : b.toNat / 2 ^ 52 % 2 ^ 11 = 0
  · have hfirst : unpackExponent b = 0#11 := BitVec.eq_of_toNat_eq (hexponent.trans hzero)
    rw [if_pos hfirst, if_pos hzero]
    by_cases hfraction : b.toNat % 2 ^ 52 = 0
    · have hnone : unpackMantissa b = 0#52 := BitVec.eq_of_toNat_eq (hmantissa.trans hfraction)
      rw [dif_pos hnone, dif_pos hfraction, hsign]
    · have hsome : unpackMantissa b ≠ 0#52 := fun heq => by
        rw [heq] at hmantissa
        exact hfraction hmantissa.symm
      rw [dif_neg hsome, dif_neg hfraction]
      refine finite_congr hsign hmantissa ?_ _ _
      rw [hexponent, hzero, hbias]
      rfl
  · have hfirst : unpackExponent b ≠ 0#11 := fun heq => by
      rw [heq] at hexponent
      exact hzero hexponent.symm
    rw [if_neg hfirst, if_neg hzero]
    refine finite_congr hsign ?_ ?_ _ _
    · rw [toNat_append, hmantissa]
      rfl
    · rw [hexponent, hbias]
      rfl

variable {x : Dyadic}

/-- The bits of a finite value. -/
theorem toNat_pack (hx : x.Canonical) (hpos : 0 < x.m) (s : Sign) :
    (UnpackedFloat.pack Format.binary64 (.finite s x.m x.q hpos)).toNat =
      s.toBitVec.toNat * 2 ^ 63 + ((x.q + 1074).toNat * 2 ^ 52 + x.m) := by
  obtain ⟨hm, hq, hq', hnormal, -⟩ := hx
  have hbias : (Format.binary64.exponentBias : ℤ) = 1023 := rfl
  have hexponent : (x.q + Format.binary64.exponentBias +
      (Format.binary64.mantissaBitsWithoutImplicit : ℕ)).toNat = (x.q + 1075).toNat := by
    rw [hbias]
    show (x.q + 1023 + (52 : ℕ)).toNat = _
    omega
  have hlog : x.m.log2 + 1 = Format.binary64.mantissaBits ↔ 2 ^ 52 ≤ x.m := by
    show x.m.log2 + 1 = 53 ↔ _
    rw [← Nat.le_log2 hpos.ne']
    have := (Nat.log2_lt hpos.ne').mpr hm
    omega
  rw [UnpackedFloat.pack]
  simp only [hexponent, hlog]
  rw [if_neg (by show ¬ 2 ^ 11 ≤ _; omega)]
  split
  next hwhole =>
    rw [toNat_packComponents, BitVec.toNat_ofNat, BitVec.toNat_ofNat]
    omega
  next hsubnormal =>
    rw [toNat_packComponents, BitVec.toNat_ofNat]
    simp
    omega

theorem toBitVec_toNat (s : Sign) :
    s.toBitVec.toNat = 0 ∧ s = .positive ∨ s.toBitVec.toNat = 1 ∧ s = .negative := by
  cases s
  · exact .inr ⟨rfl, rfl⟩
  · exact .inl ⟨rfl, rfl⟩

/-- A finite value has the parts from which it was made. -/
theorem unpack_pack (hx : x.Canonical) (hpos : 0 < x.m) (s : Sign) :
    (Float.Model.pack (.finite s x.m x.q hpos)).unpack = .finite s x.m x.q hpos := by
  show UnpackedFloat.unpack Format.binary64 (UnpackedFloat.pack Format.binary64 _) = _
  have hbits := toNat_pack hx hpos s
  generalize UnpackedFloat.pack Format.binary64 (.finite s x.m x.q hpos) = b at hbits ⊢
  obtain ⟨hm, hq, hq', hnormal, -⟩ := hx
  have hsign : signOf b.toNat = s := by
    rw [signOf]
    rcases toBitVec_toNat s with ⟨h, rfl⟩ | ⟨h, rfl⟩
    · rw [if_neg (by omega)]
    · rw [if_pos (by omega)]
  rcases toBitVec_toNat s with ⟨h, -⟩ | ⟨h, -⟩
  all_goals
    rw [h] at hbits
    rw [unpack_eq b (by omega)]
    split
    next hzero =>
      rw [dif_neg (by omega)]
      exact finite_congr hsign (by omega) (by omega) _ _
    next hzero => exact finite_congr hsign (by omega) (by omega) _ _

/-! ## Finite values -/

theorem eq_of_toBits : ∀ {x y : Float}, x.toBits.toNat = y.toBits.toNat → x = y
  | ⟨⟨bits, _⟩⟩, ⟨⟨bits', _⟩⟩, h => by
    obtain rfl : bits = bits' := UInt64.toNat_inj.mp h
    rfl

variable {x : Float}

theorem exponent_of_isFinite (hx : x.isFinite = true) :
    x.toBits.toNat / 2 ^ 52 % 2 ^ 11 ≠ 2047 := by
  intro h
  obtain ⟨b, hb⟩ : ∃ b : BitVec Format.binary64.numBits, x.toBits.toBitVec = b := ⟨_, rfl⟩
  have hlast : unpackExponent b = -1#11 :=
    BitVec.eq_of_toNat_eq ((toNat_unpackExponent b).trans (hb ▸ h))
  change (UnpackedFloat.unpack Format.binary64 x.toBits.toBitVec).isFinite = true at hx
  rw [hb, UnpackedFloat.unpack, if_pos hlast] at hx
  split at hx <;> cases hx

theorem canonical_ofFloat (hx : x.isFinite = true) : (Dyadic.ofFloat x).Canonical := by
  have hexponent := exponent_of_isFinite hx
  simp only [Dyadic.ofFloat, Nat.pow_eq]
  split
  next => exact ⟨by simp; omega, by simp, by simp, .inr rfl, by simp⟩
  next =>
    refine ⟨by simp; omega, by simp; omega, by simp; omega, .inl (by simp), ?_⟩
    simp
    omega

theorem toBits_lt (x : Float) : x.toBits.toNat < 2 ^ 64 := x.toBits.toNat_lt

theorem toBitVec_signOf (x : Float) :
    (signOf x.toBits.toNat).toBitVec.toNat = x.toBits.toNat / 2 ^ 63 := by
  have hlt := toBits_lt x
  rw [signOf]
  split
  · show 1 = _
    omega
  · show 0 = _
    omega

/-- A value that is not zero is made of its sign and its magnitude. -/
theorem ofModel_pack (hx : x.isFinite = true) (hpos : 0 < (Dyadic.ofFloat x).m) :
    Float.ofModel (.pack (.finite (signOf x.toBits.toNat) (Dyadic.ofFloat x).m (Dyadic.ofFloat x).q
      hpos)) = x := by
  refine eq_of_toBits ((toNat_pack (canonical_ofFloat hx) hpos _).trans ?_)
  have hlt := toBits_lt x
  rw [toBitVec_signOf, Dyadic.ofFloat]
  split
  next hzero =>
    rw [Nat.pow_eq, Nat.pow_eq] at hzero
    show _ + (0 * 2 ^ 52 + x.toBits.toNat % 2 ^ 52) = _
    omega
  next hzero =>
    rw [Nat.pow_eq, Nat.pow_eq] at hzero
    show _ + ((((x.toBits.toNat / 2 ^ 52 % 2 ^ 11 : ℕ) : ℤ) - 1075 + 1074).toNat * 2 ^ 52 +
      (2 ^ 52 + x.toBits.toNat % 2 ^ 52)) = _
    omega

/-- A value of magnitude zero is one of the two zeros. -/
theorem eq_zero_of_ofFloat (hzero : (Dyadic.ofFloat x).m = 0) :
    x = if isNegative x then -0 else 0 := by
  have hlt := toBits_lt x
  have hbits : x.toBits.toNat = x.toBits.toNat / 2 ^ 63 * 2 ^ 63 := by
    simp only [Dyadic.ofFloat, Nat.pow_eq] at hzero
    split at hzero
    · simp only at hzero
      omega
    · simp at hzero
  have hminus : (-0 : Float).toBits.toNat = 2 ^ 63 := by decide +kernel
  have hplus : (0 : Float).toBits.toNat = 0 := by decide +kernel
  refine eq_of_toBits ?_
  cases hsign : isNegative x with
  | true =>
    have hle : 2 ^ 63 ≤ x.toBits.toNat := by simpa [isNegative] using hsign
    rw [if_pos rfl, hminus]
    omega
  | false =>
    have hlt' : x.toBits.toNat < 2 ^ 63 := by simpa [isNegative] using hsign
    rw [if_neg Bool.false_ne_true, hplus]
    omega

/-- A value that is not zero is its magnitude, or the opposite of it. -/
theorem eq_of_ofFloat (hx : x.isFinite = true) (hpos : 0 < (Dyadic.ofFloat x).m) :
    let y := Float.ofModel
      (.pack (.finite .positive (Dyadic.ofFloat x).m (Dyadic.ofFloat x).q hpos))
    x = if isNegative x then -y else y := by
  intro y
  have hmade := ofModel_pack hx hpos
  have hneg : -y = Float.ofModel (.pack (.finite .negative (Dyadic.ofFloat x).m
      (Dyadic.ofFloat x).q hpos)) := by
    show Float.ofModel (.pack (UnpackedFloat.neg (Float.Model.pack _).unpack)) = _
    rw [unpack_pack (canonical_ofFloat hx) hpos]
    rfl
  rw [signOf] at hmade
  rw [isNegative, hneg, Nat.pow_eq]
  split at hmade
  next h => rw [if_pos (decide_eq_true h), hmade]
  next h => exact (hmade.symm.trans (if_neg (by simpa using h)).symm)

end Conic.Decimal
