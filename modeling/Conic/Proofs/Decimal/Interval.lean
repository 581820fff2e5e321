import Mathlib
import Conic.Decimal.Digits

/-!
# The reals that round to a magnitude

`Dyadic.readsBack` compares natural numbers.  Here it is read as a statement about
rationals: the decimal lies in the interval that rounds to the magnitude
(`Dyadic.Attracts`, `Dyadic.readsBack_iff`).

`Digits.shortest` returns a decimal that has passed this test, without its trailing
zeros, or the exact value.  So the decimal that it returns always rounds to the magnitude
(`Digits.attracts_shortest`), whether or not seventeen digits are enough.
-/

namespace Conic.Decimal

/-- The value of a decimal. -/
def Digits.value (d : Digits) : ℚ := d.digits * 10 ^ d.exponent

namespace Dyadic

/-- The value of a magnitude. -/
def value (x : Dyadic) : ℚ := x.m * 2 ^ x.q

/-- Half way to the neighbour below. -/
def least (x : Dyadic) : ℚ := (x.m - if x.narrowBelow then 1 / 4 else 1 / 2) * 2 ^ x.q

/-- Half way to the neighbour above. -/
def greatest (x : Dyadic) : ℚ := (x.m + 1 / 2) * 2 ^ x.q

/-- A number rounds to the magnitude. -/
structure Attracts (x : Dyadic) (y : ℚ) : Prop where
  /-- It is not nearer to the neighbour below. -/
  least_le : x.least ≤ y
  /-- It is not nearer to the neighbour above. -/
  le_greatest : y ≤ x.greatest
  /-- It is nearer to an odd magnitude than to the neighbours. -/
  odd : x.m % 2 = 1 → x.least < y ∧ y < x.greatest

/-- The magnitudes of finite values.  The factor has 53 bits, or the exponent is the least
one. -/
structure Canonical (x : Dyadic) : Prop where
  /-- The factor has at most 53 bits. -/
  lt : x.m < 2 ^ 53
  /-- The exponent is not too small. -/
  le_q : -1074 ≤ x.q
  /-- The exponent is not too large. -/
  q_le : x.q ≤ 971
  /-- The factor has no fewer bits if the exponent can be smaller. -/
  normal : 2 ^ 52 ≤ x.m ∨ x.q = -1074
  /-- The gap below is narrow at the bottom of a binade. -/
  narrow : x.narrowBelow = true ↔ x.m = 2 ^ 52 ∧ -1074 < x.q

variable {x : Dyadic}

/-- A magnitude rounds to itself. -/
theorem attracts_value (x : Dyadic) : x.Attracts x.value := by
  have hpos : (0 : ℚ) < 2 ^ x.q := by positivity
  have hlow : x.least < x.value := by
    rw [least, value, sub_mul]
    split <;> linarith
  have hhigh : x.value < x.greatest := by
    rw [greatest, value, add_mul]
    linarith
  exact ⟨hlow.le, hhigh.le, fun _ => ⟨hlow, hhigh⟩⟩

theorem least_pos (hx : 0 < x.m) : 0 < x.least := by
  have hm : (1 : ℚ) ≤ x.m := by exact_mod_cast hx
  rw [least]
  refine mul_pos ?_ (by positivity)
  split <;> linarith

/-! ## Natural numbers -/

theorem pow_toNat_eq {b : ℚ} (hb : b ≠ 0) (n : ℤ) : b ^ n.toNat = b ^ n * b ^ (-n).toNat := by
  rw [← zpow_natCast, ← zpow_natCast, ← zpow_add₀ hb]
  congr 1
  omega

/-- The quotient of the two factors is that of the two units. -/
theorem up_eq (x : Dyadic) (g : ℤ) : (x.up g : ℚ) * 10 ^ g = 2 ^ x.q * x.down g := by
  have htwo := pow_toNat_eq (b := 2) two_ne_zero x.q
  have hten := pow_toNat_eq (b := 10) (by norm_num) (-g)
  simp only [up, down, Nat.pow_eq, Nat.cast_mul, Nat.cast_pow, Nat.cast_ofNat]
  rw [htwo, hten, neg_neg, zpow_neg]
  field_simp

theorem down_pos (x : Dyadic) (g : ℤ) : (0 : ℚ) < x.down g := by
  have hpos : 0 < x.down g := Nat.mul_pos (Nat.pow_pos two_pos) (Nat.pow_pos (by decide))
  exact_mod_cast hpos

section

variable (x : Dyadic) (a d : ℕ) (g : ℤ)

theorem quarters_eq : (a / 4 : ℚ) * 2 ^ x.q = (a * x.up g : ℕ) * (10 ^ g / (4 * x.down g)) := by
  have hup := x.up_eq g
  have hdown := (x.down_pos g).ne'
  push_cast
  field_simp
  linear_combination -(a : ℚ) * hup

theorem decimal_eq : (d * 10 ^ g : ℚ) = (4 * d * x.down g : ℕ) * (10 ^ g / (4 * x.down g)) := by
  have hdown := (x.down_pos g).ne'
  push_cast
  field_simp

theorem unit_pos : (0 : ℚ) < 10 ^ g / (4 * x.down g) := by
  have hdown := x.down_pos g
  positivity

/-- A decimal is compared with a number of quarters of the unit of the magnitude. -/
theorem quarters_le_iff : (a / 4 : ℚ) * 2 ^ x.q ≤ d * 10 ^ g ↔ a * x.up g ≤ 4 * d * x.down g := by
  rw [quarters_eq x a g, decimal_eq x d g, mul_le_mul_iff_of_pos_right (x.unit_pos g), Nat.cast_le]

theorem le_quarters_iff : (d * 10 ^ g : ℚ) ≤ a / 4 * 2 ^ x.q ↔ 4 * d * x.down g ≤ a * x.up g := by
  rw [quarters_eq x a g, decimal_eq x d g, mul_le_mul_iff_of_pos_right (x.unit_pos g), Nat.cast_le]

end

/-- The test of natural numbers says whether a decimal rounds to the magnitude. -/
theorem readsBack_iff (hx : 0 < x.m) {d : ℕ} {g : ℤ} :
    x.readsBack d g = true ↔ x.Attracts (d * 10 ^ g) := by
  set a := if x.narrowBelow then 4 * x.m - 1 else 4 * x.m - 2 with ha
  have hleast : x.least = (a / 4 : ℚ) * 2 ^ x.q := by
    rw [least, ha]
    congr 1
    split
    · rw [Nat.cast_sub (by omega)]
      push_cast
      ring
    · rw [Nat.cast_sub (by omega)]
      push_cast
      ring
  have hgreatest : x.greatest = ((4 * x.m + 2 : ℕ) / 4 : ℚ) * 2 ^ x.q := by
    rw [greatest]
    push_cast
    ring
  have hlow : x.least ≤ d * 10 ^ g ↔ a * x.up g ≤ 4 * d * x.down g := by
    rw [hleast, quarters_le_iff]
  have hhigh : d * 10 ^ g ≤ x.greatest ↔ 4 * d * x.down g ≤ (4 * x.m + 2) * x.up g := by
    rw [hgreatest, le_quarters_iff]
  have hlow' : x.least < d * 10 ^ g ↔ a * x.up g < 4 * d * x.down g := by
    rw [← not_le, ← not_le, hleast, le_quarters_iff]
  have hhigh' : d * 10 ^ g < x.greatest ↔ 4 * d * x.down g < (4 * x.m + 2) * x.up g := by
    rw [← not_le, ← not_le, hgreatest, quarters_le_iff]
  simp only [readsBack, ← ha]
  split
  next heven =>
    rw [decide_eq_true_eq, ← hlow, ← hhigh]
    exact ⟨fun h => ⟨h.1, h.2, fun hodd => by omega⟩, fun h => ⟨h.1, h.2⟩⟩
  next hodd =>
    rw [decide_eq_true_eq, ← hlow', ← hhigh']
    exact ⟨fun h => ⟨h.1.le, h.2.le, fun _ => h⟩, fun h => h.odd (by omega)⟩

end Dyadic

/-! ## The shortest digits -/

namespace Digits

theorem value_strip (fuel : ℕ) (d : Digits) : (strip fuel d).value = d.value := by
  induction fuel generalizing d with
  | zero => rfl
  | succ fuel ih =>
    rw [strip]
    split
    next hmod =>
      have hdigits : (d.digits : ℚ) = (d.digits / 10 : ℕ) * 10 := by
        exact_mod_cast (Nat.div_mul_cancel (Nat.dvd_of_mod_eq_zero hmod)).symm
      rw [ih, value, value, hdigits, zpow_add_one₀ (by norm_num)]
      ring
    next => rfl

theorem value_exact (x : Dyadic) : (exact x).value = x.value := by
  rw [exact, Dyadic.value]
  split
  next hq =>
    rw [value, zpow_zero, mul_one, Nat.cast_mul, Nat.pow_eq, Nat.cast_pow, Nat.cast_ofNat,
      ← zpow_natCast, Int.toNat_of_nonneg hq]
  next hq =>
    have hten : (10 : ℚ) ^ x.q = 2 ^ x.q * 5 ^ x.q := by
      rw [← mul_zpow]
      norm_num
    have hfive := Dyadic.pow_toNat_eq (b := 5) (by norm_num) (-x.q)
    rw [neg_neg, show x.q.toNat = 0 by omega, pow_zero, mul_one, zpow_neg] at hfive
    rw [value, Nat.cast_mul, Nat.pow_eq, Nat.cast_pow, Nat.cast_ofNat, hfive, hten]
    field_simp

theorem onGrid_readsBack {t : Tie} {x : Dyadic} {g : ℤ} {d : Digits} (h : onGrid t x g = some d) :
    x.readsBack d.digits d.exponent = true := by
  simp only [onGrid] at h
  split at h
  next hlow hhigh =>
    cases h
    rcases roundQuotient_eq_or t (x.m * x.up g) (x.down g) with hround | hround
    · simpa only [hround] using hlow
    · simpa only [hround] using hhigh
  next hlow _ => cases h; exact hlow
  next _ hhigh => cases h; exact hhigh
  next => cases h

/-- The shortest digits round to the magnitude. -/
theorem attracts_shortest (t : Tie) {x : Dyadic} (hx : 0 < x.m) :
    x.Attracts (shortest t x).value := by
  rw [shortest, if_neg hx.ne']
  simp only
  split
  next d hd =>
    obtain ⟨n, -, hn⟩ := List.exists_of_findSome?_eq_some hd
    rw [value_strip]
    exact (Dyadic.readsBack_iff hx).mp (onGrid_readsBack hn)
  next =>
    rw [value_exact]
    exact x.attracts_value

theorem shortest_pos (t : Tie) {x : Dyadic} (hx : 0 < x.m) : 0 < (shortest t x).digits := by
  have hvalue := (Dyadic.least_pos hx).trans_le (attracts_shortest t hx).least_le
  refine Nat.pos_of_ne_zero fun hzero => ?_
  rw [value, hzero, Nat.cast_zero, zero_mul] at hvalue
  exact hvalue.false

end Digits

end Conic.Decimal
