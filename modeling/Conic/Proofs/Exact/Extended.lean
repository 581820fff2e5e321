import Conic.Proofs.Decimal.Values
import Conic.Proofs.Settings

/-!
# Arithmetics with infinities

`Extended` is what a statement about infinite and undefined values needs of an
arithmetic.  A value stands for an extended real number or for no number at all, and
comparisons are those of the numbers: a value that is no number compares with
nothing.  Nothing is said of the operations, so their results may be rounded in
whatever way.

Floating point values are such an arithmetic.  They are compared by sign, exponent
and mantissa.  This is the order of the numbers because each mantissa has all its
bits unless the exponent is the least one (`Floats.then_compare_eq`).
-/

namespace Conic

/-- An arithmetic whose values are real numbers, infinities and undefined values, compared as
such. -/
class Extended (α : Type) [Scalar α] where
  /-- The number that a value stands for, if it is a number. -/
  denote : α → Option EReal
  /-- The strict order is that of the numbers. -/
  lt_iff : ∀ {x y : α}, x < y ↔ ∃ a b, denote x = some a ∧ denote y = some b ∧ a < b
  /-- The order is that of the numbers. -/
  le_iff : ∀ {x y : α}, x ≤ y ↔ ∃ a b, denote x = some a ∧ denote y = some b ∧ a ≤ b
  /-- The finite values are the real numbers. -/
  isFinite_iff : ∀ {x : α}, Scalar.isFinite x = true ↔ ∃ r : ℝ, denote x = some (r : EReal)
  /-- Zero is zero. -/
  denote_zero : denote (0 : α) = some 0

/-! ## Floating point -/

namespace Floats

open Float.Model

/-- The number that a value made of the given parts stands for. -/
noncomputable def number : UnpackedFloat → Option EReal
  | .notANumber => none
  | .infinity .positive => some ⊤
  | .infinity .negative => some ⊥
  | .zero _ => some 0
  | .finite .positive m e _ => some ((m * (2 : ℕ) ^ e : ℝ) : EReal)
  | .finite .negative m e _ => some ((-(m * (2 : ℕ) ^ e) : ℝ) : EReal)

/-- A mantissa has all its bits unless the exponent is the least one. -/
def Normal (m : ℕ) (e : ℤ) : Prop := m < 2 ^ 53 ∧ -1074 ≤ e ∧ (2 ^ 52 ≤ m ∨ e = -1074)

/-- The mantissa of a value that has one. -/
def Normalized : UnpackedFloat → Prop
  | .finite _ m e _ => Normal m e
  | _ => True

theorem normalized_unpack (x : Float) : Normalized x.toModel.unpack := by
  cases hx : x.isFinite with
  | false =>
    change x.toModel.unpack.isFinite = false at hx
    cases hparts : x.toModel.unpack with
    | finite => rw [hparts] at hx; cases hx
    | _ => trivial
  | true =>
    have hexponent := Decimal.exponent_of_isFinite hx
    obtain ⟨b, hb⟩ : ∃ b : BitVec Format.binary64.numBits, x.toBits.toBitVec = b := ⟨_, rfl⟩
    have hbits : x.toBits.toNat = b.toNat := congrArg BitVec.toNat hb
    rw [hbits] at hexponent
    show Normalized (UnpackedFloat.unpack Format.binary64 x.toBits.toBitVec)
    rw [hb, Decimal.unpack_eq b hexponent]
    split
    · split
      · trivial
      · exact ⟨by omega, le_rfl, .inr rfl⟩
    · exact ⟨by omega, by omega, .inl (by omega)⟩

theorem mul_zpow_lt {m₁ m₂ : ℕ} {e₁ e₂ : ℤ} (h₁ : Normal m₁ e₁) (h₂ : Normal m₂ e₂)
    (he : e₁ < e₂) : (m₁ * 2 ^ e₁ : ℝ) < m₂ * 2 ^ e₂ := by
  have hm₁ : (m₁ : ℝ) < 2 ^ 53 := mod_cast h₁.1
  have hm₂ : (2 ^ 52 : ℝ) ≤ m₂ := by
    have := h₁.2.1
    exact mod_cast h₂.2.2.resolve_right (by omega)
  calc (m₁ * 2 ^ e₁ : ℝ)
    _ < 2 ^ 53 * 2 ^ e₁ := by gcongr
    _ = 2 ^ 52 * 2 ^ (e₁ + 1) := by
      rw [zpow_add_one₀ two_ne_zero]
      ring
    _ ≤ m₂ * 2 ^ e₂ := by
      gcongr
      · exact one_le_two
      · exact he

/-- Comparing exponents and then mantissas compares the numbers. -/
theorem then_compare_eq {m₁ m₂ : ℕ} {e₁ e₂ : ℤ} (h₁ : Normal m₁ e₁) (h₂ : Normal m₂ e₂) :
    (compare e₁ e₂).then (compare m₁ m₂) = cmp (m₁ * 2 ^ e₁ : ℝ) (m₂ * 2 ^ e₂) := by
  rcases lt_trichotomy e₁ e₂ with he | rfl | he
  · rw [compare_lt_iff_lt.mpr he, (cmp_eq_lt_iff _ _).mpr (mul_zpow_lt h₁ h₂ he)]
    rfl
  · have hmono : StrictMono fun m : ℕ => (m * 2 ^ e₁ : ℝ) := fun m m' h => by
      have : (0 : ℝ) < 2 ^ e₁ := by positivity
      dsimp only
      gcongr
    rw [compare_eq_iff_eq.mpr rfl, Ordering.eq_then, ← cmp_eq_compare]
    exact (hmono.cmp_map_eq m₁ m₂).symm
  · rw [compare_gt_iff_gt.mpr he, (cmp_eq_gt_iff _ _).mpr (mul_zpow_lt h₂ h₁ he)]
    rfl

theorem mul_zpow_pos {m : ℕ} (hm : 0 < m) (e : ℤ) : (0 : ℝ) < m * 2 ^ e := by positivity

/-- Values are compared as the numbers that they stand for. -/
theorem compare_eq {a b : UnpackedFloat} (ha : Normalized a) (hb : Normalized b) :
    a.compare b = (number a).bind fun u => (number b).map fun v => cmp u v := by
  have hreal (r s : ℝ) : cmp (r : EReal) s = cmp r s := EReal.coe_strictMono.cmp_map_eq r s
  have hlt {u v : EReal} (h : u < v) : Ordering.lt = cmp u v := ((cmp_eq_lt_iff u v).mpr h).symm
  have hgt {u v : EReal} (h : v < u) : Ordering.gt = cmp u v := ((cmp_eq_gt_iff u v).mpr h).symm
  have hpos {m : ℕ} (hm : 0 < m) (e : ℤ) : (0 : EReal) < (m * 2 ^ e : ℝ) :=
    EReal.coe_pos.mpr (mul_zpow_pos hm e)
  have hneg {m : ℕ} (hm : 0 < m) (e : ℤ) : ((-(m * 2 ^ e) : ℝ) : EReal) < 0 :=
    EReal.coe_neg'.mpr (neg_neg_of_pos (mul_zpow_pos hm e))
  rcases a with (_ | _) | _ | _ | ⟨_ | _, m₁, e₁, hm₁⟩ <;>
    rcases b with (_ | _) | _ | _ | ⟨_ | _, m₂, e₂, hm₂⟩ <;>
    simp only [UnpackedFloat.compare, number, Option.bind_some, Option.bind_none, Option.map_some,
      Option.map_none, Option.some.injEq, Nat.cast_ofNat]
  -- numbers of one sign are compared by their parts
  case finite.negative.finite.negative =>
    rw [hreal, then_compare_eq ha hb, cmp_swap]
    simpa using (cmp_mul_neg_left neg_one_lt_zero (m₁ * 2 ^ e₁ : ℝ) (m₂ * 2 ^ e₂)).symm
  case finite.positive.finite.positive => exact (then_compare_eq ha hb).trans (hreal _ _).symm
  -- all others are told apart by their kinds and signs
  all_goals first
    | exact (cmp_self_eq_eq _).symm
    | exact hlt bot_lt_top
    | exact hgt bot_lt_top
    | exact hlt (EReal.bot_lt_coe _)
    | exact hgt (EReal.bot_lt_coe _)
    | exact hlt (EReal.coe_lt_top _)
    | exact hgt (EReal.coe_lt_top _)
    | exact hlt (hpos hm₂ e₂)
    | exact hgt (hpos hm₁ e₁)
    | exact hlt (hneg hm₁ e₁)
    | exact hgt (hneg hm₂ e₂)
    | exact hlt ((hneg hm₁ e₁).trans (hpos hm₂ e₂))
    | exact hgt ((hneg hm₂ e₂).trans (hpos hm₁ e₁))

/-- The finite values stand for real numbers. -/
theorem isFinite_iff_number {a : UnpackedFloat} :
    a.isFinite = true ↔ ∃ r : ℝ, number a = some (r : EReal) := by
  rcases a with (_ | _) | _ | _ | ⟨_ | _, m, e, hm⟩
  case infinity.negative =>
    refine iff_of_false Bool.false_ne_true ?_
    rintro ⟨r, hr⟩
    exact EReal.coe_ne_bot r (Option.some.inj hr).symm
  case infinity.positive =>
    refine iff_of_false Bool.false_ne_true ?_
    rintro ⟨r, hr⟩
    exact EReal.coe_ne_top r (Option.some.inj hr).symm
  case notANumber => exact iff_of_false Bool.false_ne_true nofun
  case zero => exact iff_of_true rfl ⟨0, rfl⟩
  case finite.negative => exact iff_of_true rfl ⟨_, rfl⟩
  case finite.positive => exact iff_of_true rfl ⟨_, rfl⟩

end Floats

/-- Floating point values are compared as IEEE 754 asks. -/
noncomputable instance : Extended Float where
  denote x := Floats.number x.toModel.unpack
  lt_iff {x y} := by
    rw [Floats.lt_iff, Floats.compare_eq (Floats.normalized_unpack x) (Floats.normalized_unpack y)]
    simp [Option.bind_eq_some_iff, cmp_eq_lt_iff]
  le_iff {x y} := by
    rw [Floats.le_iff, Floats.compare_eq (Floats.normalized_unpack x) (Floats.normalized_unpack y)]
    have hle (u v : EReal) : (cmp u v).isLE = true ↔ u ≤ v :=
      Ordering.isLE_iff_ne_gt.trans (cmp_compares u v).ne_gt
    cases Floats.number x.toModel.unpack <;> cases Floats.number y.toModel.unpack <;> simp [hle]
  isFinite_iff {x} := Floats.isFinite_iff_number
  denote_zero := rfl

end Conic
