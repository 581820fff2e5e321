import Mathlib
import Conic.Scalar

/-!
# Exact arithmetic

The real numbers are a scalar type.  Every operation of the instance is the
exact one, so a statement about a program at `ℝ` is a statement about what the
program computes when no operation rounds.

All reals are finite numbers.  Two constants of `Scalar` have therefore no
counterpart among them: the distance from one to the next larger value, and a
value above every finite one.  Both are arguments of the instance, so that
statements hold whatever they are.

The lemmas of this module rewrite the operations of the class into those of the
reals.  Computations without square roots can also be made in the rational numbers
(`Scalar.rational`), where they can be evaluated.
-/

namespace Conic

/-- The constants of `Scalar` that the real numbers do not fix. -/
class Machine where
  /-- The distance from one to the next larger value. -/
  epsilon : ℝ
  /-- A value above every finite one. -/
  infinity : ℝ

/-- The constants of double precision.  Values from the second one on are
infinite there. -/
noncomputable abbrev Machine.double : Machine where
  epsilon := (1 + 1)⁻¹ ^ 52
  infinity := (1 + 1) ^ 1024

theorem Machine.epsilon_double : letI := Machine.double
    Machine.epsilon * Machine.epsilon < 2 := by
  show ((1 + 1)⁻¹ ^ 52 * (1 + 1)⁻¹ ^ 52 : ℝ) < 2
  norm_num

namespace Scalar

variable [Machine]

noncomputable instance real : Scalar ℝ where
  decidableLT _ _ := inferInstance
  decidableLE _ _ := inferInstance
  beq a b := decide (a = b)
  sqrt := Real.sqrt
  abs x := |x|
  minNum := min
  maxNum := max
  isFinite _ := true
  isNaN _ := false
  infinity := Machine.infinity
  epsilon := Machine.epsilon
  ofCount n := n

-- Arithmetic on `ℝ` is elaborated with the instances of the reals wherever they apply.
attribute [instance (50)] Scalar.toZero Scalar.toOne Scalar.toAdd Scalar.toSub Scalar.toMul
  Scalar.toDiv Scalar.toNeg Scalar.toOfScientific Scalar.toBEq Scalar.toLT Scalar.toLE

@[simp] theorem sqrt_real (x : ℝ) : Scalar.sqrt x = Real.sqrt x := rfl

@[simp] theorem abs_real (x : ℝ) : Scalar.abs x = |x| := rfl

@[simp] theorem minNum_real (x y : ℝ) : Scalar.minNum x y = min x y := rfl

@[simp] theorem maxNum_real (x y : ℝ) : Scalar.maxNum x y = max x y := rfl

@[simp] theorem isFinite_real (x : ℝ) : Scalar.isFinite x = true := rfl

@[simp] theorem isNaN_real (x : ℝ) : Scalar.isNaN x = false := rfl

@[simp] theorem ofCount_real (n : ℕ) : (Scalar.ofCount n : ℝ) = n := rfl

@[simp] theorem beq_real (x y : ℝ) : (@BEq.beq ℝ Scalar.toBEq x y) = decide (x = y) := rfl

@[simp] theorem recip_real (x : ℝ) : Scalar.recip x = x⁻¹ := one_div x

theorem cube_real (x : ℝ) : Scalar.cube x = x ^ 3 := by
  simp only [Scalar.cube]
  ring

/-! ## The numbers that the programs name -/

theorem ofScientific_real (m : ℕ) (sign : Bool) (e : ℕ) :
    (@OfScientific.ofScientific ℝ Scalar.toOfScientific m sign e) =
      OfScientific.ofScientific m sign e := rfl

@[simp] theorem two_real : (@OfScientific.ofScientific ℝ Scalar.toOfScientific 20 true 1) = 2 := by
  show (2.0 : ℝ) = 2
  norm_num

@[simp] theorem four_real :
    (@OfScientific.ofScientific ℝ Scalar.toOfScientific 40 true 1) = 4 := by
  show (4.0 : ℝ) = 4
  norm_num

@[simp] theorem half_real :
    (@OfScientific.ofScientific ℝ Scalar.toOfScientific 5 true 1) = 1 / 2 := by
  show (0.5 : ℝ) = 1 / 2
  norm_num

/-- Limiting a real to an interval. -/
theorem clip_real {lo hi : ℝ} (h : lo ≤ hi) (x : ℝ) : Scalar.clip x lo hi = max lo (min x hi) := by
  unfold Scalar.clip
  split
  next hlo => rw [max_eq_left ((min_le_left x hi).trans hlo.le)]
  next hlo =>
    have hlo : lo ≤ x := not_lt.mp hlo
    split
    next hhi => rw [min_eq_right hhi.le, max_eq_right h]
    next hhi => rw [min_eq_left (not_lt.mp hhi), max_eq_right hlo]

/-- Rational arithmetic, which can be evaluated.  Two constants have no counterpart
in it, and square roots need not be exact. -/
@[reducible]
def rational : Scalar ℚ where
  decidableLT := inferInstance
  decidableLE := inferInstance
  sqrt := Rat.sqrt
  abs x := |x|
  minNum := min
  maxNum := max
  isFinite _ := true
  isNaN _ := false
  infinity := 0
  epsilon := 0
  ofCount n := n

end Scalar

end Conic
