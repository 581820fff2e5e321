/-!
# Scalars

The numeric part of the library is written once, for every type that has the
operations of this module.  `Scalar α` asks for the four operations, a square
root, comparisons and the few constants that the algorithms name.  It asks for
no law.  A statement about every `Scalar α` therefore holds of rounded
arithmetic as well as of exact arithmetic, and a statement that needs a law
takes an instance that has it.

The programs of this library run on `Float`.  Every operation of that instance
is a single correctly rounded operation, so a sum of products is as accurate
as its order of evaluation, and the order is part of each definition.

Two conventions need care.

* `minNum` and `maxNum` ignore one argument that is not a number.  They return
  the other one.  A fold with them therefore skips such values.
* `==` is the comparison of values.  The two zeros of `Float` are equal, and a
  value that is not a number differs from itself.
-/

namespace Conic

/-- The operations that the numeric algorithms use.  No law is assumed. -/
class Scalar (α : Type) extends Zero α, One α, Add α, Sub α, Mul α, Div α, Neg α,
    OfScientific α, BEq α, LT α, LE α where
  /-- The strict order can be decided. -/
  decidableLT : DecidableLT α
  /-- The order can be decided. -/
  decidableLE : DecidableLE α
  /-- The square root. -/
  sqrt : α → α
  /-- The absolute value. -/
  abs : α → α
  /-- The smaller argument, or the one that is a number. -/
  minNum : α → α → α
  /-- The larger argument, or the one that is a number. -/
  maxNum : α → α → α
  /-- The value is neither infinite nor undefined. -/
  isFinite : α → Bool
  /-- The value is undefined, as the quotient of zero by zero is. -/
  isNaN : α → Bool
  /-- A value above every finite one. -/
  infinity : α
  /-- The distance from one to the next larger value. -/
  epsilon : α
  /-- The value nearest to a count. -/
  ofCount : Nat → α

attribute [reducible, instance] Scalar.decidableLT Scalar.decidableLE

namespace Scalar

variable {α : Type} [Scalar α]

/-- The reciprocal, as the quotient `1 / x`. -/
def recip (x : α) : α := 1 / x

/-- The third power, as `x * (x * x)`. -/
def cube (x : α) : α := x * (x * x)

/-- `x` limited to the interval from `lo` to `hi`.  A bound that does not
compare with `x` has no effect. -/
def clip (x lo hi : α) : α :=
  if x < lo then lo else if hi < x then hi else x

/-- Limiting to an interval leaves a value alone that neither bound cuts off. -/
theorem clip_of_not_lt {x lo hi : α} (hlo : ¬ x < lo) (hhi : ¬ hi < x) : clip x lo hi = x := by
  simp [clip, hlo, hhi]

/-- A value below the lower bound is raised to it. -/
theorem clip_of_lt_lo {x lo hi : α} (h : x < lo) : clip x lo hi = lo := by
  simp [clip, h]

end Scalar

/-! ## Binary floating point -/

/-- The smaller of two floating point values.  If exactly one is not a number,
the other one. -/
def Scalar.lesserFloat (a b : Float) : Float :=
  if a.isNaN then b else if b.isNaN then a else if b < a then b else a

/-- The larger of two floating point values.  If exactly one is not a number,
the other one. -/
def Scalar.greaterFloat (a b : Float) : Float :=
  if a.isNaN then b else if b.isNaN then a else if a < b then b else a

instance : Scalar Float where
  zero := 0.0
  one := 1.0
  decidableLT := inferInstance
  decidableLE := inferInstance
  sqrt := Float.sqrt
  abs := Float.abs
  minNum := Scalar.lesserFloat
  maxNum := Scalar.greaterFloat
  isFinite := Float.isFinite
  isNaN := Float.isNaN
  infinity := 1.0 / 0.0
  epsilon := 1.0 / 4503599627370496.0
  ofCount n := Float.ofScientific n false 0

end Conic
