import Conic.Decimal.Layout

/-!
# Scalars in a report

`Written α` says how the scalars of a type are written in reports and in the
texts of errors.  The reports are written once, for every such type.

A number in a table has one digit before the point, a given number of digits
after it, and an exponent of a sign and at least two digits.  Values that are
not finite are written without an exponent and fill the width of the column
from the right.
-/

namespace Conic

/-- The written forms of a scalar. -/
class Written (α : Type) where
  /-- The width of a value in bits. -/
  bits : Nat
  /-- The fewest digits that read back, with an exponent. -/
  shortest : α → String
  /-- One digit before the point, the given number after it, and an exponent. -/
  exponential : Nat → α → String
  /-- The given number of digits after the point. -/
  positional : Nat → α → String
  /-- A number in a table: with a sign even if positive, the least width, and
  the number of digits after the point. -/
  tabular : Bool → Nat → Nat → α → String

namespace Decimal

/-- An exponent in a table: a sign and at least two digits. -/
def tabularExponent (e : Int) : List Char :=
  let ds := digitChars e.natAbs
  (if e < 0 then '-' else '+') :: zeros (2 - ds.length) ++ ds

/-- A text with blanks in front of it up to a width. -/
def padLeft (width : Nat) (text : String) : String :=
  String.ofList (List.replicate (width - text.length) ' ') ++ text

/-- A number in a table. -/
def tabular (plus : Bool) (width places : Nat) (x : Float) : String :=
  padLeft width (signed plus (Fixed.exponentialChars tabularExponent places) x)

end Decimal

instance : Written Float where
  bits := 64
  shortest := Decimal.Layout.exponential.text
  exponential := Decimal.Fixed.exponential false
  positional := Decimal.Fixed.positional
  tabular := Decimal.tabular

example : Decimal.tabular false 6 2 0.0015 = "1.50e-03" := by decide +kernel

example : Decimal.tabular true 8 4 (-2.0) = "-2.0000e+00" := by decide +kernel

example : Decimal.tabular false 6 2 (1.0 / 0.0) = "   inf" := by decide +kernel

end Conic
