import Conic.Decimal.Digits

/-!
# The written form of a number

A layout says how selected digits are written.  It gives the exponents of the
leading digit for which positional notation is used, and how the exponent is
written otherwise.  The library has three of them.

* `Layout.data` is the form of numbers in program files.
* `Layout.plain` is the form of a number in a line of text.
* `Layout.exponential` always has an exponent.

Beside them stand the forms with a given number of digits after the point,
`exponential` and `positional` in the namespace `Fixed`.  They round the exact
binary value, and a tie goes to the even neighbour.
-/

namespace Conic.Decimal

/-- How selected digits are written. -/
structure Layout where
  /-- The least exponent of the leading digit that is written positionally. -/
  plainFrom : Int
  /-- The greatest such exponent. -/
  plainTo : Int
  /-- A positive exponent has a sign. -/
  signedExponent : Bool
  /-- Which of two equally near decimals is taken. -/
  tie : Tie

namespace Layout

/-- Numbers in program files are positional from `10 ^ -5` to below `10 ^ 16`.
Other exponents are written with their sign. -/
def data : Layout := ⟨-5, 15, true, .even⟩

/-- Numbers in a line of text are positional from `10 ^ -4` to below
`10 ^ 16`. -/
def plain : Layout := ⟨-4, 15, false, .up⟩

/-- Always with an exponent. -/
def exponential : Layout := ⟨1, 0, false, .up⟩

end Layout

/-- `n` zeros. -/
def zeros (n : Nat) : List Char := List.replicate n '0'

/-- The digits of a natural, leading digit first. -/
def digitChars (n : Nat) : List Char := Nat.toDigits 10 n

/-- Text of an exponent. -/
def exponentChars (signed : Bool) (e : Int) : List Char :=
  let sign := if e < 0 then ['-'] else if signed then ['+'] else []
  sign ++ digitChars e.natAbs

/-- Digits with the point behind the first `k + 1` of them. -/
def pointAfter (ds : List Char) (k : Nat) : List Char :=
  if ds.length ≤ k + 1 then ds ++ zeros (k + 1 - ds.length) ++ ['.', '0']
  else ds.take (k + 1) ++ '.' :: ds.drop (k + 1)

namespace Layout

/-- The text of a decimal without its sign. -/
def write (l : Layout) (d : Digits) : List Char :=
  let ds := digitChars d.digits
  let e : Int := d.exponent + (ds.length - 1 : Nat)
  if l.plainFrom ≤ e ∧ e ≤ l.plainTo then
    if e < 0 then '0' :: '.' :: zeros (-e - 1).toNat ++ ds
    else pointAfter ds e.toNat
  else
    match ds with
    | [] => []
    | [c] => c :: 'e' :: exponentChars l.signedExponent e
    | c :: rest => c :: '.' :: rest ++ 'e' :: exponentChars l.signedExponent e

end Layout

/-- The sign bit of a floating point value is set. -/
def isNegative (x : Float) : Bool := decide (Nat.pow 2 63 ≤ x.toBits.toNat)

/-- The text of a value, given that of a finite magnitude.  A value that is not
a number has no sign. -/
def signed (plus : Bool) (finite : Dyadic → List Char) (x : Float) : String :=
  if x.isNaN then "NaN"
  else
    let sign := if isNegative x then ['-'] else if plus then ['+'] else []
    let body := if x.isFinite then finite (.ofFloat x) else ['i', 'n', 'f']
    String.ofList (sign ++ body)

/-- The fewest digits that read back, in the given layout. -/
def Layout.text (l : Layout) (x : Float) : String :=
  signed false (fun v => l.write (Digits.shortest l.tie v)) x

namespace Fixed

/-- A magnitude with one digit before the point and `n` digits after it, and
an exponent, which `ending` writes. -/
def exponentialChars (ending : Int → List Char) (n : Nat) (x : Dyadic) : List Char :=
  let e : Int := if x.m = 0 then 0 else x.magnitude - 1
  let d := Digits.rounded x (e - n)
  let (d, e) := if d = Nat.pow 10 (n + 1) then (Nat.pow 10 n, e + 1) else (d, e)
  let ds := digitChars d
  let ds := zeros (n + 1 - ds.length) ++ ds
  let mantissa := if n = 0 then ds else ds.take 1 ++ '.' :: ds.drop 1
  mantissa ++ 'e' :: ending e

/-- A magnitude with `n` digits after the point. -/
def positionalChars (n : Nat) (x : Dyadic) : List Char :=
  let ds := digitChars (Digits.rounded x (-(n : Int)))
  let ds := zeros (n + 1 - ds.length) ++ ds
  if n = 0 then ds else ds.take (ds.length - n) ++ '.' :: ds.drop (ds.length - n)

/-- A value with one digit before the point, `n` digits after it, and an
exponent.  With `plus`, a sign is always written. -/
def exponential (plus : Bool) (n : Nat) (x : Float) : String :=
  signed plus (exponentialChars (exponentChars false) n) x

/-- A value with `n` digits after the point. -/
def positional (n : Nat) (x : Float) : String :=
  signed false (positionalChars n) x

end Fixed

/-! ## Closed examples -/

example : Layout.data.text 0.1 = "0.1" := by decide +kernel

example : Layout.data.text 1e16 = "1e+16" := by decide +kernel

example : Layout.plain.text 1e15 = "1000000000000000.0" := by decide +kernel

example : Layout.exponential.text 0.825 = "8.25e-1" := by decide +kernel

example : Fixed.exponential false 2 0.0015 = "1.50e-3" := by decide +kernel

example : Fixed.positional 2 0.125 = "0.12" := by decide +kernel

end Conic.Decimal
