/-!
# Numbers of a data file

A number is written as an optional sign, digits without a leading zero, an
optional fraction and an optional exponent.  `scan` takes the longest such
literal off a text.  `natural?` and `float?` give a literal its value.

A literal stands for a count only if it has no sign, no fraction and no
exponent.  As a floating point number it stands for the nearest value.  One
beyond the range of finite values has none.
-/

namespace Conic.Json.Number

/-- The result of reading a number off a text. -/
inductive Scan where
  /-- A literal and the text behind it. -/
  | complete (literal rest : List Char)
  /-- The text ends inside the number. -/
  | cut
  /-- The text goes on against the grammar. -/
  | bad

/-- At least one digit, added to what was read before. -/
def digits (read cs : List Char) : Scan :=
  let ds := cs.takeWhile Char.isDigit
  let rest := cs.dropWhile Char.isDigit
  if ds.isEmpty then (if rest.isEmpty then .cut else .bad) else .complete (read ++ ds) rest

/-- Goes on behind a literal that was read. -/
def Scan.andThen (s : Scan) (next : List Char → List Char → Scan) : Scan :=
  match s with
  | .complete literal rest => next literal rest
  | s => s

/-- The digits before the point.  A zero stands alone. -/
def integral (read cs : List Char) : Scan :=
  match cs with
  | '0' :: rest =>
    match rest with
    | c :: _ => if c.isDigit then .bad else .complete (read ++ ['0']) rest
    | [] => .complete (read ++ ['0']) []
  | _ => digits read cs

/-- An optional fraction. -/
def fraction (read cs : List Char) : Scan :=
  match cs with
  | '.' :: rest => digits (read ++ ['.']) rest
  | _ => .complete read cs

/-- An optional exponent. -/
def exponent (read cs : List Char) : Scan :=
  match cs with
  | c :: rest =>
    if c = 'e' ∨ c = 'E' then
      match rest with
      | s :: rest' =>
        if s = '+' ∨ s = '-' then digits (read ++ [c, s]) rest' else digits (read ++ [c]) rest
      | [] => .cut
    else .complete read cs
  | [] => .complete read []

/-- The number that a text begins with. -/
def scan (cs : List Char) : Scan :=
  let start :=
    match cs with
    | '-' :: rest => integral ['-'] rest
    | _ => integral [] cs
  (start.andThen fraction).andThen exponent

/-! ## The value of a literal -/

/-- The number that decimal digits stand for. -/
def ofDigits (ds : List Char) : Nat :=
  ds.foldl (fun n c => 10 * n + (c.toNat - '0'.toNat)) 0

/-- A literal in parts: its value is `± mantissa * 10 ^ exponent`. -/
structure Parts where
  /-- It has a minus sign. -/
  negative : Bool
  /-- Its digits on both sides of the point. -/
  mantissa : Nat
  /-- The exponent of ten that belongs to them. -/
  exponent : Int
  /-- It has neither a fraction nor an exponent. -/
  integral : Bool

/-- The parts of a literal. -/
def parts (literal : List Char) : Parts :=
  let negative := literal.head? == some '-'
  let body := if negative then literal.drop 1 else literal
  let whole := body.takeWhile Char.isDigit
  let behind := body.dropWhile Char.isDigit
  let frac :=
    match behind with
    | '.' :: rest => rest.takeWhile Char.isDigit
    | _ => []
  let mark := behind.dropWhile fun c => c != 'e' && c != 'E'
  let shift : Int :=
    match mark with
    | _ :: '-' :: ds => -(ofDigits ds : Int)
    | _ :: '+' :: ds => ofDigits ds
    | _ :: ds => ofDigits ds
    | [] => 0
  ⟨negative, ofDigits (whole ++ frac), shift - frac.length, behind.isEmpty⟩

/-- The count that a literal stands for, if it is at most `bound`. -/
def natural? (bound : Nat) (literal : List Char) : Option Nat :=
  let p := parts literal
  if p.integral ∧ ¬ p.negative ∧ p.mantissa ≤ bound then some p.mantissa else none

/-- The finite value nearest to `mantissa * 10 ^ exponent`.  Exponents far
outside the range of finite values are settled without computing the power. -/
def nearest? (mantissa : Nat) (exponent : Int) : Option Float :=
  let top := exponent + (Nat.toDigits 10 mantissa).length
  if mantissa = 0 ∨ top < -400 then some 0
  else if 400 < top then none
  else
    let x := Float.ofScientific mantissa (decide (exponent < 0)) exponent.natAbs
    if x.isFinite then some x else none

/-- The finite value nearest to a literal. -/
def float? (literal : List Char) : Option Float :=
  let p := parts literal
  (nearest? p.mantissa p.exponent).map fun x => if p.negative then -x else x

end Conic.Json.Number
