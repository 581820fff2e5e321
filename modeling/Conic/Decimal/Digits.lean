import Conic.Decimal.Dyadic

/-!
# Decimal digits of a magnitude

Two ways to write a magnitude in decimal.

* `Digits.shortest` has the fewest digits that read back to the magnitude.
  Among the decimals of that length it is the nearest one.
* `Digits.rounded` is the magnitude rounded to a power of ten, a tie going to
  the even neighbour.

The search for the shortest digits tries the grids `10 ^ (k - n)` for one digit,
two digits and so on.  On each grid only the two neighbours of the magnitude
can be nearest, so those two are tested.  Seventeen digits are enough for every
binary value of double width.  If none of the grids had a hit, the exact value
would be returned.
-/

namespace Conic.Decimal

/-- The decimal `digits * 10 ^ exponent`. -/
structure Digits where
  /-- The digits, as a number. -/
  digits : Nat
  /-- The exponent of ten. -/
  exponent : Int
  deriving Repr, DecidableEq

/-- Which of two equally near decimals is taken. -/
inductive Tie where
  /-- The one whose last digit is even. -/
  | even
  /-- The larger one. -/
  | up
  deriving Repr, DecidableEq

namespace Tie

/-- Of the neighbours `d` and `d + 1`, the one that the rule takes. -/
def choose (t : Tie) (d : Nat) : Nat :=
  match t with
  | .even => if d % 2 = 0 then d else d + 1
  | .up => d + 1

end Tie

namespace Digits

/-- The quotient `num / den` rounded to the nearest natural. -/
def roundQuotient (t : Tie) (num den : Nat) : Nat :=
  let d := num / den
  if 2 * num < (2 * d + 1) * den then d
  else if (2 * d + 1) * den < 2 * num then d + 1
  else t.choose d

/-- The magnitude rounded to a multiple of `10 ^ g`, counted in that unit. -/
def rounded (x : Dyadic) (g : Int) : Nat :=
  roundQuotient .even (x.m * x.up g) (x.down g)

/-- Trailing zeros moved from the digits into the exponent, at most `fuel` of
them. -/
def strip : Nat → Digits → Digits
  | 0, d => d
  | fuel + 1, d =>
    if d.digits % 10 = 0 then strip fuel ⟨d.digits / 10, d.exponent + 1⟩ else d

/-- A decimal on the grid `10 ^ g` that reads back to the magnitude.  If both
neighbours do, the nearer one. -/
def onGrid (t : Tie) (x : Dyadic) (g : Int) : Option Digits :=
  let d := x.m * x.up g / x.down g
  match x.readsBack d g, x.readsBack (d + 1) g with
  | true, true => some ⟨roundQuotient t (x.m * x.up g) (x.down g), g⟩
  | true, false => some ⟨d, g⟩
  | false, true => some ⟨d + 1, g⟩
  | false, false => none

/-- The exact decimal value of a magnitude. -/
def exact (x : Dyadic) : Digits :=
  if 0 ≤ x.q then ⟨x.m * Nat.pow 2 x.q.toNat, 0⟩ else ⟨x.m * Nat.pow 5 (-x.q).toNat, x.q⟩

/-- The fewest digits that read back to a magnitude. -/
def shortest (t : Tie) (x : Dyadic) : Digits :=
  if x.m = 0 then ⟨0, 0⟩
  else
    let k := x.magnitude
    match (List.range 17).findSome? fun n => onGrid t x (k - (n + 1 : Nat)) with
    | some d => strip 400 d
    | none => exact x

/-- The choice at a tie is one of the two neighbours. -/
theorem choose_eq_or (t : Tie) (d : Nat) : t.choose d = d ∨ t.choose d = d + 1 := by
  cases t with
  | even => by_cases h : d % 2 = 0 <;> simp [Tie.choose, h]
  | up => exact .inr rfl

/-- Of the two neighbours of a quotient, rounding takes one. -/
theorem roundQuotient_eq_or (t : Tie) (num den : Nat) :
    roundQuotient t num den = num / den ∨ roundQuotient t num den = num / den + 1 := by
  simp only [roundQuotient]
  split
  · exact .inl rfl
  · split
    · exact .inr rfl
    · exact choose_eq_or t _

end Digits

end Conic.Decimal
