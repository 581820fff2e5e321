/-!
# Dyadic magnitudes

A finite floating point value is a sign and a magnitude `m * 2 ^ q`.  This
module reads the magnitude off the bits of a value and says which reals round
to it.  It also has the exact arithmetic that both decimal forms of a value
need: the position of its leading digit and its quotient by a power of ten.
Everything is arithmetic on naturals, so nothing here rounds.

The reals that round to a magnitude form an interval.  It reaches half way to
the neighbour below and half way to the neighbour above, and it has its ends
exactly if `m` is even.  The neighbour below is nearer than the one above at
the bottom of a binade.  `narrowBelow` says so.
-/

namespace Conic.Decimal

/-- A finite magnitude `m * 2 ^ q`. -/
structure Dyadic where
  /-- The integral factor. -/
  m : Nat
  /-- The exponent of two. -/
  q : Int
  /-- The gap below the value is half the gap above it. -/
  narrowBelow : Bool

namespace Dyadic

/-- The magnitude of a finite value.  Its sign does not matter. -/
def ofFloat (x : Float) : Dyadic :=
  let bits := x.toBits.toNat
  let e := bits / Nat.pow 2 52 % Nat.pow 2 11
  let f := bits % Nat.pow 2 52
  if e = 0 then ⟨f, -1074, false⟩
  else ⟨Nat.pow 2 52 + f, (e : Int) - 1075, f == 0 && decide (1 < e)⟩

/-- The numerator of `2 ^ q / 10 ^ g`. -/
def up (x : Dyadic) (g : Int) : Nat := Nat.pow 2 x.q.toNat * Nat.pow 10 (-g).toNat

/-- The denominator of `2 ^ q / 10 ^ g`. -/
def down (x : Dyadic) (g : Int) : Nat := Nat.pow 2 (-x.q).toNat * Nat.pow 10 g.toNat

/-- The magnitude is below `10 ^ k`. -/
def isBelow (x : Dyadic) (k : Int) : Bool := decide (x.m * x.up k < x.down k)

/-- The least `k` with the magnitude below `10 ^ k`.  The binary logarithm
gives it up to one, and exact comparisons settle the rest. -/
def magnitude (x : Dyadic) : Int :=
  let guess := (x.q + x.m.log2) * 30103 / 100000
  if x.isBelow (guess - 1) then guess - 1
  else if x.isBelow guess then guess
  else if x.isBelow (guess + 1) then guess + 1
  else guess + 2

/-- The decimal `d * 10 ^ g` rounds to the magnitude. -/
def readsBack (x : Dyadic) (d : Nat) (g : Int) : Bool :=
  let least := if x.narrowBelow then 4 * x.m - 1 else 4 * x.m - 2
  let lo := least * x.up g
  let hi := (4 * x.m + 2) * x.up g
  let v := 4 * d * x.down g
  if x.m % 2 = 0 then decide (lo ≤ v ∧ v ≤ hi) else decide (lo < v ∧ v < hi)

end Dyadic

end Conic.Decimal
