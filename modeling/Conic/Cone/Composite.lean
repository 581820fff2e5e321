import Conic.Cone.SecondOrder

/-!
# Products of cones

A composite cone is a list of blocks.  Each block owns a range of consecutive
coordinates, and the ranges follow one another from zero.  Every operation cuts
its vectors into the pieces of the blocks and works on each piece alone.

The operations on a composite cone come in two forms.  The form with a question
mark is `none` if a vector is too short for the blocks.  Vectors may be longer
than the blocks need.  The rest of a longer vector is not looked at.
-/

namespace Conic

/-- One block of a composite cone. -/
inductive Block (α : Type) where
  /-- Coordinates of the orthant. -/
  | orthant (K : Orthant α)
  /-- A second-order cone. -/
  | secondOrder (K : SecondOrder α)
  deriving Repr

namespace Block

variable {α : Type} [Scalar α]

/-- The number of coordinates. -/
def numel : Block α → Nat
  | orthant K => K.numel
  | secondOrder K => K.numel

/-- The degree of the barrier: one for each coordinate of the orthant and for
each second-order cone. -/
def degree : Block α → Nat
  | orthant K => K.numel
  | secondOrder _ => 1

/-- The identity. -/
def unit : Block α → List α
  | orthant K => List.replicate K.numel 1
  | secondOrder K => SecondOrder.unit K.numel

/-- The point lies in the interior. -/
def isInterior : Block α → List α → Bool
  | orthant _, x => Orthant.isInterior x
  | secondOrder _, x => SecondOrder.isInterior x

/-- The scaling at `(x, s)`, and whether it could be computed. -/
def updateScaling : Block α → List α → List α → List α → Bool × Block α
  | orthant K, x, s, _ => let (ok, K) := K.updateScaling x s; (ok, orthant K)
  | secondOrder K, x, s, refl => let (ok, K) := K.updateScaling x s refl; (ok, secondOrder K)

/-- `Θv`. -/
def mulTheta : Block α → List α → List α
  | orthant K, v => K.mulTheta v
  | secondOrder K, v => K.mulTheta v

/-- `Θ⁻¹v`. -/
def mulThetaInv : Block α → List α → List α
  | orthant K, v => K.mulThetaInv v
  | secondOrder K, v => K.mulThetaInv v

/-- `Θ²v`. -/
def mulThetaSq : Block α → List α → List α
  | orthant K, v => K.mulThetaSq v
  | secondOrder K, v => K.mulThetaSq v

/-- The Jordan product. -/
def circ : Block α → List α → List α → List α
  | orthant _, x, y => Orthant.circ x y
  | secondOrder _, x, y => SecondOrder.circ x y

/-- The solution `z` of `x ∘ z = y`. -/
def invCirc : Block α → List α → List α → List α
  | orthant _, x, y => Orthant.invCirc x y
  | secondOrder _, x, y => SecondOrder.invCirc x y

/-- `v + a * e`. -/
def addScaledE : Block α → α → List α → List α
  | orthant _, a, v => Orthant.addScaledE a v
  | secondOrder _, a, v => SecondOrder.addScaledE a v

/-- The largest step that stays in the cone. -/
def maxStep : Block α → List α → List α → α
  | orthant _, v, dv => Orthant.maxStep v dv
  | secondOrder _, v, dv => SecondOrder.maxStep v dv

end Block

/-- Dimensions that are none of a cone. -/
inductive ConeError where
  /-- A second-order cone needs a bound and a bounded coordinate. -/
  | secondOrderDimension (dim : Nat)
  deriving Repr, DecidableEq

/-- The text of an error. -/
def ConeError.message : ConeError → String
  | secondOrderDimension dim => s!"second-order cone of dimension {dim}; at least 2 is required"

/-- A product of cones over consecutive ranges of coordinates. -/
structure Composite (α : Type) where
  /-- The blocks in the order of their coordinates. -/
  blocks : List (Block α)
  deriving Repr

namespace Composite

variable {α : Type} [Scalar α]

/-- One block for the coordinates of the orthant, if there are any, followed by
the second-order cones of the given dimensions. -/
def ofDims (orthant : Nat) (dims : List Nat) : Except ConeError (Composite α) :=
  match dims.find? (· < 2) with
  | some dim => .error (.secondOrderDimension dim)
  | none =>
    let leading := if 0 < orthant then [.orthant (.ofDim orthant)] else []
    .ok ⟨leading ++ dims.map fun d => .secondOrder (.ofDim d)⟩

/-- The same for sizes that nobody has checked: every block must be one that can
be held.  A cone that is too small is found first. -/
def ofDims? (orthant : Nat) (dims : List Nat) : Except (Fault ConeError) (Composite α) :=
  if (orthant :: dims).all (· ≤ maxLength) ∨ dims.any (· < 2) then
    Fault.lift (ofDims orthant dims)
  else .error .outOfBounds

/-- The number of coordinates. -/
def numel (K : Composite α) : Nat := K.blocks.foldr (fun B n => B.numel + n) 0

/-- The degree of the barrier. -/
def degree (K : Composite α) : Nat := K.blocks.foldr (fun B n => B.degree + n) 0

/-- Blocks from coordinate `start` on, each with the first coordinate of its
range. -/
def spansFrom : Nat → List (Block α) → List (Nat × Block α)
  | _, [] => []
  | start, b :: bs => (start, b) :: spansFrom (start + b.numel) bs

/-- The blocks, each with the first coordinate of its range. -/
def spans (K : Composite α) : List (Nat × Block α) := spansFrom 0 K.blocks

/-- A list cut into the pieces of the blocks. -/
def pieces {β : Type} : List (Block α) → List β → List (List β)
  | [], _ => []
  | b :: bs, v => v.take b.numel :: pieces bs (v.drop b.numel)

/-- An operation on one vector, block by block. -/
def eachBlock (K : Composite α) (f : Block α → List α → List α) (v : Array α) : Array α :=
  (List.zipWith f K.blocks (pieces K.blocks v.toList)).flatten.toArray

/-- An operation on two vectors, block by block. -/
def eachBlock₂ {β : Type} (K : Composite α) (f : Block α → List α → List α → β)
    (x y : Array α) : List β :=
  List.zipWith (fun b p => f b p.1 p.2) K.blocks
    ((pieces K.blocks x.toList).zip (pieces K.blocks y.toList))

/-! ## Operations on vectors that are long enough -/

/-- The identity. -/
def unit (K : Composite α) : Array α := (K.blocks.flatMap Block.unit).toArray

/-- The point lies in the interior of every block. -/
def isInterior (K : Composite α) (x : Array α) : Bool :=
  (List.zipWith Block.isInterior K.blocks (pieces K.blocks x.toList)).all id

/-- The scaling at `(x, s)`, and whether it could be computed on every block. -/
def updateScaling (K : Composite α) (x s refl : Array α) : Bool × Composite α :=
  let parts := (pieces K.blocks x.toList).zip
    ((pieces K.blocks s.toList).zip (pieces K.blocks refl.toList))
  let results := List.zipWith (fun b p => b.updateScaling p.1 p.2.1 p.2.2) K.blocks parts
  (results.all (·.1), ⟨results.map (·.2)⟩)

/-- `Θv`. -/
def mulTheta (K : Composite α) (v : Array α) : Array α := K.eachBlock Block.mulTheta v

/-- `Θ⁻¹v`. -/
def mulThetaInv (K : Composite α) (v : Array α) : Array α := K.eachBlock Block.mulThetaInv v

/-- `Θ²v`. -/
def mulThetaSq (K : Composite α) (v : Array α) : Array α := K.eachBlock Block.mulThetaSq v

/-- The Jordan product. -/
def circ (K : Composite α) (x y : Array α) : Array α :=
  (K.eachBlock₂ Block.circ x y).flatten.toArray

/-- The solution `z` of `x ∘ z = y`. -/
def invCirc (K : Composite α) (x y : Array α) : Array α :=
  (K.eachBlock₂ Block.invCirc x y).flatten.toArray

/-- `v + a * e`.  Coordinates behind the blocks stay. -/
def addScaledE (K : Composite α) (a : α) (v : Array α) : Array α :=
  K.eachBlock (fun b => b.addScaledE a) v ++ v.extract K.numel v.size

/-- The largest step of at most one that stays in every block. -/
def maxStep (K : Composite α) (v dv : Array α) : α :=
  (K.eachBlock₂ Block.maxStep v dv).foldl Scalar.minNum 1

/-! ## Operations on vectors of any length -/

/-- A result, if all vectors are long enough for the blocks. -/
def ifCovered {β : Type} (K : Composite α) (vs : List (Array α)) (result : β) : Option β :=
  if vs.all fun v => decide (K.numel ≤ v.size) then some result else none

/-- Asks the blocks one after the other.  A block that says no ends the
questions. -/
def interiorFrom? : List (Block α) → List α → Option Bool
  | [], _ => some true
  | b :: bs, x =>
    if x.length < b.numel then none
    else if b.isInterior (x.take b.numel) then interiorFrom? bs (x.drop b.numel) else some false

/-- The point lies in the interior of every block. -/
def isInterior? (K : Composite α) (x : Array α) : Option Bool := interiorFrom? K.blocks x.toList

/-- The scaling at `(x, s)`, and whether it could be computed on every block. -/
def updateScaling? (K : Composite α) (x s refl : Array α) : Option (Bool × Composite α) :=
  K.ifCovered [x, s, refl] (K.updateScaling x s refl)

/-- `Θv`. -/
def mulTheta? (K : Composite α) (v : Array α) : Option (Array α) := K.ifCovered [v] (K.mulTheta v)

/-- `Θ⁻¹v`. -/
def mulThetaInv? (K : Composite α) (v : Array α) : Option (Array α) :=
  K.ifCovered [v] (K.mulThetaInv v)

/-- `Θ²v`. -/
def mulThetaSq? (K : Composite α) (v : Array α) : Option (Array α) :=
  K.ifCovered [v] (K.mulThetaSq v)

/-- The Jordan product. -/
def circ? (K : Composite α) (x y : Array α) : Option (Array α) := K.ifCovered [x, y] (K.circ x y)

/-- The solution `z` of `x ∘ z = y`. -/
def invCirc? (K : Composite α) (x y : Array α) : Option (Array α) :=
  K.ifCovered [x, y] (K.invCirc x y)

/-- `v + a * e`. -/
def addScaledE? (K : Composite α) (a : α) (v : Array α) : Option (Array α) :=
  K.ifCovered [v] (K.addScaledE a v)

/-- The largest step of at most one that stays in every block. -/
def maxStep? (K : Composite α) (v dv : Array α) : Option α :=
  K.ifCovered [v, dv] (K.maxStep v dv)

end Composite

end Conic
