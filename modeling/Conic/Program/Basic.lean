import Conic.Program.VariableMap
import Conic.Sparse.Product

/-!
# Conic programs

A program asks to

```text
minimize    cᵀx
subject to  Ax = b,  x ∈ K
```

for a product `K` of half lines and second-order cones.  Its dual asks to
maximize `bᵀw` subject to `Aᵀw + s = c` and `s ∈ K`.  A program holds its data
and one point: the primal `x`, the dual `w` and the dual slack `s`.  A solve
that succeeds replaces the point.

The cones are given by the columns that they bind.  `Program.validate` says
whether they name every column exactly once, and whether everything else fits
together.  Its checks come in an order in which none of them reads out of
bounds.
-/

namespace Conic

/-- A cone, given by the indices of its coordinates. -/
inductive ConeSpec (ι : Type) where
  /-- The coordinate is not negative. -/
  | nonnegative (i : ι)
  /-- The norm of the coordinates in `vector` is at most the coordinate
  `bound`. -/
  | secondOrder (bound : ι) (vector : List ι)
  deriving Repr, DecidableEq

namespace ConeSpec

variable {ι κ : Type}

/-- The coordinates of a cone, the bound first. -/
def indices : ConeSpec ι → List ι
  | nonnegative i => [i]
  | secondOrder bound vector => bound :: vector

/-- The cone with its coordinates renamed. -/
def map (f : ι → κ) : ConeSpec ι → ConeSpec κ
  | nonnegative i => nonnegative (f i)
  | secondOrder bound vector => secondOrder (f bound) (vector.map f)

@[simp] theorem indices_map (f : ι → κ) (K : ConeSpec ι) :
    (K.map f).indices = K.indices.map f := by
  cases K <;> simp [map, indices]

end ConeSpec

/-- A program and its point. -/
structure Program (α : Type) where
  /-- The matrix of the constraints. -/
  A : Csc α
  /-- The right-hand side. -/
  b : Array α
  /-- The costs. -/
  c : Array α
  /-- The primal point. -/
  x : Array α
  /-- The dual point. -/
  w : Array α
  /-- The dual slack. -/
  s : Array α
  /-- The cones, by columns of the matrix. -/
  cones : List (ConeSpec Nat)
  /-- The variables of the columns. -/
  map : VariableMap

namespace Program

variable {α : Type}

/-! ## Validity -/

/-- Marks a column as named by a cone. -/
def cover (covered : Array Bool) (column : Nat) : Except ProgramError (Array Bool) :=
  match covered[column]? with
  | none => .error (.columnOutOfRange column covered.size)
  | some true => .error (.duplicateColumn column)
  | some false => .ok (covered.setIfInBounds column true)

/-- Marks the columns of a cone. -/
def coverCone (covered : Array Bool) (K : ConeSpec Nat) : Except ProgramError (Array Bool) :=
  match K with
  | .secondOrder bound [] => .error (.emptySecondOrderCone bound)
  | K => K.indices.foldlM cover covered

/-- The cones name every column below `ncols` exactly once. -/
def checkPartition (cones : List (ConeSpec Nat)) (ncols : Nat) : Except ProgramError Unit := do
  let covered ← cones.foldlM coverCone (Array.replicate ncols false)
  match covered.findIdx? (!·) with
  | some column => throw (.uncoveredColumn column)
  | none => pure ()

/-- A vector has the expected length. -/
def checkLength (what : Operand) (expected found : Nat) : Except ProgramError Unit :=
  if expected = found then .ok () else .error (.incompatibleDimension what expected found)

/-- The lengths, the matrix, the variables and the cones of a program fit
together. -/
def validate (p : Program α) : Except (Fault ProgramError) Unit := do
  let m := p.A.nrows
  let n := p.A.ncols
  Fault.lift (checkLength .b m p.b.size)
  Fault.lift (checkLength .c n p.c.size)
  Fault.lift (checkLength .x n p.x.size)
  Fault.lift (checkLength .w m p.w.size)
  Fault.lift (checkLength .s n p.s.size)
  Fault.mapCause .badMatrix p.A.checkFormat
  Fault.lift (p.map.check n)
  Fault.lift (checkPartition p.cones n)

/-! ## Construction -/

/-- The program with the given data and the zero point.  The point takes its
lengths from `b` and `c`, which are compared with the matrix before anything
else. -/
def ofParts [Scalar α] (A : Csc α) (b c : Array α) (cones : List (ConeSpec Nat))
    (map : VariableMap) : Except (Fault ProgramError) (Program α) := do
  let p : Program α := {
    A := A
    b := b
    c := c
    x := Vec.zeros c.size
    w := Vec.zeros b.size
    s := Vec.zeros c.size
    cones := cones
    map := map }
  p.validate
  pure p

/-- The same for data that may claim any size: there must be room for a point of
the size of the matrix. -/
def ofData [Scalar α] (A : Csc α) (b c : Array α) (cones : List (ConeSpec Nat))
    (map : VariableMap) : Except (Fault ProgramError) (Program α) :=
  if maxLength < A.ncols ∨ maxLength < A.nrows then .error .outOfBounds
  else ofParts A b c cones map

/-- The program whose variables are the columns of its matrix. -/
def new [Scalar α] (A : Csc α) (b c : Array α) (cones : List (ConeSpec Nat)) :
    Except (Fault ProgramError) (Program α) :=
  ofData A b c cones (.identity c.size)

/-! ## Values of variables -/

/-- The primal value of a variable. -/
def value (p : Program α) (v : VariableId) : Except (Fault ProgramError) α := do
  Fault.ofOption p.x[← Fault.lift (p.map.column v)]?

/-- The dual slack of a variable. -/
def dualSlack (p : Program α) (v : VariableId) : Except (Fault ProgramError) α := do
  Fault.ofOption p.s[← Fault.lift (p.map.column v)]?

end Program

end Conic
