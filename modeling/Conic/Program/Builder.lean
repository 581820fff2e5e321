import Conic.Program.Basic
import Conic.Sparse.Triplets

/-!
# Building a program

A `Builder` collects variables, constraints and cones in any order.  Variables
are named by their ids, and a name may be used before the variable is added.

`Builder.build` lays the columns out cone by cone, the bound of a second-order
cone first.  A variable that several cones name gets its column from the first
of them.  Variables outside every cone come last.  Validation refuses both
kinds afterwards.
-/

namespace Conic

/-- The parts of a program that is being built. -/
structure Builder (α : Type) where
  /-- The cost of each variable. -/
  costs : Array α
  /-- The terms and the right-hand side of each constraint. -/
  rows : Array (List (VariableId × α) × α)
  /-- The cones. -/
  cones : Array (ConeSpec VariableId)

namespace Builder

variable {α : Type}

/-- The builder without parts. -/
def empty : Builder α := ⟨#[], #[], #[]⟩

/-- Adds a variable with its cost. -/
def addVariable (B : Builder α) (cost : α) : VariableId × Builder α :=
  (⟨B.costs.size⟩, { B with costs := B.costs.push cost })

/-- Adds the constraint `Σ coefficient * variable = rhs`.  The answer is the row
of the constraint. -/
def addConstraint (B : Builder α) (terms : List (VariableId × α)) (rhs : α) : Nat × Builder α :=
  (B.rows.size, { B with rows := B.rows.push (terms, rhs) })

/-- Makes a variable non-negative. -/
def addNonnegative (B : Builder α) (v : VariableId) : Builder α :=
  { B with cones := B.cones.push (.nonnegative v) }

/-- Bounds the norm of some variables by another one. -/
def addSecondOrder (B : Builder α) (bound : VariableId) (vector : List VariableId) : Builder α :=
  { B with cones := B.cones.push (.secondOrder bound vector) }

/-! ## Building -/

/-- The variables in the order of their columns, those of cones first.  A
variable stands where it is named first. -/
def layout (B : Builder α) : List VariableId :=
  (B.cones.toList.flatMap ConeSpec.indices ++
    (List.range B.costs.size).map VariableId.mk).eraseDups

/-- Refuses a variable that has not been added. -/
def known (B : Builder α) (v : VariableId) : Except ProgramError VariableId :=
  if v.index < B.costs.size then .ok v else .error (.unknownVariable v)

/-- The columns of the variables. -/
def variableMap (B : Builder α) : Except ProgramError VariableMap := do
  let order ← B.layout.mapM B.known
  VariableMap.ofColumns ((List.range B.costs.size).map fun v => order.idxOf ⟨v⟩).toArray

/-- The terms of all constraints as triplets. -/
def triplets (B : Builder α) (map : VariableMap) : Except ProgramError (List (Triplet α)) := do
  let rows ← B.rows.toList.zipIdx.mapM fun row =>
    row.1.1.mapM fun term => do
      pure ⟨row.2, ← map.column (← B.known term.1), term.2⟩
  pure rows.flatten

/-- The costs in the order of the columns. -/
def columnCosts [Zero α] (B : Builder α) (map : VariableMap) : Array α :=
  map.ids.map fun v => B.costs.getD v.index 0

/-- A cone, by the columns of its variables. -/
def columnCone (map : VariableMap) : ConeSpec VariableId → Except ProgramError (ConeSpec Nat)
  | .nonnegative v => do pure (.nonnegative (← map.column v))
  | .secondOrder bound vector => do
    pure (.secondOrder (← map.column bound) (← vector.mapM map.column))

/-- The program of the parts.  There is room for its point, since the builder
holds as many costs and constraints. -/
def build [Scalar α] (B : Builder α) : Except (Fault ProgramError) (Program α) := do
  let map ← Fault.lift B.variableMap
  let triplets ← Fault.lift (B.triplets map)
  let A ← Fault.mapCause .badMatrix
    (Fault.lift (Csc.ofTriplets B.rows.size B.costs.size triplets))
  let cones ← Fault.lift (B.cones.toList.mapM (columnCone map))
  Program.ofParts A (B.rows.map (·.2)) (B.columnCosts map) cones map

end Builder

end Conic
