import Conic.Cone.Composite
import Conic.Sparse.Format

/-!
# Variables and columns

A program names its variables by ids, and its matrix has a column for each of
them.  The ids stay the same whatever order the columns are in.  A
`VariableMap` holds the column of each variable and the variable of each
column.  `VariableMap.check` says whether the two are inverse to each other.

The module also has the errors of programs, since they name variables.
-/

namespace Conic

/-- The identity of a variable. -/
structure VariableId where
  /-- The index of the variable, in the order in which variables were added. -/
  index : Nat
  deriving Repr, DecidableEq

/-- The vectors of a program whose lengths are checked. -/
inductive Operand where
  /-- The right-hand side. -/
  | b
  /-- The costs. -/
  | c
  /-- The primal point. -/
  | x
  /-- The dual point. -/
  | w
  /-- The dual slack. -/
  | s
  deriving Repr, DecidableEq

/-- The name of a vector. -/
def Operand.name : Operand → String
  | b => "b"
  | c => "c"
  | x => "x"
  | w => "w"
  | s => "s"

/-- Errors of a program. -/
inductive ProgramError where
  /-- A vector has not the length that the matrix asks for. -/
  | incompatibleDimension (what : Operand) (expected found : Nat)
  /-- The arrays of the constraints are no matrix. -/
  | badMatrix (e : FormatError)
  /-- A cone names a column that the matrix does not have. -/
  | columnOutOfRange (column ncols : Nat)
  /-- A column is named twice. -/
  | duplicateColumn (column : Nat)
  /-- A column is not named by any cone. -/
  | uncoveredColumn (column : Nat)
  /-- A second-order cone bounds nothing. -/
  | emptySecondOrderCone (bound : Nat)
  /-- The cones have no product. -/
  | cone (e : ConeError)
  /-- There is no such variable. -/
  | unknownVariable (v : VariableId)
  /-- The variables and the columns do not correspond. -/
  | inconsistentVariableMap
  deriving Repr, DecidableEq

/-- The text of an error. -/
def ProgramError.message : ProgramError → String
  | incompatibleDimension what expected found =>
    s!"Incompatible dimension for {what.name}: expected {expected}, found {found}"
  | badMatrix e => "Bad constraint matrix: " ++ e.message
  | columnOutOfRange column ncols =>
    s!"Cone references column {column} but the program has {ncols} columns"
  | duplicateColumn column => s!"Column {column} belongs to more than one cone"
  | uncoveredColumn column => s!"Column {column} does not belong to any cone"
  | emptySecondOrderCone bound =>
    s!"Second-order cone with bound column {bound} has an empty vector part"
  | cone e => e.message
  | unknownVariable v => s!"Unknown variable VariableId({v.index})"
  | inconsistentVariableMap => "Variable map does not match the program columns"

/-- The columns of the variables and the variables of the columns. -/
structure VariableMap where
  /-- The column of each variable. -/
  columns : Array Nat
  /-- The variable of each column. -/
  ids : Array VariableId
  deriving Repr, DecidableEq

namespace VariableMap

/-- Variable `i` has column `i`. -/
def identity (n : Nat) : VariableMap := ⟨Array.range n, (Array.range n).map VariableId.mk⟩

/-- The map of as many variables as columns, if it can be held. -/
def identity? (n : Nat) : Option VariableMap := if n ≤ maxLength then some (identity n) else none

/-- Enters the variable of a column.  A column must be entered only once. -/
def enter? (ids : Array (Option VariableId)) (p : Nat × Nat) :
    Option (Array (Option VariableId)) := do
  match ← ids[p.1]? with
  | none => update? ids p.1 fun _ => some ⟨p.2⟩
  | some _ => none

/-- The map with the given column for each variable.  The columns must be a
permutation of the numbers below their count. -/
def ofColumns (columns : Array Nat) : Except ProgramError VariableMap :=
  let entered := columns.toList.zipIdx.foldlM enter? (Array.replicate columns.size none)
  match entered.bind fun ids => ids.mapM id with
  | some ids => .ok ⟨columns, ids⟩
  | none => .error .inconsistentVariableMap

/-- The number of variables. -/
def size (m : VariableMap) : Nat := m.columns.size

/-- The map has no variables. -/
def isEmpty (m : VariableMap) : Bool := m.columns.isEmpty

/-- The column of a variable. -/
def column (m : VariableMap) (v : VariableId) : Except ProgramError Nat :=
  match m.columns[v.index]? with
  | some c => .ok c
  | none => .error (.unknownVariable v)

/-- The variable of a column. -/
def variableAt (m : VariableMap) (column : Nat) : Option VariableId := m.ids[column]?

/-- The map is a correspondence of variables and columns below `ncols`. -/
def check (m : VariableMap) (ncols : Nat) : Except ProgramError Unit :=
  if m.columns.size = ncols ∧ m.ids.size = ncols ∧
      m.columns.toList.zipIdx.all fun p => m.ids[p.1]? == some ⟨p.2⟩ then .ok ()
  else .error .inconsistentVariableMap

end VariableMap

end Conic
