import Conic.Json.Decoder
import Conic.Json.Reader
import Conic.Json.Writer
import Conic.Program.Basic
import Conic.Settings

/-!
# Program files

A program is stored as one record with the fields `A`, `b`, `c`, `cones`,
`variables` and `settings`.  The settings may be missing.  The point of the
program is not stored, so a program that is read starts from zero.

A file has no text for an infinite time limit.  The largest finite value stands
for it, both ways.

`read` makes its checks in this order: the bytes are a text, the text is the
record, the settings are admissible, the parts of the program fit together.
-/

namespace Conic

/-- Why a file holds no program. -/
inductive FileError where
  /-- Its bytes are no text. -/
  | noText
  /-- Its text is not the record. -/
  | defect (d : Json.Defect)
  /-- Its settings are not admissible. -/
  | settings (e : SettingsError)
  /-- The parts of its program do not fit together. -/
  | program (e : ProgramError)
  deriving Repr, DecidableEq

/-- The record that a file holds. -/
structure ProgramFile where
  /-- The matrix of the constraints. -/
  A : Csc Float
  /-- The right-hand side. -/
  b : Array Float
  /-- The costs. -/
  c : Array Float
  /-- The cones. -/
  cones : List (ConeSpec Nat)
  /-- The variables of the columns. -/
  map : VariableMap
  /-- The settings. -/
  settings : Option (Settings Float)

namespace ProgramFile

open Json (Decoder Value)

/-! ## Reading -/

/-- An index or a size: 64 bits without a sign. -/
def size : Decoder Nat := .natural (Nat.pow 2 64 - 1)

/-- A setting that is a count: 32 bits without a sign. -/
def setting : Decoder Nat := .natural (Nat.pow 2 32 - 1)

/-- A list of indices. -/
def indices : Decoder (Array Nat) := .array size

/-- A vector. -/
def floats : Decoder (Array Float) := .array .float

/-- The matrix. -/
def matrix : Decoder (Csc Float) :=
  .record [
    .of "m" size fun v A => { A with nrows := v },
    .of "n" size fun v A => { A with ncols := v },
    .of "colptr" indices fun v A => { A with colPtr := v },
    .of "rowval" indices fun v A => { A with rowIdx := v },
    .of "nzval" floats fun v A => { A with values := v }] ⟨0, 0, #[], #[], #[]⟩

/-- A cone. -/
def cone : Decoder (ConeSpec Nat) :=
  let secondOrder : Decoder (Nat × List Nat) :=
    .record [.of "bound" size fun v K => (v, K.2),
      .of "vector" (.list size) fun v K => (K.1, v)] (0, [])
  .oneOf [
    ("NonnegativeConeT", fun v => (size v).map .nonnegative),
    ("SecondOrderConeT", fun v => (secondOrder v).map fun K => .secondOrder K.1 K.2)]

/-- The variables of the columns. -/
def variableMap : Decoder VariableMap :=
  .record [
    .of "columns" indices fun v m => { m with columns := v },
    .of "variables" indices fun v m => { m with ids := v.map VariableId.mk }] ⟨#[], #[]⟩

/-- The field of a setting.  Every setting may be missing. -/
def slotField (slot : String × Settings.Slot (fun β => β) Float) :
    Decoder.Field (Settings Float) :=
  match slot.2 with
  | .count _ set => .of slot.1 setting set true
  | .seconds _ set => .of slot.1 .float set true
  | .flag _ set => .of slot.1 .bool set true
  | .scalar _ set => .of slot.1 .float set true

/-- The settings. -/
def settingsRecord : Decoder (Settings Float) :=
  .record ((Settings.slots (fun β => β) Float).map slotField) .default

/-- The record of a file. -/
def decode : Decoder ProgramFile :=
  .record [
    .of "A" matrix fun v p => { p with A := v },
    .of "b" floats fun v p => { p with b := v },
    .of "c" floats fun v p => { p with c := v },
    .of "cones" (.list cone) fun v p => { p with cones := v },
    .of "variables" variableMap fun v p => { p with map := v },
    .of "settings" (.optional settingsRecord) (fun v p => { p with settings := v }) true]
    ⟨⟨0, 0, #[], #[], #[]⟩, #[], #[], [], ⟨#[], #[]⟩, none⟩

/-- The record in a text. -/
def ofText (text : String) : Except Json.Defect ProgramFile := do
  let doc := Json.read text
  let p ← decode doc.value
  if doc.trailing then throw .malformed
  pure p

/-- The largest finite value. -/
def largest : Float := Float.ofBits 0x7FEFFFFFFFFFFFFF

/-- Settings whose time limit is infinite if the file holds the largest value. -/
def openTimeLimit (s : Settings Float) : Settings Float :=
  if s.timeLimit == largest then { s with timeLimit := 1.0 / 0.0 } else s

/-- The program in the bytes of a file, and the settings beside it. -/
def read (bytes : ByteArray) :
    Except (Fault FileError) (Program Float × Option (Settings Float)) := do
  let some text := String.fromUTF8? bytes | throw (.cause .noText)
  let file ← Fault.mapCause .defect (Fault.lift (ofText text))
  let settings := file.settings.map openTimeLimit
  settings.forM fun s => Fault.mapCause .settings (Fault.lift s.validate)
  let p ← Fault.mapCause .program (Program.ofData file.A file.b file.c file.cones file.map)
  pure (p, settings)

/-! ## Writing -/

/-- The indices of a list. -/
def ofIndices (xs : List Nat) : Value := .list (xs.map .ofNat)

/-- A vector. -/
def ofFloats (xs : Array Float) : Value := .list (xs.toList.map .ofFloat)

/-- The matrix. -/
def ofMatrix (A : Csc Float) : Value :=
  .record [("m", .ofNat A.nrows), ("n", .ofNat A.ncols), ("colptr", ofIndices A.colPtr.toList),
    ("rowval", ofIndices A.rowIdx.toList), ("nzval", ofFloats A.values)]

/-- A cone. -/
def ofCone : ConeSpec Nat → Value
  | .nonnegative i => .record [("NonnegativeConeT", .ofNat i)]
  | .secondOrder bound vector =>
    .record [("SecondOrderConeT", .record [("bound", .ofNat bound), ("vector", ofIndices vector)])]

/-- The variables of the columns. -/
def ofMap (m : VariableMap) : Value :=
  .record [("columns", ofIndices m.columns.toList),
    ("variables", ofIndices (m.ids.toList.map VariableId.index))]

/-- The value of a setting. -/
def ofSlot (s : Settings Float) : Settings.Slot (fun β => β) Float → Value
  | .count get _ => .ofNat (get s)
  | .seconds get _ => .ofFloat (get s)
  | .flag get _ => .bool (get s)
  | .scalar get _ => .ofFloat (get s)

/-- Settings whose time limit is the largest value if it was infinite. -/
def closeTimeLimit (s : Settings Float) : Settings Float :=
  if s.timeLimit == 1.0 / 0.0 then { s with timeLimit := largest } else s

/-- The settings. -/
def ofSettings (s : Settings Float) : Value :=
  .record ((Settings.slots (fun β => β) Float).map fun slot =>
    (slot.1, ofSlot (closeTimeLimit s) slot.2))

/-- The text of a file for a program and, if any, the settings beside it. -/
def write (p : Program Float) (settings : Option (Settings Float)) : String :=
  (Value.record [
    ("A", ofMatrix p.A),
    ("b", ofFloats p.b),
    ("c", ofFloats p.c),
    ("cones", .list (p.cones.map ofCone)),
    ("variables", ofMap p.map),
    ("settings", (settings.map ofSettings).getD .null)]).write

end ProgramFile

end Conic
