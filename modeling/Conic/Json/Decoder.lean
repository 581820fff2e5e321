import Conic.Json.Number
import Conic.Json.Value

/-!
# Decoding a data file

A `Decoder β` takes a value apart that should describe a `β`.  It walks the
value in the order of its text and stops at the first defect.

A record is described by its fields.  It may be written in two forms.

* With names: the members come in any order.  Members with other names are
  skipped, and no name of a field comes twice.
* In order: a list holds the values of the fields in their order.

A field may be optional.  With names an optional field may be missing.  In
order a list may stop where only optional fields are left.

One of several cases is written as a record with one member.  Its name is the
name of the case.
-/

namespace Conic.Json

/-- Takes a value apart. -/
abbrev Decoder (β : Type) := Value → Except Defect β

namespace Decoder

variable {β σ : Type}

/-! ## Simple values -/

/-- A count that is at most `bound`. -/
def natural (bound : Nat) : Decoder Nat
  | .number literal => (Number.natural? bound literal).elim (.error .malformed) .ok
  | v => .error v.unwanted

/-- A floating point number. -/
def float : Decoder Float
  | .number literal => (Number.float? literal).elim (.error .malformed) .ok
  | v => .error v.unwanted

/-- One of the words `true` and `false`. -/
def bool : Decoder Bool
  | .bool b => .ok b
  | v => .error v.unwanted

/-- A value, or `null` for none. -/
def optional (d : Decoder β) : Decoder (Option β)
  | .null => .ok none
  | v => (d v).map some

/-- A list. -/
def list (d : Decoder β) : Decoder (List β)
  | .array items ending => do
    let xs ← items.mapM d
    match ending with
    | .closed => pure xs
    | .broken _ how => throw how.wanted
  | v => .error v.unwanted

/-- A list, as an array. -/
def array (d : Decoder β) : Decoder (Array β) := fun v => (list d v).map List.toArray

/-! ## Records -/

/-- A field of a record. -/
structure Field (σ : Type) where
  /-- The name. -/
  name : String
  /-- The field may be missing. -/
  optional : Bool
  /-- Takes the value of the field apart and stores it in a record. -/
  store : Value → σ → Except Defect σ

/-- A field that is stored by `set`. -/
def Field.of (name : String) (d : Decoder β) (set : β → σ → σ) (mayMiss : Bool := false) :
    Field σ where
  name := name
  optional := mayMiss
  store v s := (d v).map (set · s)

/-- Stores named members.  `seen` lists the fields that have been stored. -/
def members (fields : List (Field σ)) (seen : List String) (s : σ) :
    List (Option String × Value) → Except Defect (List String × σ)
  | [] => .ok (seen, s)
  | (none, _) :: _ => .error .malformed
  | (some name, v) :: rest =>
    match fields.find? fun f => f.name == name with
    | none => do v.skip; members fields seen s rest
    | some f =>
      if seen.contains name then .error .malformed
      else do members fields (name :: seen) (← f.store v s) rest

/-- Stores the items of a list in the order of the fields. -/
def inOrder (s : σ) : List (Field σ) → List Value → Ending → Except Defect σ
  | [], [], .closed => .ok s
  | [], [], .broken true _ => .error .malformed
  | [], [], .broken false how => .error how.wanted
  | [], _ :: _, _ => .error .malformed
  | f :: fields, v :: items, ending => do inOrder (← f.store v s) fields items ending
  | _ :: _, [], .broken _ how => .error how.wanted
  | f :: fields, [], .closed =>
    if (f :: fields).all (·.optional) then .ok s else .error .malformed

/-- A record.  `start` holds the values of missing fields. -/
def record (fields : List (Field σ)) (start : σ) : Decoder σ
  | .array items ending => inOrder start fields items ending
  | .object ms ending => do
    let (seen, s) ← members fields [] start ms
    match ending with
    | .broken _ how => throw how.wanted
    | .closed =>
      if fields.all fun f => f.optional || seen.contains f.name then pure s else throw .malformed
  | v => .error v.unwanted

/-! ## Cases -/

/-- One of the named cases. -/
def oneOf (cases : List (String × Decoder β)) : Decoder β
  | .object ((name, v) :: rest) ending => do
    match cases.find? fun c => some c.1 == name with
    | none => throw .malformed
    | some c =>
      let b ← c.2 v
      match rest, ending with
      | [], .closed => pure b
      | [], .broken false how => throw how.wanted
      | _, _ => throw .malformed
  | .object [] (.broken _ how) => .error how.wanted
  | .broken how => .error how.asCase
  | _ => .error .malformed

end Decoder

end Conic.Json
