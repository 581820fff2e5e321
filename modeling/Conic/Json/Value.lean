/-!
# Values of a data file

A data file is a text that should hold one value.  A reader of such a file has
to say more than whether it does.  It says whether the text *ended too early*,
everything before its end being acceptable, or was *not acceptable*.  Which one
it is depends on what the reader wants.  A number in the place of a list is not
acceptable, however the text goes on.

`Value` is therefore the tree of a text that may break off.  At the place of
the break stands a `Break`.  It says how the text breaks there, and nothing
follows it.  Whoever walks the tree in the order of the text meets either an
unwanted value first or the break.

A break counts differently for the ways to meet it.

* `Break.wanted`: a value was wanted here.
* `Break.asCase`: one of several named cases was wanted here.
* `Break.skipped`: any value would do, since nobody reads it.

Strings are Unicode texts.  An escaped surrogate that stands alone is no
character.  A string that holds one can be skipped but not read, so its text is
`none`.
-/

namespace Conic.Json

/-- Why a text is refused. -/
inductive Defect where
  /-- The text ends too early, and all before its end is acceptable. -/
  | truncated
  /-- The text is not acceptable, however it goes on. -/
  | malformed
  deriving Repr, DecidableEq

/-- How a text breaks. -/
inductive Break where
  /-- It ends between two tokens. -/
  | atEnd
  /-- It ends inside a number. -/
  | inNumber
  /-- It ends inside one of the three words. -/
  | inWord
  /-- It ends inside a string, and whether a surrogate stood alone in it. -/
  | inString (lone : Bool)
  /-- It goes on against the grammar. -/
  | malformed
  deriving Repr, DecidableEq

namespace Break

/-- A string that ends too early, or that could not be read anyway. -/
def ofString (lone : Bool) : Defect := if lone then .malformed else .truncated

/-- The defect, where a value was wanted. -/
def wanted : Break → Defect
  | atEnd => .truncated
  | inNumber => .truncated
  | inWord => .truncated
  | inString lone => ofString lone
  | malformed => .malformed

/-- The defect, where one of several named cases was wanted.  No case begins
as a number or a word does. -/
def asCase : Break → Defect
  | atEnd => .truncated
  | inNumber => .malformed
  | inWord => .malformed
  | inString lone => ofString lone
  | malformed => .malformed

/-- The defect, where the value would have been skipped.  Skipping does not
look beyond a number that is not complete. -/
def skipped : Break → Defect
  | atEnd => .truncated
  | inNumber => .malformed
  | inWord => .truncated
  | inString _ => .truncated
  | malformed => .malformed

end Break

/-- How a list of items or members ends. -/
inductive Ending where
  /-- With its closing bracket. -/
  | closed
  /-- With a break, and whether a comma was read before it. -/
  | broken (afterComma : Bool) (how : Break)
  deriving Repr, DecidableEq

/-- The tree of a text, as far as it could be read. -/
inductive Value where
  /-- The word `null`. -/
  | null
  /-- One of the words `true` and `false`. -/
  | bool (b : Bool)
  /-- A number, as it is written. -/
  | number (literal : List Char)
  /-- A string.  It has no text if a surrogate stands alone in it. -/
  | string (text : Option String)
  /-- A list of items. -/
  | array (items : List Value) (ending : Ending)
  /-- A list of named members, in their order. -/
  | object (members : List (Option String × Value)) (ending : Ending)
  /-- The text breaks here. -/
  | broken (how : Break)
  deriving Repr

namespace Value

/-- A complete list. -/
def list (items : List Value) : Value := array items .closed

/-- A complete record with the given members. -/
def record (members : List (String × Value)) : Value :=
  object (members.map fun m => (some m.1, m.2)) .closed

/-- A string. -/
def ofString (s : String) : Value := string (some s)

/-- A count, written in decimal. -/
def ofNat (n : Nat) : Value := number (Nat.toDigits 10 n)

end Value

/-- What is wrong with a value that is not of the wanted kind. -/
def Value.unwanted : Value → Defect
  | .broken how => how.wanted
  | _ => .malformed

/-- What skipping meets at the end of a list. -/
def Ending.skip : Ending → Except Defect Unit
  | closed => .ok ()
  | broken _ how => .error how.skipped

mutual

/-- Skips a value.  This fails where its text breaks. -/
def Value.skip : Value → Except Defect Unit
  | .array items ending => do skipItems items; ending.skip
  | .object members ending => do skipMembers members; ending.skip
  | .broken how => .error how.skipped
  | _ => .ok ()

/-- Skips the items of a list. -/
def skipItems : List Value → Except Defect Unit
  | [] => .ok ()
  | v :: vs => do v.skip; skipItems vs

/-- Skips the members of a record. -/
def skipMembers : List (Option String × Value) → Except Defect Unit
  | [] => .ok ()
  | (_, v) :: vs => do v.skip; skipMembers vs

end

end Conic.Json
