import Conic.Decimal.Layout
import Conic.Json.Value

/-!
# Writing a data file

`Value.write` is the text of a value, without blanks.  Members are written in
their order.  In a string the quote, the backslash and the control characters
are escaped, and every other character stands for itself.

A floating point value is written with the fewest digits that read back to it.
The format has no text for an infinite or undefined value, so `ofFloat` gives
`null` for it.
-/

namespace Conic.Json

/-- A hexadecimal digit. -/
def hexChar (n : Nat) : Char := if n < 10 then Char.ofNat (48 + n) else Char.ofNat (87 + n)

/-- A character as it stands in a string. -/
def escapeChar (c : Char) : List Char :=
  match c with
  | '"' => ['\\', '"']
  | '\\' => ['\\', '\\']
  | '\n' => ['\\', 'n']
  | '\r' => ['\\', 'r']
  | '\t' => ['\\', 't']
  | '\x08' => ['\\', 'b']
  | '\x0c' => ['\\', 'f']
  | c =>
    if c.toNat < 0x20 then ['\\', 'u', '0', '0', hexChar (c.toNat / 16), hexChar (c.toNat % 16)]
    else [c]

/-- A string in quotes. -/
def quote (s : String) : String :=
  String.ofList ('"' :: s.toList.flatMap escapeChar ++ ['"'])

/-- A finite floating point number, or `null`. -/
def Value.ofFloat (x : Float) : Value :=
  if x.isFinite then .number (Decimal.Layout.data.text x).toList else .null

mutual

/-- The text of a value.  Where a tree breaks, so does its text. -/
def Value.write : Value → String
  | .null => "null"
  | .bool true => "true"
  | .bool false => "false"
  | .number literal => String.ofList literal
  | .string (some s) => quote s
  | .string none => "\"\\ud800\""
  | .array items _ => "[" ++ String.intercalate "," (writeItems items) ++ "]"
  | .object members _ => "\x7b" ++ String.intercalate "," (writeMembers members) ++ "\x7d"
  | .broken _ => ""

/-- The texts of items. -/
def writeItems : List Value → List String
  | [] => []
  | v :: vs => v.write :: writeItems vs

/-- The texts of members. -/
def writeMembers : List (Option String × Value) → List String
  | [] => []
  | (name, v) :: vs => (quote (name.getD "") ++ ":" ++ v.write) :: writeMembers vs

end

end Conic.Json
