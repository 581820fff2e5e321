import Conic.Json.Number
import Conic.Json.Value

/-!
# Reading a data file

`read` turns a text into the tree of its value and the text behind that value.
There is no text behind a value that breaks.

Reading is by recursion on a budget of steps.  At most three steps in a row
take no character off the text: from a value to its list of items, from there
to the first item, and from the item to its value.  So three times the length of
the text is enough.  A string takes a character in every step, so what is left
of the budget is enough for it too.
-/

namespace Conic.Json

/-- The four blank characters. -/
def isBlank (c : Char) : Bool := c == ' ' || c == '\n' || c == '\t' || c == '\r'

/-- A text without the blanks that it begins with. -/
def skipBlanks (cs : List Char) : List Char := cs.dropWhile isBlank

/-! ## Strings -/

/-- The value of a hexadecimal digit. -/
def hexDigit? (c : Char) : Option Nat :=
  if c.isDigit then some (c.toNat - '0'.toNat)
  else if 'a' ≤ c ∧ c ≤ 'f' then some (c.toNat - 'a'.toNat + 10)
  else if 'A' ≤ c ∧ c ≤ 'F' then some (c.toNat - 'A'.toNat + 10)
  else none

/-- Four hexadecimal digits.  A text that has no room for four bytes ends too
early. -/
def hexCode (cs : List Char) : Except Defect (Nat × List Char) :=
  let room := (cs.take 4).foldl (fun n c => n + c.utf8Size) 0
  if room < 4 then .error .truncated
  else
    match cs with
    | a :: b :: c :: d :: rest =>
      match hexDigit? a, hexDigit? b, hexDigit? c, hexDigit? d with
      | some a, some b, some c, some d => .ok (4096 * a + 256 * b + 16 * c + d, rest)
      | _, _, _, _ => .error .malformed
    | _ => .error .malformed

/-- The character that a letter behind a backslash stands for. -/
def escape? : Char → Option Char
  | '"' => some '"'
  | '\\' => some '\\'
  | '/' => some '/'
  | 'b' => some '\x08'
  | 'f' => some '\x0c'
  | 'n' => some '\n'
  | 'r' => some '\r'
  | 't' => some '\t'
  | _ => none

/-- A string, as far as it could be read. -/
inductive Text where
  /-- Its characters, unless a surrogate stood alone, and the text behind it. -/
  | complete (text : Option (List Char)) (rest : List Char)
  /-- The text breaks inside the string. -/
  | broken (how : Break)

/-- The code is the first half of a surrogate pair. -/
def isLeading (n : Nat) : Bool := decide (0xD800 ≤ n ∧ n ≤ 0xDBFF)

/-- The code is the second half of a surrogate pair. -/
def isTrailing (n : Nat) : Bool := decide (0xDC00 ≤ n ∧ n ≤ 0xDFFF)

/-- The characters of a string behind its opening quote.  `acc` holds those
read so far, last one first, or `none` once a surrogate stood alone. -/
def readText : Nat → Option (List Char) → List Char → Text
  | 0, _, _ => .broken .malformed
  | fuel + 1, acc, cs =>
    let cut : Text := .broken (.inString acc.isNone)
    let push (c : Char) : Option (List Char) := acc.map (c :: ·)
    match cs with
    | [] => cut
    | '"' :: rest => .complete (acc.map List.reverse) rest
    | '\\' :: 'u' :: rest =>
      match hexCode rest with
      | .error .truncated => cut
      | .error .malformed => .broken .malformed
      | .ok (n, rest') =>
        if isLeading n then
          match rest' with
          | [] => cut
          | ['\\'] => cut
          | '\\' :: 'u' :: rest'' =>
            match hexCode rest'' with
            | .error .truncated => cut
            | .error .malformed => .broken .malformed
            | .ok (n', rest''') =>
              if isTrailing n' then
                let c := Char.ofNat (0x10000 + 1024 * (n - 0xD800) + (n' - 0xDC00))
                readText fuel (push c) rest'''
              else readText fuel none rest'
          | _ => readText fuel none rest'
        else if isTrailing n then readText fuel none rest'
        else readText fuel (push (Char.ofNat n)) rest'
    | '\\' :: c :: rest =>
      match escape? c with
      | some c => readText fuel (push c) rest
      | none => .broken .malformed
    | ['\\'] => cut
    | c :: rest => if c.toNat < 0x20 then .broken .malformed else readText fuel (push c) rest

/-! ## Words -/

/-- The rest of a word that has begun, and then a value. -/
def readWord (word : List Char) (v : Value) (cs : List Char) : Value × Option (List Char) :=
  match word, cs with
  | [], rest => (v, some rest)
  | _ :: _, [] => (.broken .inWord, none)
  | w :: ws, c :: rest => if w = c then readWord ws v rest else (.broken .malformed, none)

/-! ## Values -/

/-- Items, how they end, and the text behind them. -/
abbrev ReadItems := List Value × Ending × Option (List Char)

/-- Members, how they end, and the text behind them. -/
abbrev ReadMembers := List (Option String × Value) × Ending × Option (List Char)

mutual

/-- The value that a text begins with. -/
def readValue : Nat → List Char → Value × Option (List Char)
  | 0, _ => (.broken .malformed, none)
  | fuel + 1, cs =>
    match skipBlanks cs with
    | [] => (.broken .atEnd, none)
    | '"' :: rest =>
      match readText fuel (some []) rest with
      | .complete text rest' => (.string (text.map String.ofList), some rest')
      | .broken how => (.broken how, none)
    | '[' :: rest =>
      let (items, ending, rest') := readItems fuel true rest
      (.array items ending, rest')
    | '\x7b' :: rest =>
      let (members, ending, rest') := readMembers fuel true rest
      (.object members ending, rest')
    | 'n' :: rest => readWord ['u', 'l', 'l'] .null rest
    | 't' :: rest => readWord ['r', 'u', 'e'] (.bool true) rest
    | 'f' :: rest => readWord ['a', 'l', 's', 'e'] (.bool false) rest
    | c :: rest =>
      if c = '-' ∨ c.isDigit then
        match Number.scan (c :: rest) with
        | .complete literal rest' => (.number literal, some rest')
        | .cut => (.broken .inNumber, none)
        | .bad => (.broken .malformed, none)
      else (.broken .malformed, none)

/-- The items of a list up to its closing bracket. -/
def readItems : Nat → Bool → List Char → ReadItems
  | 0, _, _ => ([], .broken false .malformed, none)
  | fuel + 1, first, cs =>
    match skipBlanks cs with
    | [] => ([], .broken false .atEnd, none)
    | ']' :: rest => ([], .closed, some rest)
    | c :: rest =>
      if first then readItem fuel (c :: rest)
      else if c = ',' then
        match skipBlanks rest with
        | [] => ([], .broken true .atEnd, none)
        | ']' :: _ => ([], .broken true .malformed, none)
        | c' :: rest' => readItem fuel (c' :: rest')
      else ([], .broken false .malformed, none)

/-- One item and those behind it. -/
def readItem : Nat → List Char → ReadItems
  | 0, _ => ([], .broken false .malformed, none)
  | fuel + 1, cs =>
    match readValue fuel cs with
    | (v, none) => ([v], .closed, none)
    | (v, some rest) =>
      let (items, ending, rest') := readItems fuel false rest
      (v :: items, ending, rest')

/-- The members of a record up to its closing brace. -/
def readMembers : Nat → Bool → List Char → ReadMembers
  | 0, _, _ => ([], .broken false .malformed, none)
  | fuel + 1, first, cs =>
    match skipBlanks cs with
    | [] => ([], .broken false .atEnd, none)
    | '\x7d' :: rest => ([], .closed, some rest)
    | c :: rest =>
      if first then readMember fuel false (c :: rest)
      else if c = ',' then
        match skipBlanks rest with
        | [] => ([], .broken true .atEnd, none)
        | c' :: rest' => readMember fuel true (c' :: rest')
      else ([], .broken false .malformed, none)

/-- One member and those behind it.  Its name is a string, and a colon stands
between the name and the value. -/
def readMember : Nat → Bool → List Char → ReadMembers
  | 0, _, _ => ([], .broken false .malformed, none)
  | fuel + 1, afterComma, cs =>
    match cs with
    | '"' :: rest =>
      match readText fuel (some []) rest with
      | .broken how => ([], .broken afterComma how, none)
      | .complete text rest' =>
        let name := text.map String.ofList
        match skipBlanks rest' with
        | [] => ([(name, .broken .atEnd)], .closed, none)
        | ':' :: rest'' =>
          match readValue fuel rest'' with
          | (v, none) => ([(name, v)], .closed, none)
          | (v, some rest''') =>
            let (members, ending, last) := readMembers fuel false rest'''
            ((name, v) :: members, ending, last)
        | _ => ([(name, .broken .malformed)], .closed, none)
    | _ => ([], .broken afterComma .malformed, none)

end

/-- The value of a whole text, and whether only blanks follow it. -/
structure Document where
  /-- The value. -/
  value : Value
  /-- Something other than blanks follows the value. -/
  trailing : Bool

/-- Reads a text. -/
def read (s : String) : Document :=
  let cs := s.toList
  match readValue (3 * cs.length + 3) cs with
  | (v, none) => ⟨v, false⟩
  | (v, some rest) => ⟨v, !(skipBlanks rest).isEmpty⟩

end Conic.Json
