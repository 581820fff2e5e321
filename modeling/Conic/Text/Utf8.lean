/-!
# Decoding UTF-8

`decode` turns any bytes into characters.  Bytes that are no UTF-8 are decoded
too.  Each part of them that could have begun a character, and that is as long
as it can be, becomes one replacement character.

The decoder reads one byte after the other.  Between two characters it owes
nothing.  Inside a character it owes a list of ranges, one for each byte that
is missing.  A byte outside the first of these ranges ends the part, and is
read again as a first byte.
-/

namespace Conic.Utf8

/-- Stands for bytes that are no character. -/
def replacement : Char := '\ufffd'

/-- The bytes that a position inside a character admits. -/
structure Range where
  /-- The least byte. -/
  lo : Nat
  /-- The greatest byte. -/
  hi : Nat

/-- Any continuation byte. -/
def Range.tail : Range := ⟨0x80, 0xBF⟩

/-- The byte lies in the range. -/
def Range.admits (r : Range) (b : Nat) : Bool := decide (r.lo ≤ b ∧ b ≤ r.hi)

/-- A character of which some bytes are missing. -/
structure Partial where
  /-- The number that the bytes so far stand for. -/
  code : Nat
  /-- The ranges of the missing bytes. -/
  owed : List Range

/-- What a first byte begins.  It is `none` if no character begins with it. -/
def first? (b : Nat) : Option Partial :=
  if b ≤ 0x7F then some ⟨b, []⟩
  else if b < 0xC2 then none
  else if b ≤ 0xDF then some ⟨b - 0xC0, [.tail]⟩
  else if b = 0xE0 then some ⟨0, [⟨0xA0, 0xBF⟩, .tail]⟩
  else if b = 0xED then some ⟨13, [⟨0x80, 0x9F⟩, .tail]⟩
  else if b ≤ 0xEF then some ⟨b - 0xE0, [.tail, .tail]⟩
  else if b = 0xF0 then some ⟨0, [⟨0x90, 0xBF⟩, .tail, .tail]⟩
  else if b ≤ 0xF3 then some ⟨b - 0xF0, [.tail, .tail, .tail]⟩
  else if b = 0xF4 then some ⟨4, [⟨0x80, 0x8F⟩, .tail, .tail]⟩
  else none

/-- The decoder between two bytes: the characters so far, last one first, and
the one that has begun. -/
structure State where
  /-- The characters so far, last one first. -/
  done : List Char
  /-- The character that has begun. -/
  begun : Option Partial

/-- Goes on with a character, which may be complete. -/
def State.extend (done : List Char) (p : Partial) : State :=
  match p.owed with
  | [] => ⟨Char.ofNat p.code :: done, none⟩
  | _ :: _ => ⟨done, some p⟩

/-- Reads a byte between two characters. -/
def State.start (done : List Char) (b : Nat) : State :=
  match first? b with
  | some p => .extend done p
  | none => ⟨replacement :: done, none⟩

/-- Reads a byte. -/
def State.read (s : State) (byte : UInt8) : State :=
  let b := byte.toNat
  match s.begun with
  | none => .start s.done b
  | some ⟨_, []⟩ => .start s.done b
  | some ⟨code, r :: owed⟩ =>
    if r.admits b then .extend s.done ⟨64 * code + (b - 0x80), owed⟩
    else .start (replacement :: s.done) b

/-- The characters, once no byte is left. -/
def State.finish (s : State) : List Char :=
  match s.begun with
  | none => s.done.reverse
  | some _ => (replacement :: s.done).reverse

/-- The characters that bytes stand for. -/
def decode (bytes : List UInt8) : List Char := (bytes.foldl State.read ⟨[], none⟩).finish

/-- The text that bytes stand for. -/
def text (bytes : ByteArray) : String := String.ofList (decode bytes.toList)

/-! ## Closed examples -/

example : decode [0x41, 0xC3, 0xA9] = ['A', 'é'] := by decide

example : decode [0xE2, 0x82, 0x41] = [replacement, 'A'] := by decide

example : decode [0xED, 0xA0, 0x80] = [replacement, replacement, replacement] := by decide

end Conic.Utf8
