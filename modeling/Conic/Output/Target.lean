import Conic.Output.Sink
import Conic.Text.Utf8

/-!
# Where printed text goes

A `PrintTarget` sends what is printed to one of several places: the standard
output, a stream in memory, a file, or a buffer that can be read back.  It can
be redirected at any time.  What is pending in the old place is flushed first,
and a failure of that flush is ignored.

The streams in memory share one memory.  The plain stream also records every
flush in it.  A limited stream takes a number of bytes and fails from then on.
A failing stream takes none.  Writing no bytes never fails.

A buffer is fresh whenever output is redirected to it, and a file is empty.
-/

namespace Conic

/-- Why an operation on a print target fails. -/
inductive OutputError where
  /-- The output does not go to a buffer. -/
  | notBuffered
  /-- The place does not take more. -/
  | failing
  deriving Repr, DecidableEq

/-- The text of an error. -/
def OutputError.message : OutputError → String
  | notBuffered => "output is not being buffered"
  | failing => "failing"

/-- A place that takes output. -/
inductive Place where
  /-- The standard output. -/
  | stdout
  /-- The stream in memory. -/
  | stream
  /-- A stream to the same memory that takes `room` more bytes. -/
  | limited (room : Nat)
  /-- A stream that takes nothing. -/
  | failing
  /-- A file. -/
  | file
  /-- A buffer, with what it holds. -/
  | buffer (held : ByteArray)

/-- A place, and everything that was written to the others. -/
structure PrintTarget where
  /-- Where output goes. -/
  place : Place
  /-- What went to the standard output. -/
  stdout : ByteArray
  /-- What went to the streams in memory. -/
  memory : ByteArray
  /-- What went to the newest file. -/
  file : ByteArray

namespace PrintTarget

/-- Output goes to the standard output at first. -/
def initial : PrintTarget := ⟨.stdout, .empty, .empty, .empty⟩

/-- What stands in the memory for a flush. -/
def flushMark : ByteArray := "<flush>".toUTF8

/-- Takes bytes. -/
def write (bytes : ByteArray) (t : PrintTarget) : Bool × PrintTarget :=
  match t.place with
  | .stdout => (true, { t with stdout := t.stdout ++ bytes })
  | .stream => (true, { t with memory := t.memory ++ bytes })
  | .limited room =>
    let taken := bytes.extract 0 room
    (decide (bytes.size ≤ room),
      { t with place := .limited (room - taken.size), memory := t.memory ++ taken })
  | .failing => (bytes.isEmpty, t)
  | .file => (true, { t with file := t.file ++ bytes })
  | .buffer held => (true, { t with place := .buffer (held ++ bytes) })

/-- Makes sure that nothing is pending. -/
def flush (t : PrintTarget) : Bool × PrintTarget :=
  match t.place with
  | .stream => (true, { t with memory := t.memory ++ flushMark })
  | .failing => (false, t)
  | _ => (true, t)

instance : Sink PrintTarget where
  write := write
  flush := flush

/-- Sends what is printed from now on to another place. -/
def redirect (place : Place) (t : PrintTarget) : PrintTarget :=
  let t := (flush t).2
  let file :=
    match place with
    | .file => .empty
    | _ => t.file
  { t with place := place, file := file }

/-- The text in the buffer. -/
def buffered (t : PrintTarget) : Except OutputError String :=
  match t.place with
  | .buffer held => .ok (Utf8.text held)
  | _ => .error .notBuffered

/-- What a buffer took can be read back. -/
theorem buffered_write_buffer (t : PrintTarget) (held bytes : ByteArray)
    (h : t.place = .buffer held) :
    (t.write bytes).2.buffered = .ok (Utf8.text (held ++ bytes)) := by
  simp [write, buffered, h]

end PrintTarget

end Conic
