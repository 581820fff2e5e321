/-!
# Sinks

A sink takes bytes.  It can fail at any byte, and it can fail to flush.  Bytes
before a failure have been taken.

`print` writes a text.  A caller that prints learns whether everything was
taken, and may ignore it.
-/

namespace Conic

/-- Something that takes bytes. -/
class Sink (σ : Type) where
  /-- Takes bytes.  The answer is no if it failed before the last one. -/
  write : ByteArray → σ → Bool × σ
  /-- Makes sure that nothing is pending.  The answer is no if that failed. -/
  flush : σ → Bool × σ

namespace Sink

variable {σ : Type} [Sink σ]

/-- Writes a text. -/
def print (text : String) (s : σ) : Bool × σ := write text.toUTF8 s

/-- Writes a text, and flushes if it was taken. -/
def printFlush (text : String) (s : σ) : Bool × σ :=
  match print text s with
  | (true, s) => flush s
  | (false, s) => (false, s)

end Sink

end Conic
