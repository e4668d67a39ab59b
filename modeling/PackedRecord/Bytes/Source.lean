import PackedRecord.Bytes.LittleEndian
import PackedRecord.Text.Utf8

/-!
# Reading bytes

A `Source` is a byte list with a position in it.  A reading either yields a value or stops with a
fault, and tells in both cases where it left the source: a text that promises more bytes than there
are leaves its length taken, every other reading that fails takes nothing.
-/

namespace PackedRecord

structure Source where
  rest : List UInt8
  index : Nat := 0

namespace Source

def ofBytes (bytes : List UInt8) : Source :=
  { rest := bytes }

def remaining (s : Source) : Nat :=
  s.rest.length

end Source

/-- A reading from a source that may stop with a fault of type `ε`. -/
abbrev Reading (ε : Type) := EStateM ε Source

namespace Reading

variable {ε : Type}

/-- The next `n` bytes; `fault` if there are fewer. -/
def bytes (fault : ε) (n : Nat) : Reading ε (List UInt8) := fun s =>
  let front := s.rest.take n
  if front.length = n then
    .ok front ⟨s.rest.drop n, s.index + n⟩
  else
    .error fault s

def byte (fault : ε) : Reading ε UInt8 := fun s =>
  match s.rest with
  | [] => .error fault s
  | b :: rest => .ok b ⟨rest, s.index + 1⟩

def word (fault : ε) (width : Nat) : Reading ε Nat :=
  ofLittleEndian <$> bytes fault width

/-- A four byte length and that many bytes of text.  What is not UTF-8 among them is replaced and
not refused: the bytes of a text are opaque on the wire. -/
def text (fault : ε) : Reading ε String := do
  let length ← word fault 4
  return Utf8.decodeLossy (← bytes fault length)

end Reading

end PackedRecord
