import PackedRecord.Bytes.LittleEndian
import PackedRecord.Text.Utf8

/-!
# Writing bytes

An `Output` is what a writer has put out: some bytes, and the fault that stopped it, if one did.
Outputs join with `++`, where nothing is written after a fault.
-/

namespace PackedRecord

/-- Bytes written, and why the writer stopped early. -/
structure Output (ε : Type) where
  bytes : List UInt8
  fault : Option ε := none

namespace Output

variable {ε : Type}

def empty : Output ε := ⟨[], none⟩

def fail (fault : ε) : Output ε := ⟨[], some fault⟩

/-- One output after another.  The second is not written if the first stopped early. -/
def append (first second : Output ε) : Output ε :=
  match first.fault with
  | none => ⟨first.bytes ++ second.bytes, second.fault⟩
  | some _ => first

instance : Append (Output ε) := ⟨append⟩

def ofBytes (bytes : List UInt8) : Output ε := ⟨bytes, none⟩

def complete (o : Output ε) : Except ε (List UInt8) :=
  match o.fault with
  | none => .ok o.bytes
  | some fault => .error fault

end Output

def maxTextLength : Nat := 0xFFFFFFFF

/-- A text on the wire: its length in four bytes, then its bytes, with nothing after them.  A text
too long for its length field has no such form. -/
def textBytes? (s : String) : Option (List UInt8) :=
  let payload := Utf8.encode s
  if payload.length ≤ maxTextLength then
    some (littleEndian 4 payload.length ++ payload)
  else none

end PackedRecord
