import PackedRecord.Bytes.Memory
import PackedRecord.Plan.Read
import PackedRecord.Value.Encode

/-!
# Writing a buffer by a plan

`Plan.write` does to a buffer of zeros what the generated writer does to the caller's buffer, with
the same checks in the same order, and `Plan.writeNew` makes that buffer first.  Texts are measured up
to their first NUL, as C measures them, so what follows a NUL is not written.
-/

namespace PackedRecord

inductive WriteError where
  | fault (f : Fault)
  | missingMember (path : String)
  | codec (e : CodecError)
  | capacityOverflow

def WriteError.message : WriteError → String
  | fault f => f.message
  | missingMember path => "Record has no member " ++ path
  | codec e => e.message
  | capacityOverflow => "capacity overflow"

structure Written where
  bytes : List UInt8
  cursor : Nat
  deriving DecidableEq

def Written.payload (w : Written) : List UInt8 :=
  w.bytes.take w.cursor

def overwrite (buffer : List UInt8) (offset : Nat) (bytes : List UInt8) : List UInt8 :=
  buffer.take offset ++ bytes ++ buffer.drop (offset + bytes.length)

/-- The bytes of a text that C sees: those before the first NUL. -/
def visibleBytes (s : String) : List UInt8 :=
  (Utf8.encode s).takeWhile (· ≠ 0)

namespace Plan

/-- A writing by plan: its state is the buffer with the cursor. -/
abbrev Writer := StateT Written (Except WriteError)

def writeFixed (access : Access) (bytes : List UInt8) : Writer Unit := do
  let w ← get
  let offset :=
    match access with
    | .static offset => offset
    | .cursor => w.cursor
  if offset + bytes.length ≤ w.bytes.length then
    let cursor := if access = .cursor then offset + bytes.length else w.cursor
    set (Written.mk (overwrite w.bytes offset bytes) cursor)
  else throw (.fault .bufferTooShort)

def lookUp (record : Value) (place : Place) : Writer Value :=
  match record.getPath? place.path with
  | some v => return v
  | none => throw (.missingMember place.dotted)

def mismatch {α : Type} (place : Place) (expected : Expectation) : Writer α :=
  throw (.codec (.mismatch place.dotted expected))

def encoded (v : Value) (ty : FieldType) : Writer (List UInt8) :=
  match v.encode ty with
  | .ok bytes => return bytes
  | .error e => throw (.codec e)

def writeText (place : Place) : Value → Writer Unit
  | .text s => do
    let bytes := visibleBytes s
    if maxTextLength < bytes.length then
      throw (.fault .bufferTooShort)
    writeFixed .cursor (littleEndian 4 bytes.length)
    writeFixed .cursor bytes
  | _ => mismatch place .text

def writeTexts (place : Place) : List Value → Writer Unit
  | [] => return ()
  | v :: rest => do
    writeText place v
    writeTexts place rest

def writeTransfer (record : Value) (place : Place) : Transfer → Writer Unit
  | .scalar kind access => do
    writeFixed access (← encoded (← lookUp record place) (.scalar kind))
  | .block ty _ access => do
    writeFixed access (← encoded (← lookUp record place) ty)
  | .text => do writeText place (← lookUp record place)
  | .texts count => do
    match ← lookUp record place with
    | .array items =>
      if items.length = count then writeTexts place items else mismatch place (.texts count)
    | _ => mismatch place (.texts count)
  | .optionalText => do
    match ← lookUp record place with
    | .absent => writeFixed .cursor [0]
    | .present v => do
      writeFixed .cursor [1]
      writeText place v
    | _ => mismatch place .optionalText
  | .optionalScalar kind => do
    match ← lookUp record place with
    | .absent => writeFixed .cursor [0]
    | .present v => do
      -- The value is looked at before anything is written.
      let bytes ← encoded v (.scalar kind)
      writeFixed .cursor [1]
      writeFixed .cursor bytes
    | _ => mismatch place .optionalScalar

def writeSteps (record : Value) : List Step → Writer Unit
  | [] => return ()
  | .seedCursor offset :: rest => do
    modify fun w => { w with cursor := offset }
    writeSteps record rest
  | .move place transfer :: rest => do
    writeTransfer record place transfer
    writeSteps record rest

/-- Writes a record into a buffer of zeros. -/
def write (p : Plan) (record : Value) (capacity : Nat) : Except WriteError Written :=
  if capacity < p.fixedSize then .error (.fault .bufferTooShort)
  else do
    let start : Written := ⟨List.replicate capacity 0, p.fixedSize⟩
    let ((), w) ← (writeSteps record p.steps).run start
    return w

/-- Writes a record into a new buffer, for which there must be memory. -/
def writeNew (p : Plan) (record : Value) (capacity : Nat) : Except WriteError Written :=
  if p.fixedSize ≤ capacity ∧ maxBlock < capacity then .error .capacityOverflow
  else p.write record capacity

end Plan

end PackedRecord
