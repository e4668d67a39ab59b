import PackedRecord.Bytes.LittleEndian
import PackedRecord.C.Status
import PackedRecord.Plan.Build
import PackedRecord.Value.Decode

/-!
# Reading a buffer by a plan

`Plan.read` does to a byte list what the generated reader does to a buffer, with the same checks in
the same order, and gives the record as a value.  Bytes after the record are not looked at.
-/

namespace PackedRecord

def slice? (buffer : List UInt8) (offset width : Nat) : Option (List UInt8) :=
  if offset + width ≤ buffer.length then some ((buffer.drop offset).take width) else none

namespace Value

def getPath? : Value → List String → Option Value
  | v, [] => some v
  | v, name :: rest => do (← v.get? name).getPath? rest

/-- Puts a value at the end of a path of member names.  Structs that are missing on the way are
made; what is not a struct is left alone. -/
def insertPath (record : Value) (path : List String) (value : Value) : Value :=
  match path with
  | [] => record
  | [name] => record.set name value
  | name :: rest =>
    let inner := (record.get? name).getD (.struct [])
    record.set name (inner.insertPath rest value)

end Value

namespace Plan

/-- A reading by plan: its state is the cursor. -/
abbrev Reader := StateT Nat (Except Fault)

/-- The bytes of a field of fixed width.  At the cursor they are taken. -/
def readFixed (buffer : List UInt8) (access : Access) (width : Nat) : Reader (List UInt8) := do
  let cursor ← get
  let offset :=
    match access with
    | .static offset => offset
    | .cursor => cursor
  match slice? buffer offset width with
  | none => throw .bufferTooShort
  | some bytes =>
    if access = .cursor then
      set (offset + width)
    return bytes

def readValue (buffer : List UInt8) (access : Access) (ty : FieldType) (width : Nat) :
    Reader Value := do
  match Value.decode ty (← readFixed buffer access width) with
  | .ok v => return v
  | .error _ => throw .bufferTooShort

def readFlag (buffer : List UInt8) : Reader Bool := do
  return (← readFixed buffer .cursor 1) ≠ [0]

def readText (buffer : List UInt8) : Reader Value := do
  let length := ofLittleEndian (← readFixed buffer .cursor 4)
  return .text (Utf8.decodeLossy (← readFixed buffer .cursor length))

def readTexts (buffer : List UInt8) : (count : Nat) → Reader (List Value)
  | 0 => return []
  | count + 1 => do
    let first ← readText buffer
    let rest ← readTexts buffer count
    return first :: rest

def readTransfer (buffer : List UInt8) : Transfer → Reader Value
  | .scalar kind access => readValue buffer access (.scalar kind) kind.width
  | .block ty length access => readValue buffer access ty length
  | .text => readText buffer
  | .texts count => return .array (← readTexts buffer count)
  | .optionalText => do
    if ← readFlag buffer then return .present (← readText buffer) else return .absent
  | .optionalScalar kind => do
    if ← readFlag buffer then
      return .present (← readValue buffer .cursor (.scalar kind) kind.width)
    else return .absent

def readSteps (buffer : List UInt8) (record : Value) : List Step → Reader Value
  | [] => return record
  | .seedCursor offset :: rest => do
    set offset
    readSteps buffer record rest
  | .move place transfer :: rest => do
    let value ← readTransfer buffer transfer
    readSteps buffer (record.insertPath place.path value) rest

def read (p : Plan) (buffer : List UInt8) : Except Fault Value :=
  if buffer.length < p.fixedSize then .error .bufferTooShort
  else (readSteps buffer (.struct []) p.steps).run' p.fixedSize

end Plan

end PackedRecord
