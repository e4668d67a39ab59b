import PackedRecord.Bytes.Memory
import PackedRecord.Bytes.Source
import PackedRecord.Value.Basic
import PackedRecord.Value.Error

/-!
# Bytes to values

`FieldType.readWith` takes a value of a type from the front of a source, given for which arrays there
is memory, and `FieldType.read` does so with memory for all of them.  `Value.decode` reads a byte
list that holds one value and nothing else.
-/

namespace PackedRecord

def readItems (read : Path → Reading CodecError Value) (path : Path) :
    (i count : Nat) → Reading CodecError (List Value)
  | _, 0 => return []
  | i, count + 1 => do
    let item ← read (path.element i)
    let rest ← readItems read path (i + 1) count
    return item :: rest

namespace FieldType

mutual

/-- Takes a value of a type from a source.  `path` names the value in errors, and `held` tells
whether there is memory for an array of so many values: it is asked for before the first of them is
read. -/
def readWith (held : Nat → Bool) (ty : FieldType) (path : Path) : Reading CodecError Value :=
  match ty with
  | scalar kind => do
    return .scalar (Scalar.ofWord kind (← Reading.word (.unexpectedEnd path) kind.width))
  | text => .text <$> Reading.text (.unexpectedEnd path)
  | bytes length => .bytes <$> Reading.bytes (.unexpectedEnd path) length.toNat
  | array element count =>
    if held count.toNat then .array <$> readItems (element.readWith held) path 0 count.toNat
    else throw .capacityOverflow
  | option inner => do
    let presence ← Reading.byte (.unexpectedEnd path)
    if presence = 0 then return .absent
    else .present <$> inner.readWith held path
  | struct fields => .struct <$> readFieldsWith held fields path
  | enum variants => do
    let index ← Reading.byte (.unexpectedEnd path)
    readVariantWith held variants index.toNat path (.invalidVariant path index variants.length)

def readFieldsWith (held : Nat → Bool) (fields : List Field) (path : Path) :
    Reading CodecError (List (String × Value)) :=
  match fields with
  | [] => return []
  | (name, ty) :: rest => do
    let value ← ty.readWith held (path.member name)
    let members ← readFieldsWith held rest path
    return (name, value) :: members

def readVariantWith (held : Nat → Bool) (variants : List Field) (index : Nat) (path : Path)
    (fault : CodecError) : Reading CodecError Value :=
  match variants, index with
  | [], _ => throw fault
  | (name, ty) :: _, 0 => .enum name <$> ty.readWith held (path.member name)
  | _ :: rest, index + 1 => readVariantWith held rest index path fault

end

/-! ## With memory for everything -/

def read (ty : FieldType) (path : Path) : Reading CodecError Value :=
  ty.readWith (fun _ => true) path

def readFields (fields : List Field) (path : Path) : Reading CodecError (List (String × Value)) :=
  readFieldsWith (fun _ => true) fields path

def readVariant (variants : List Field) (index : Nat) (path : Path) (fault : CodecError) :
    Reading CodecError Value :=
  readVariantWith (fun _ => true) variants index path fault

section

variable (path : Path) (fault : CodecError)

theorem read_scalar (kind : ScalarKind) : (scalar kind).read path = (do
    return .scalar (Scalar.ofWord kind (← Reading.word (.unexpectedEnd path) kind.width))) :=
  rfl

theorem read_text : text.read path = .text <$> Reading.text (.unexpectedEnd path) :=
  rfl

theorem read_bytes (length : UInt64) :
    (bytes length).read path = .bytes <$> Reading.bytes (.unexpectedEnd path) length.toNat :=
  rfl

theorem read_array (element : FieldType) (count : UInt64) :
    (array element count).read path = .array <$> readItems element.read path 0 count.toNat :=
  rfl

theorem read_option (inner : FieldType) : (option inner).read path = (do
    let presence ← Reading.byte (.unexpectedEnd path)
    if presence = 0 then return .absent
    else .present <$> inner.read path) :=
  rfl

theorem read_struct (fields : List Field) :
    (struct fields).read path = .struct <$> readFields fields path :=
  rfl

theorem read_enum (variants : List Field) : (enum variants).read path = (do
    let index ← Reading.byte (.unexpectedEnd path)
    readVariant variants index.toNat path (.invalidVariant path index variants.length)) :=
  rfl

theorem readFields_nil : readFields [] path = return [] :=
  rfl

theorem readFields_cons (name : String) (ty : FieldType) (rest : List Field) :
    readFields ((name, ty) :: rest) path = (do
      let value ← ty.read (path.member name)
      let members ← readFields rest path
      return (name, value) :: members) :=
  rfl

theorem readVariant_nil (index : Nat) : readVariant [] index path fault = throw fault :=
  rfl

theorem readVariant_zero (name : String) (ty : FieldType) (rest : List Field) :
    readVariant ((name, ty) :: rest) 0 path fault = .enum name <$> ty.read (path.member name) :=
  rfl

theorem readVariant_succ (variant : Field) (rest : List Field) (index : Nat) :
    readVariant (variant :: rest) (index + 1) path fault = readVariant rest index path fault :=
  rfl

end

end FieldType

namespace Value

/-- Whether there is memory for an array of so many values: each takes four words. -/
def held (count : Nat) : Bool :=
  count ≤ maxElements 32

def decodeWith (held : Nat → Bool) (ty : FieldType) (bytes : List UInt8) : Except CodecError Value :=
  match (ty.readWith held Path.root).run (Source.ofBytes bytes) with
  | .error fault _ => .error fault
  | .ok v s => if s.rest.isEmpty then .ok v else .error (.trailingBytes s.remaining)

def decode (ty : FieldType) (bytes : List UInt8) : Except CodecError Value :=
  decodeWith (fun _ => true) ty bytes

theorem decode_eq (ty : FieldType) (bytes : List UInt8) :
    decode ty bytes = match ty.read Path.root (Source.ofBytes bytes) with
      | .error fault _ => .error fault
      | .ok v s => if s.rest.isEmpty then .ok v else .error (.trailingBytes s.remaining) :=
  rfl

def decodeRecord (schema : Schema) (bytes : List UInt8) : Except CodecError Value :=
  decode schema.toType bytes

end Value

end PackedRecord
