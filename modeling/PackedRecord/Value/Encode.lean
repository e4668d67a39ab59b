import PackedRecord.Bytes.Output
import PackedRecord.Value.Basic
import PackedRecord.Value.Error

/-!
# Values to bytes

`FieldType.write` puts a value out as a type wants it, and `Value.encode` is that for a whole value.
Members are looked up by name, so the members of a struct may come in any order and there may be
more of them than the type has fields.
-/

namespace PackedRecord

def writeItems (write : Path → Value → Output CodecError) (path : Path) :
    (i : Nat) → List Value → Output CodecError
  | _, [] => .empty
  | i, item :: rest => write (path.element i) item ++ writeItems write path (i + 1) rest

namespace FieldType

mutual

/-- Puts out a value as a type wants it.  `path` names the value in errors.  What was written before
a fault stays written. -/
def write (ty : FieldType) (path : Path) (v : Value) : Output CodecError :=
  match ty with
  | scalar kind =>
    match v with
    | .scalar s => if s.kind = kind then .ofBytes s.bytes else .fail (.mismatch path (.type ty))
    | _ => .fail (.mismatch path (.type ty))
  | text =>
    match v with
    | .text s =>
      match textBytes? s with
      | some wire => .ofBytes wire
      | none => .fail (.mismatch path (.type ty))
    | _ => .fail (.mismatch path (.type ty))
  | bytes length =>
    match v with
    | .bytes data =>
      if data.length = length.toNat then .ofBytes data else .fail (.mismatch path (.type ty))
    | _ => .fail (.mismatch path (.type ty))
  | array element count =>
    match v with
    | .array items =>
      if items.length = count.toNat then writeItems element.write path 0 items
      else .fail (.mismatch path (.type ty))
    | _ => .fail (.mismatch path (.type ty))
  | option inner =>
    match v with
    | .absent => .ofBytes [0]
    | .present v => .ofBytes [1] ++ inner.write path v
    | _ => .fail (.mismatch path (.type ty))
  | struct fields =>
    match v with
    | .struct members => writeFields fields path members
    | _ => .fail (.mismatch path (.type ty))
  | enum variants =>
    match v with
    | .enum name payload =>
      (writeVariant variants 0 path name payload).getD (.fail (.mismatch path (.type ty)))
    | _ => .fail (.mismatch path (.type ty))

def writeFields (fields : List Field) (path : Path) (members : List (String × Value)) :
    Output CodecError :=
  match fields with
  | [] => .empty
  | (name, ty) :: rest =>
    match members.lookup name with
    | some v => ty.write (path.member name) v ++ writeFields rest path members
    | none => .fail (.mismatch (path.member name) (.type ty))

/-- Puts out a payload behind the number of the first variant of its name, the variants being
numbered from `index`.  There is no output if no variant has the name, or if its number does not fit
a byte. -/
def writeVariant (variants : List Field) (index : Nat) (path : Path) (name : String)
    (payload : Value) : Option (Output CodecError) :=
  match variants with
  | [] => none
  | (n, ty) :: rest =>
    if n = name then
      if index ≤ 255 then some (.ofBytes [index.toUInt8] ++ ty.write (path.member name) payload)
      else none
    else writeVariant rest (index + 1) path name payload

end

end FieldType

namespace Value

def encode (v : Value) (ty : FieldType) : Except CodecError (List UInt8) :=
  (ty.write Path.root v).complete

def encodeRecord (v : Value) (schema : Schema) : Except CodecError (List UInt8) :=
  v.encode schema.toType

end Value

end PackedRecord
