import PackedRecord.Value.Basic
import PackedRecord.Value.Error

/-!
# Values in JSON

Numbers and texts stand for themselves, bytes and arrays are arrays, an absent option is `null`, a
struct is an object by field name, and an enum value is an object with its variant as only key.
`Value.ofJson` reads this form for a type and `Value.toJson` writes it.
-/

namespace PackedRecord

/-- The number of a kind that a JSON number is.  Integers must be written as such and fit; floats
are rounded to the nearest of their kind. -/
def Scalar.ofNumeral? (kind : ScalarKind) (n : Numeral) : Option Scalar :=
  let unsigned? (bound : Nat) : Option Nat :=
    match n with
    | .unsigned n => if n.toNat < bound then some n.toNat else none
    | _ => none
  let double : UInt64 :=
    match n with
    | .unsigned n => Number.doubleOfNat n.toNat
    | .negative n => (Number.Format.double.round true n.toInt.natAbs 1).toUInt64
    | .float word => word
  match kind with
  | .u8 => (unsigned? UInt8.size).map (ofWord .u8)
  | .u16 => (unsigned? UInt16.size).map (ofWord .u16)
  | .u32 => (unsigned? UInt32.size).map (ofWord .u32)
  | .u64 => (unsigned? UInt64.size).map (ofWord .u64)
  | .f32 => some (f32 (Number.narrow double))
  | .f64 => some (f64 double)

def byteOfJson? : Json → Option UInt8
  | .number (.unsigned n) => if n.toNat < 256 then some n.toUInt8 else none
  | _ => none

def itemsOfJson (read : Path → Json → Except CodecError Value) (path : Path) :
    (i : Nat) → List Json → Except CodecError (List Value)
  | _, [] => .ok []
  | i, item :: rest => do
    let v ← read (path.element i) item
    let vs ← itemsOfJson read path (i + 1) rest
    return v :: vs

namespace FieldType

mutual

/-- The value of a type that a JSON value describes.  `path` names the value in errors.  A member
that is not there reads as `null`. -/
def valueOfJson (ty : FieldType) (path : Path) (raw : Json) : Except CodecError Value :=
  let mismatch : Except CodecError Value := .error (.mismatch path (.type ty))
  match ty with
  | scalar kind =>
    match raw with
    | .number n =>
      match Scalar.ofNumeral? kind n with
      | some s => .ok (.scalar s)
      | none => mismatch
    | _ => mismatch
  | text =>
    match raw with
    | .string s => .ok (.text s)
    | _ => mismatch
  | bytes length =>
    match raw with
    | .array items =>
      if items.length = length.toNat then
        match items.mapM byteOfJson? with
        | some data => .ok (.bytes data)
        | none => mismatch
      else mismatch
    | _ => mismatch
  | array element count =>
    match raw with
    | .array items =>
      if items.length = count.toNat then .array <$> itemsOfJson element.valueOfJson path 0 items
      else mismatch
    | _ => mismatch
  | option inner =>
    match raw with
    | .null => .ok .absent
    | raw => .present <$> inner.valueOfJson path raw
  | struct fields =>
    match raw with
    | .object members => .struct <$> membersOfJson fields path members
    | _ => mismatch
  | enum variants =>
    match raw with
    | .object [(name, payload)] => (variantOfJson variants path name payload).getD mismatch
    | _ => mismatch

def membersOfJson (fields : List Field) (path : Path) (members : List (String × Json)) :
    Except CodecError (List (String × Value)) :=
  match fields with
  | [] => .ok []
  | (name, ty) :: rest => do
    let v ← ty.valueOfJson (path.member name) ((members.lookup name).getD .null)
    let vs ← membersOfJson rest path members
    return (name, v) :: vs

def variantOfJson (variants : List Field) (path : Path) (name : String) (payload : Json) :
    Option (Except CodecError Value) :=
  match variants with
  | [] => none
  | (n, ty) :: rest =>
    if n = name then some (.enum name <$> ty.valueOfJson (path.member name) payload)
    else variantOfJson rest path name payload

end

end FieldType

def Scalar.toJson : Scalar → Json
  | u8 n => .ofNat n.toNat
  | u16 n => .ofNat n.toNat
  | u32 n => .ofNat n.toNat
  | u64 n => .ofNat n.toNat
  | f32 word =>
    let wide := Number.widen word
    if Number.isFinite wide then .number (.float wide) else .null
  | f64 word => if Number.isFinite word then .number (.float word) else .null

namespace Value

def ofJson (ty : FieldType) (raw : Json) : Except CodecError Value :=
  ty.valueOfJson Path.root raw

mutual

/-- The JSON form of a value.  Where a struct has two members of a name the last one is shown. -/
def toJson : Value → Json
  | scalar s => s.toJson
  | text s => .string s
  | bytes data => .array (data.map fun b => .ofNat b.toNat)
  | array items => .array (itemsToJson items)
  | absent => .null
  | present inner => inner.toJson
  | struct members => .ofMembers (membersToJson members)
  | enum variant payload => .object [(variant, payload.toJson)]

def itemsToJson : List Value → List Json
  | [] => []
  | v :: rest => v.toJson :: itemsToJson rest

def membersToJson : List (String × Value) → List (String × Json)
  | [] => []
  | (name, v) :: rest => (name, v.toJson) :: membersToJson rest

end

end Value

end PackedRecord
