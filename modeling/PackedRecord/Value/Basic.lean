import PackedRecord.Bytes.LittleEndian
import PackedRecord.Number.Binary
import PackedRecord.Schema.FieldType

/-!
# Record values

* `Scalar` is a number with its kind, `Value` anything that a type describes.
* `Value.get?` and `Value.set` look at and change the members of a struct by name.
* `Value.equal` is equality as values: floats compare as numbers, everything else as written.
-/

namespace PackedRecord

/-- A number of one of the scalar kinds.  Floats are kept as words, so that nothing of them gets
lost. -/
inductive Scalar where
  | u8 (n : UInt8)
  | u16 (n : UInt16)
  | u32 (n : UInt32)
  | u64 (n : UInt64)
  | f32 (word : UInt32)
  | f64 (word : UInt64)
  deriving DecidableEq

namespace Scalar

def kind : Scalar → ScalarKind
  | u8 _ => .u8
  | u16 _ => .u16
  | u32 _ => .u32
  | u64 _ => .u64
  | f32 _ => .f32
  | f64 _ => .f64

def word : Scalar → Nat
  | u8 n => n.toNat
  | u16 n => n.toNat
  | u32 n => n.toNat
  | u64 n => n.toNat
  | f32 word => word.toNat
  | f64 word => word.toNat

def ofWord (kind : ScalarKind) (n : Nat) : Scalar :=
  match kind with
  | .u8 => u8 n.toUInt8
  | .u16 => u16 n.toUInt16
  | .u32 => u32 n.toUInt32
  | .u64 => u64 n.toUInt64
  | .f32 => f32 n.toUInt32
  | .f64 => f64 n.toUInt64

def bytes (s : Scalar) : List UInt8 :=
  littleEndian s.kind.width s.word

def equal : Scalar → Scalar → Bool
  | f32 a, f32 b => Number.Format.single.equal a.toNat b.toNat
  | f64 a, f64 b => Number.Format.double.equal a.toNat b.toNat
  | a, b => a = b

end Scalar

inductive Value where
  | scalar (s : Scalar)
  | text (s : String)
  | bytes (data : List UInt8)
  | array (items : List Value)
  | absent
  | present (inner : Value)
  /-- Members in order.  A name may occur twice; the first of them counts. -/
  | struct (members : List (String × Value))
  | enum (variant : String) (payload : Value)

namespace Value

instance : Inhabited Value := ⟨absent⟩

def asText : Value → String
  | text s => s
  | _ => ""

def asArray : Value → List Value
  | array items => items
  | _ => []

def get? : Value → String → Option Value
  | struct members, name => members.lookup name
  | _, _ => none

/-- The members with the first one of a name replaced, or with a new one at the end. -/
def setMember (members : List (String × Value)) (name : String) (value : Value) :
    List (String × Value) :=
  match members with
  | [] => [(name, value)]
  | (n, v) :: rest =>
    if n = name then (n, value) :: rest else (n, v) :: setMember rest name value

/-- Replaces or adds a member of a struct.  Other values stay as they are. -/
def set (v : Value) (name : String) (value : Value) : Value :=
  match v with
  | struct members => struct (setMember members name value)
  | other => other

def update? (v : Value) (name : String) (change : Value → Value) : Option Value := do
  let member ← v.get? name
  return v.set name (change member)

def size : Value → Nat
  | array items => items.length
  | bytes data => data.length
  | struct members => members.length
  | _ => 0

def item? : Value → Nat → Option Value
  | array items, i => items[i]?
  | _, _ => none

mutual

def equal : Value → Value → Bool
  | scalar a, scalar b => a.equal b
  | text a, text b => a = b
  | bytes a, bytes b => a = b
  | array a, array b => equalItems a b
  | absent, absent => true
  | present a, present b => equal a b
  | struct a, struct b => equalMembers a b
  | enum a v, enum b w => a = b && equal v w
  | _, _ => false

def equalItems : List Value → List Value → Bool
  | [], [] => true
  | v :: vs, w :: ws => equal v w && equalItems vs ws
  | _, _ => false

def equalMembers : List (String × Value) → List (String × Value) → Bool
  | [], [] => true
  | (a, v) :: vs, (b, w) :: ws => a = b && equal v w && equalMembers vs ws
  | _, _ => false

end

end Value

end PackedRecord
