/-!
# Record schemas

A `FieldType` says how a value lies on the wire: scalars little-endian and without padding, texts
behind their length, optional values behind a presence byte, enums behind the number of their
variant, and everything else one after the other.  A `Schema` is a top-level record.

* `FieldType.fixedWidth?` is the size on the wire where that does not depend on the value.
* `FieldType.needsCursor` tells whether a field ends the part of a record whose positions are known
  in advance.
-/

namespace PackedRecord

inductive ScalarKind where
  | u8 | u16 | u32 | u64 | f32 | f64
  deriving DecidableEq

namespace ScalarKind

def all : List ScalarKind := [u8, u16, u32, u64, f32, f64]

def width : ScalarKind → Nat
  | u8 => 1
  | u16 => 2
  | u32 | f32 => 4
  | u64 | f64 => 8

def name : ScalarKind → String
  | u8 => "u8"
  | u16 => "u16"
  | u32 => "u32"
  | u64 => "u64"
  | f32 => "f32"
  | f64 => "f64"

def cType : ScalarKind → String
  | u8 => "uint8_t"
  | u16 => "uint16_t"
  | u32 => "uint32_t"
  | u64 => "uint64_t"
  | f32 => "float"
  | f64 => "double"

def ofName? (name : String) : Option ScalarKind :=
  all.find? fun kind => kind.name = name

end ScalarKind

inductive FieldType where
  | scalar (kind : ScalarKind)
  /-- A four byte length, then that many bytes. -/
  | text
  | bytes (length : UInt64)
  | array (element : FieldType) (count : UInt64)
  /-- A presence byte, and the value unless that is zero. -/
  | option (inner : FieldType)
  | struct (fields : List (String × FieldType))
  /-- The number of a variant in one byte, then that variant's payload. -/
  | enum (variants : List (String × FieldType))

abbrev Field := String × FieldType

def sized? (n : Nat) : Option Nat :=
  if n < UInt64.size then some n else none

namespace FieldType

mutual

/-- The size on the wire, if it is the same for all values and no size on the way to it is past
eight bytes. -/
def fixedWidth? : FieldType → Option Nat
  | scalar kind => some kind.width
  | text => none
  | bytes length => some length.toNat
  | array element count => do sized? ((← element.fixedWidth?) * count.toNat)
  | option _ => none
  | struct fields => fieldsWidth? fields
  | enum _ => none

def fieldsWidth? : List Field → Option Nat
  | [] => some 0
  | (_, ty) :: rest => do
    let width ← ty.fixedWidth?
    sized? (width + (← fieldsWidth? rest))

end

/-- Whether the position of everything after a field of this type depends on the data. -/
def needsCursor : FieldType → Bool
  | text => true
  | option _ => true
  | array element _ => element.needsCursor
  | _ => false

end FieldType

inductive RecordKind where
  | struct
  | enum
  deriving DecidableEq

structure Schema where
  kind : RecordKind
  fields : List Field

def Schema.toType (s : Schema) : FieldType :=
  match s.kind with
  | .struct => .struct s.fields
  | .enum => .enum s.fields

end PackedRecord
