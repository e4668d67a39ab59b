import PackedRecord.Schema.Json

/-!
# What can go wrong between values and bytes

Errors name the place where they arose as a path from the root `$` through members and elements.
-/

namespace PackedRecord

inductive Expectation where
  | type (ty : FieldType)
  | text
  | texts (count : Nat)
  | optionalText
  | optionalScalar

def Expectation.describe : Expectation → String
  | type ty => ty.toJson.compact
  | text => "string"
  | texts count => "array of " ++ toString count ++ " strings"
  | optionalText => "optional string"
  | optionalScalar => "optional scalar"

inductive CodecError where
  | unexpectedEnd (path : String)
  | trailingBytes (count : Nat)
  | invalidVariant (path : String) (index : UInt8) (count : Nat)
  | mismatch (path : String) (expected : Expectation)
  /-- There is no memory for an array that is to be read. -/
  | capacityOverflow

def CodecError.message : CodecError → String
  | unexpectedEnd path => "Unexpected end of buffer while reading " ++ path
  | trailingBytes count => toString count ++ " trailing bytes after the decoded value"
  | invalidVariant path index count =>
    "Variant index " ++ toString index.toNat ++ " is out of range for enum " ++ path ++ " with "
      ++ toString count ++ " variants"
  | mismatch path expected => "Value mismatch at " ++ path ++ ": expected " ++ expected.describe
  | capacityOverflow => "capacity overflow"

/-- Paths name values in errors. -/
abbrev Path := String

namespace Path

def root : Path := "$"

def member (path : Path) (name : String) : Path :=
  path ++ "." ++ name

def element (path : Path) (i : Nat) : Path :=
  path ++ "[" ++ toString i ++ "]"

end Path

end PackedRecord
