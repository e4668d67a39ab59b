import PackedRecord.Manifest.Reader
import PackedRecord.Plan.Write

/-!
# What can go wrong with a manifest

Every way in which loading a manifest or working with its records can fail, in two wordings: the
message, and the description that shows how the error is built.
-/

namespace PackedRecord

/-- How replaying an example by plan can disagree with the encoding. -/
inductive Disagreement where
  | reading
  | writing (found expected : List UInt8)

def byteListText (bytes : List UInt8) : String :=
  "[" ++ ", ".intercalate (bytes.map fun b => toString b.toNat) ++ "]"

def Disagreement.message : Disagreement → String
  | reading => "plan decodes another value"
  | writing found expected =>
    "plan encodes " ++ byteListText found ++ ", expected " ++ byteListText expected

inductive Error where
  | io
  | json (fault : Json.Fault Misfit)
  | compile (e : CompileError)
  | codec (e : CodecError)
  | fault (f : Fault)
  | write (e : WriteError)
  | unknownCase (name : String)
  | repeatedCase (name : String)
  | vectorMismatch (name : String) (index : Nat) (why : Disagreement)

def Json.Fault.message : Json.Fault Misfit → String
  | .truncated => "unexpected end of text"
  | .malformed => "malformed text"
  | .unfit why => why.message

def Error.message : Error → String
  | io => "I/O error"
  | json refused => "JSON error: " ++ refused.message
  | compile e => "Compile error: " ++ e.message
  | codec e => "Codec error: " ++ e.message
  | fault f => "Generated code would fail: " ++ f.message
  | write e => "Plan interpreter error: " ++ e.message
  | unknownCase name => "No schema named \"" ++ name ++ "\" in the manifest"
  | repeatedCase name => "The schema \"" ++ name ++ "\" is defined twice in the manifest"
  | vectorMismatch name index why =>
    "Example " ++ toString index ++ " of \"" ++ name ++ "\": " ++ why.message

/-! ## Descriptions -/

def applied (name argument : String) : String :=
  name ++ "(" ++ argument ++ ")"

def withFields (name : String) (fields : List (String × String)) : String :=
  name ++ " \x7b " ++ ", ".intercalate (fields.map fun (key, value) => key ++ ": " ++ value)
    ++ " \x7d"

/-- How a compile error is built.  Names that a message quotes are quoted in the error already. -/
def CompileError.describe : CompileError → String
  | topLevelEnum name => applied "TopLevelEnum" (Text.quoted (Text.quoted name))
  | nestedComposite field kind =>
    withFields "NestedComposite" [("field", Text.quoted field), ("kind", Text.quoted kind.word)]
  | unsupportedOption field => applied "UnsupportedOptional" (Text.quoted field)
  | unsupportedElement field => applied "UnsupportedArrayElement" (Text.quoted field)
  | zeroLength field => applied "ZeroLength" (Text.quoted field)
  | emptyStruct name => applied "EmptyStruct" (Text.quoted (Text.quoted name))
  | invalidIdentifier name => applied "InvalidIdentifier" (Text.quoted (Text.quoted name))
  | duplicateField field => applied "DuplicateField" (Text.quoted (Text.quoted field))
  | layoutOverflow field => applied "LayoutOverflow" (Text.quoted field)
  | capacityOverflow => "CapacityOverflow"

def CodecError.describe : CodecError → String
  | unexpectedEnd path => applied "UnexpectedEof" (Text.quoted path)
  | trailingBytes count => applied "TrailingBytes" (toString count)
  | invalidVariant path index count =>
    withFields "InvalidVariant" [("path", Text.quoted path), ("index", toString index.toNat),
      ("count", toString count)]
  | mismatch path expected =>
    withFields "TypeMismatch" [("path", Text.quoted path),
      ("expected", Text.quoted expected.describe)]
  | capacityOverflow => "CapacityOverflow"

def Fault.describe : Fault → String
  | bufferTooShort => "BufferTooShort"
  | allocationFailure => "AllocationFailure"

def WriteError.describe : WriteError → String
  | fault f => applied "Fault" f.describe
  | missingMember path => applied "MissingMember" (Text.quoted path)
  | codec e => applied "Codec" e.describe
  | capacityOverflow => "CapacityOverflow"

/-- How an error is built.  Of file and text errors only the kind is told. -/
def Error.describe : Error → String
  | io => "Io"
  | json _ => "Json"
  | compile e => applied "Compile" e.describe
  | codec e => applied "Codec" e.describe
  | fault f => applied "Fault" f.describe
  | write e => applied "Interpret" e.describe
  | unknownCase name => applied "UnknownCase" (Text.quoted name)
  | repeatedCase name => applied "DuplicateCase" (Text.quoted name)
  | vectorMismatch name index why =>
    withFields "VectorMismatch" [("prefix", Text.quoted name), ("index", toString index),
      ("reason", Text.quoted why.message)]

/-! ## Manifests from text -/

namespace Manifest

/-- The manifest that a text is.  No two cases may have the same name, since their generated names
would clash. -/
def ofText (text : String) : Except Error Manifest := do
  let m ← (Json.readWhole manifest text).mapError .json
  match m.repeatedName? with
  | some name => throw (.repeatedCase name)
  | none => return m

def findCase (m : Manifest) (name : String) : Except Error Case :=
  match m.case? name with
  | some c => .ok c
  | none => .error (.unknownCase name)

end Manifest

end PackedRecord
