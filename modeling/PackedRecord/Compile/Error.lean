import PackedRecord.Schema.FieldType
import PackedRecord.Text.Quoted

/-!
# Schemas that cannot be compiled

Every reason for which there is no generated code for a schema.  Fields are named by their path in
the record.
-/

namespace PackedRecord

def RecordKind.word : RecordKind → String
  | .struct => "struct"
  | .enum => "enum"

inductive CompileError where
  | topLevelEnum (name : String)
  | nestedComposite (field : String) (kind : RecordKind)
  | unsupportedOption (field : String)
  | unsupportedElement (field : String)
  | zeroLength (field : String)
  | emptyStruct (name : String)
  | invalidIdentifier (name : String)
  | duplicateField (field : String)
  /-- A size or position is past what the generated code can address. -/
  | layoutOverflow (field : String)
  /-- There is no memory for the list of all texts that the record owns. -/
  | capacityOverflow
  deriving DecidableEq

def CompileError.message : CompileError → String
  | topLevelEnum name =>
    "Schema " ++ Text.quoted name
      ++ " is an enum; raw deserializers can only be generated for structs"
  | nestedComposite field kind =>
    "Field " ++ field ++ " is a nested " ++ kind.word
      ++ ", which the generated storage layout does not support"
  | unsupportedOption field =>
    "Field " ++ field ++ " is optional over a type that is neither a string nor a scalar"
  | unsupportedElement field =>
    "Field " ++ field ++ " is an array of an unsupported element type"
  | zeroLength field => "Field " ++ field ++ " has length zero"
  | emptyStruct name => "Struct " ++ Text.quoted name ++ " has no fields"
  | invalidIdentifier name => "The name " ++ Text.quoted name ++ " is not a valid C identifier"
  | duplicateField field => "The field " ++ Text.quoted field ++ " is defined twice"
  | layoutOverflow field => "Field " ++ field ++ " does not fit in the addressable layout"
  | capacityOverflow => "capacity overflow"

end PackedRecord
