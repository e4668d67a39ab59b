import PackedRecord.Json.Printer
import PackedRecord.Schema.FieldType
import PackedRecord.Text.Quoted

/-!
# Schemas in JSON

The written form of a type: `"u8"`, `"string"`, `[32]` for bytes, `["u16", 4]` for arrays, and
objects with a `kind` for the rest.  `FieldType.toJson` writes it and `FieldType.ofJson` reads it;
members that a kind does not know are passed over.
-/

namespace PackedRecord

inductive SchemaError where
  | unknownType (name : String)
  | badLength (n : Numeral)
  /-- An array type without a length. -/
  | unsizedArray
  | malformedArray (items : List Json)
  | bareOption
  | unknownKind (name : String)
  | missingKind
  | malformedType (raw : Json)
  | notFieldList
  | notField (raw : Json)
  | notRecord (found : Json)

def SchemaError.message : SchemaError → String
  | unknownType name => "unknown type " ++ Text.quoted name
  | badLength n => "invalid length " ++ n.text
  | unsizedArray => "dynamically sized arrays are not supported"
  | malformedArray items => "malformed array type " ++ (Json.array items).compact
  | bareOption => "option is missing \"type\""
  | unknownKind name => "unknown kind " ++ Text.quoted name
  | missingKind => "type object is missing \"kind\""
  | malformedType raw => "malformed type " ++ raw.compact
  | notFieldList => "expected a list of [name, type] pairs"
  | notField raw => "expected [name, type], found " ++ raw.compact
  | notRecord found => "a schema must be a struct or an enum, found " ++ found.compact

def lengthOf (n : Numeral) : Except SchemaError UInt64 :=
  match n with
  | .unsigned n => .ok n
  | n => .error (.badLength n)

namespace FieldType

mutual

def ofJson : Json → Except SchemaError FieldType
  | .string name =>
    if name = "string" then .ok text
    else
      match ScalarKind.ofName? name with
      | some kind => .ok (scalar kind)
      | none => .error (.unknownType name)
  | .array [.number n] => bytes <$> lengthOf n
  | .array [element, .number n] => do
    let element ← ofJson element
    array element <$> lengthOf n
  | .array [_] => .error .unsizedArray
  | .array items => .error (.malformedArray items)
  | .object members =>
    match members.lookup "kind" with
    | some (.string "option") => option <$> innerOf members
    | some (.string "struct") => struct <$> fieldsOf "fields" members
    | some (.string "enum") => enum <$> fieldsOf "values" members
    | some (.string other) => .error (.unknownKind other)
    | _ => .error .missingKind
  | raw => .error (.malformedType raw)

def innerOf : List (String × Json) → Except SchemaError FieldType
  | [] => .error .bareOption
  | (key, value) :: rest => if key = "type" then ofJson value else innerOf rest

def fieldsOf (key : String) : List (String × Json) → Except SchemaError (List Field)
  | [] => .error .notFieldList
  | (k, .array items) :: rest => if k = key then fieldList items else fieldsOf key rest
  | (k, _) :: rest => if k = key then .error .notFieldList else fieldsOf key rest

def fieldList : List Json → Except SchemaError (List Field)
  | [] => .ok []
  | .array [.string name, raw] :: rest => do
    let ty ← ofJson raw
    let fields ← fieldList rest
    return (name, ty) :: fields
  | raw :: _ => .error (.notField raw)

end

mutual

def toJson : FieldType → Json
  | scalar kind => .string kind.name
  | text => .string "string"
  | bytes length => .array [.number (.unsigned length)]
  | array element count => .array [element.toJson, .number (.unsigned count)]
  | option inner => .object [("kind", .string "option"), ("type", inner.toJson)]
  | struct fields => .object [("fields", .array (fieldsToJson fields)), ("kind", .string "struct")]
  | enum variants => .object [("kind", .string "enum"), ("values", .array (fieldsToJson variants))]

def fieldsToJson : List Field → List Json
  | [] => []
  | (name, ty) :: rest => .array [.string name, ty.toJson] :: fieldsToJson rest

end

end FieldType

namespace Schema

def ofJson (raw : Json) : Except SchemaError Schema := do
  match ← FieldType.ofJson raw with
  | .struct fields => return ⟨.struct, fields⟩
  | .enum variants => return ⟨.enum, variants⟩
  | other => throw (.notRecord other.toJson)

def toJson (s : Schema) : Json :=
  s.toType.toJson

end Schema

end PackedRecord
