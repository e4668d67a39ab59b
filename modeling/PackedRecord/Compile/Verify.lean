import PackedRecord.C.Identifier
import PackedRecord.Compile.Error

/-!
# Schemas that can be compiled

`verify` tells whether a schema is within what the generated code supports, and if not names the
first thing that is not.
-/

namespace PackedRecord

def checkIdentifier (name : String) : Except CompileError Unit :=
  if C.isIdentifier name then .ok () else .error (.invalidIdentifier name)

/-- Refuses a type that a field of generated storage cannot have.  Arrays nest over scalars and
runs of bytes; of texts there is only one layer. -/
def verifyType (field : String) (ty : FieldType) : Except CompileError Unit :=
  match ty with
  | .scalar _ => .ok ()
  | .text => .ok ()
  | .bytes length => if length = 0 then .error (.zeroLength field) else .ok ()
  | .array element count =>
    if count = 0 then .error (.zeroLength field)
    else
      let checkWidth : Except CompileError Unit :=
        match (FieldType.array element count).fixedWidth? with
        | some _ => .ok ()
        | none => .error (.layoutOverflow field)
      match element with
      | .text => .ok ()
      | .option _ => .error (.unsupportedElement field)
      | .array inner n =>
        if (FieldType.array inner n).needsCursor then .error (.unsupportedElement field)
        else do
          verifyType field (.array inner n)
          checkWidth
      | .scalar _ => checkWidth
      | .bytes length => if length = 0 then .error (.zeroLength field) else checkWidth
      | .struct _ => .error (.nestedComposite field .struct)
      | .enum _ => .error (.nestedComposite field .enum)
  | .option inner =>
    match inner with
    | .text => .ok ()
    | .scalar _ => .ok ()
    | _ => .error (.unsupportedOption field)
  | .struct _ => .error (.nestedComposite field .struct)
  | .enum _ => .error (.nestedComposite field .enum)

def verifyFields (seen : List String) : List Field → Except CompileError Unit
  | [] => .ok ()
  | (name, ty) :: rest => do
    checkIdentifier name
    if seen.contains name then
      throw (.duplicateField name)
    verifyType name ty
    verifyFields (name :: seen) rest

/-- Refuses a schema that cannot be compiled under a name, for the first reason there is. -/
def verify (name : String) (schema : Schema) : Except CompileError Unit := do
  checkIdentifier name
  if schema.kind = .enum then
    throw (.topLevelEnum name)
  if schema.fields.isEmpty then
    throw (.emptyStruct name)
  verifyFields [] schema.fields

end PackedRecord
