import PackedRecord.C.Codec

/-!
# Generated structs

The C struct in which a record is held: numbers as they are, texts as pointers, runs of bytes and
arrays in place, and an optional number as a small struct of its own.
-/

namespace PackedRecord.C

/-- A member of a generated struct. -/
inductive Member where
  | numbers (kind : ScalarKind) (name : String) (dimensions : List Nat)
  | texts (name : String) (dimensions : List Nat)
  /-- A number with a presence flag. -/
  | optionalNumber (kind : ScalarKind) (name : String)

def dimensionsText (dimensions : List Nat) : String :=
  String.join (dimensions.map fun n => "[" ++ toString n ++ "]")

def Member.text : Member → String
  | numbers kind name dimensions => kind.cType ++ " " ++ name ++ dimensionsText dimensions ++ ";"
  | texts name dimensions => "char *" ++ name ++ dimensionsText dimensions ++ ";"
  | optionalNumber kind name =>
    "struct \x7b\n    uint8_t " ++ presenceMember ++ ";\n    " ++ kind.cType ++ " " ++ valueMember
      ++ ";\n  \x7d " ++ name ++ ";"

/-- The numbers that an array comes down to, and its dimensions from the outside in. -/
def arrayParts? : FieldType → Option (ScalarKind × List Nat)
  | .scalar kind => some (kind, [])
  | .bytes length => some (.u8, [length.toNat])
  | .array element count => do
    let (kind, dimensions) ← arrayParts? element
    return (kind, count.toNat :: dimensions)
  | _ => none

def memberOf (name : String) (ty : FieldType) : Except CompileError Member :=
  match ty with
  | .scalar kind => .ok (.numbers kind name [])
  | .text => .ok (.texts name [])
  | .bytes length => .ok (.numbers .u8 name [length.toNat])
  | .array .text count => .ok (.texts name [count.toNat])
  | .array element count =>
    match arrayParts? (.array element count) with
    | some (kind, dimensions) => .ok (.numbers kind name dimensions)
    | none => .error (.unsupportedElement name)
  | .option .text => .ok (.texts name [])
  | .option (.scalar kind) => .ok (.optionalNumber kind name)
  | .option _ => .error (.unsupportedOption name)
  | .struct _ => .error (.nestedComposite name .struct)
  | .enum _ => .error (.nestedComposite name .enum)

structure Storage where
  tag : String
  members : List Member

def storage (symbol : String) (fields : List Field) : Except CompileError Storage := do
  return ⟨symbol, ← fields.mapM fun (name, ty) => memberOf name ty⟩

def Storage.text (s : Storage) : String :=
  let members := s.members.map fun member => "  " ++ member.text
  "struct " ++ s.tag ++ " \x7b\n" ++ "\n".intercalate members ++ "\n\x7d;\n"

end PackedRecord.C
