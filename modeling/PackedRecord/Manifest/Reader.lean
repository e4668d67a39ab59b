import PackedRecord.Json.Parser
import PackedRecord.Manifest.Basic

/-!
# Reading manifests

A manifest is read from its text in one pass, so that the first thing that is wrong in text order is
what is reported, be it the text itself or what it says.  Only a definition or an example is read as
a whole before it is looked at.

The manifest and its cases may be written as objects by field name, where unknown names are passed
over, or as arrays of the fields in order.
-/

namespace PackedRecord

inductive Found where
  | null
  | bool (b : Bool)
  | number (n : Numeral)
  | string (s : String)
  | array
  | object

def Found.describe : Found → String
  | null => "null"
  | bool b => "boolean `" ++ (if b then "true" else "false") ++ "`"
  | number (.float word) => "floating point `" ++ floatText word ++ "`"
  | number n => "integer `" ++ n.text ++ "`"
  | string s => "string " ++ Text.quoted s
  | array => "sequence"
  | object => "map"

inductive Wanted where
  | manifest
  | case
  | sequence
  | text

def Wanted.describe : Wanted → String
  | manifest => "struct Manifest"
  | case => "struct SchemaCase"
  | sequence => "a sequence"
  | text => "a string"

inductive Misfit where
  | wrongKind (found : Found) (wanted : Wanted)
  | repeatedField (name : String)
  | missingField (name : String)
  /-- An array that ends before all fields are there. -/
  | tooFewFields (present : Nat) (wanted : Wanted) (count : String)
  | definition (e : SchemaError)

def Misfit.message : Misfit → String
  | wrongKind found wanted =>
    "invalid type: " ++ found.describe ++ ", expected " ++ wanted.describe
  | repeatedField name => "duplicate field `" ++ name ++ "`"
  | missingField name => "missing field `" ++ name ++ "`"
  | tooFewFields present wanted count =>
    "invalid length " ++ toString present ++ ", expected " ++ wanted.describe ++ " with " ++ count
  | definition e => e.message

namespace Manifest

open Json (Parser)

/-- Reports what comes next as not being what was wanted.  A number, a text or a word is read for
that, and so may turn out to be malformed. -/
def unexpected {α : Type} (wanted : Wanted) : Parser Misfit α := do
  let report (found : Found) : Parser Misfit α := throw (.unfit (.wrongKind found wanted))
  match ← Json.peekToken? with
  | none => throw .truncated
  | some 'n' => Json.advance; Json.literal ['u', 'l', 'l']; report .null
  | some 't' => Json.advance; Json.literal ['r', 'u', 'e']; report (.bool true)
  | some 'f' => Json.advance; Json.literal ['a', 'l', 's', 'e']; report (.bool false)
  | some '"' => Json.advance; report (.string (← Json.stringRest))
  | some '[' => report .array
  | some '{' => report .object
  | some '-' => Json.advance; report (.number (← Json.numeral true))
  | some c => if c.isDigit then report (.number (← Json.numeral false)) else throw .malformed

def text : Parser Misfit String := do
  match ← Json.peekToken? with
  | some '"' => Json.advance; Json.stringRest
  | _ => unexpected .text

def sequence {α : Type} (item : Parser Misfit α) : Parser Misfit (List α) := do
  match ← Json.peekToken? with
  | some '[' => Json.advance; Json.elements item
  | _ => unexpected .sequence

/-- How deep a definition may nest: it stands in a case in the list of cases in the manifest. -/
def definitionDepth : Nat := Json.depthLimit - 3

/-- How deep an example may nest: it stands in one more list. -/
def exampleDepth : Nat := definitionDepth - 1

def definition : Parser Misfit Schema := do
  match Schema.ofJson (← Json.value definitionDepth) with
  | .ok schema => return schema
  | .error e => throw (.unfit (.definition e))

def examples : Parser Misfit (List Json) :=
  sequence (Json.value exampleDepth)

structure CaseFields where
  name : Option String := none
  definition : Option Schema := none
  examples : Option (List Json) := none

def once {α : Type} (key : String) (before : Option α) : Parser Misfit Unit :=
  if before.isSome then throw (.unfit (.repeatedField key)) else return ()

def caseMember (fields : CaseFields) (key : String) : Parser Misfit CaseFields := do
  match key with
  | "prefix" =>
    once key fields.name
    Json.colon
    return { fields with name := some (← text) }
  | "definition" =>
    once key fields.definition
    Json.colon
    return { fields with definition := some (← definition) }
  | "examples" =>
    once key fields.examples
    Json.colon
    return { fields with examples := some (← examples) }
  | _ =>
    Json.colon
    Json.skipValue
    return fields

def required {α : Type} (key : String) (field : Option α) : Parser Misfit α :=
  match field with
  | some a => return a
  | none => throw (.unfit (.missingField key))

/-- The next field of an array, after `present` others. -/
def positional {α : Type} (wanted : Wanted) (count : String) (present : Nat)
    (field : Parser Misfit α) : Parser Misfit α := do
  if ← Json.nextElement (present == 0) then field
  else throw (.unfit (.tooFewFields present wanted count))

def case : Parser Misfit Case := do
  match ← Json.peekToken? with
  | some '{' =>
    Json.advance
    let fields ← Json.members Json.stringRest caseMember {}
    let name ← required "prefix" fields.name
    let definition ← required "definition" fields.definition
    Json.advance
    return ⟨name, definition, fields.examples.getD []⟩
  | some '[' =>
    Json.advance
    let name ← positional .case "3 elements" 0 text
    let definition ← positional .case "3 elements" 1 definition
    let examples ← if ← Json.nextElement false then examples else pure []
    Json.closeArray
    return ⟨name, definition, examples⟩
  | _ => unexpected .case

def manifestMember (cases : Option (List Case)) (key : String) :
    Parser Misfit (Option (List Case)) := do
  match key with
  | "cases" =>
    once key cases
    Json.colon
    return some (← sequence case)
  | _ =>
    Json.colon
    Json.skipValue
    return cases

def manifest : Parser Misfit Manifest := do
  match ← Json.peekToken? with
  | some '{' =>
    Json.advance
    let cases ← required "cases" (← Json.members Json.stringRest manifestMember none)
    Json.advance
    return ⟨cases⟩
  | some '[' =>
    Json.advance
    let cases ← positional .manifest "1 element" 0 (sequence case)
    Json.closeArray
    return ⟨cases⟩
  | _ => unexpected .manifest

end Manifest

end PackedRecord
