import PackedRecord.C.Codec
import PackedRecord.Compile.Verify
import PackedRecord.Schema.Json

/-!
# Manifests

A manifest is the list of records that are compiled together, each under a name of its own and with
examples of its values.
-/

namespace PackedRecord

structure Case where
  name : String
  definition : Schema
  examples : List Json := []

/-- The layout of a record that passes verification, as a reader sees it. -/
def Case.plan (c : Case) : Except CompileError Plan := do
  verify c.name c.definition
  Plan.build c.definition.fields C.readerBase

def Case.toJson (c : Case) : Json :=
  .object [("prefix", .string c.name), ("definition", c.definition.toJson),
    ("examples", .array c.examples)]

structure Manifest where
  cases : List Case

namespace Manifest

def case? (m : Manifest) (name : String) : Option Case :=
  m.cases.find? fun c => c.name = name

/-- The first name that an earlier case has too. -/
def repeatedName? (m : Manifest) : Option String :=
  search [] m.cases
where
  search (seen : List String) : List Case → Option String
    | [] => none
    | c :: rest => if seen.contains c.name then some c.name else search (c.name :: seen) rest

def toJson (m : Manifest) : Json :=
  .object [("cases", .array (m.cases.map Case.toJson))]

end Manifest

end PackedRecord
