import PackedRecord.Manifest.Error
import PackedRecord.Plan.Json
import PackedRecord.Value.Decode
import PackedRecord.Value.Json

/-!
# Looking at records

The two views of a record that are shown to people: its layout, and what a byte list holds when it
is read as that record.
-/

namespace PackedRecord

def Case.planText (c : Case) : Except Error String := do
  let plan ← c.plan.mapError .compile
  return plan.toJson.pretty

/-- The record that bytes are as text.  All of them must be used. -/
def Schema.showBytes (schema : Schema) (bytes : List UInt8) : Except Error String := do
  let v ← (Value.decodeWith Value.held schema.toType bytes).mapError .codec
  return v.toJson.pretty

end PackedRecord
