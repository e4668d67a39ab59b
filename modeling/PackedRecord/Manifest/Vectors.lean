import PackedRecord.Manifest.Error
import PackedRecord.Value.Json

/-!
# Golden vectors

The bytes of every example in a manifest, for checking generated code against.  Each example is
encoded, and then read and written again by the plan of its record; the vectors stand only if all
three agree, so they tell what the generated code will do.
-/

namespace PackedRecord

/-- The bytes of an example, read and written again by plan. -/
def Case.vector (c : Case) (plan : Plan) (index : Nat) (input : Json) :
    Except Error (List UInt8) := do
  let ty := c.definition.toType
  let v ← (Value.ofJson ty input).mapError .codec
  let output ← (v.encode ty).mapError .codec
  let found ← (plan.read output).mapError .fault
  if !found.equal v then
    throw (.vectorMismatch c.name index .reading)
  let written ← (plan.write v output.length).mapError .write
  if written.payload ≠ output then
    throw (.vectorMismatch c.name index (.writing written.payload output))
  return output

def Case.vectorsFrom (c : Case) (plan : Plan) :
    (index : Nat) → List Json → Except Error (List (List UInt8))
  | _, [] => .ok []
  | index, input :: rest => do
    let output ← c.vector plan index input
    let outputs ← c.vectorsFrom plan (index + 1) rest
    return output :: outputs

def Case.vectors (c : Case) : Except Error (List (List UInt8)) := do
  let plan ← c.plan.mapError .compile
  c.vectorsFrom plan 0 c.examples

def vectorJson (input : Json) (output : List UInt8) : Json :=
  .object [("input", input), ("output", .array (output.map fun b => .ofNat b.toNat))]

def Case.vectorsJson (c : Case) : Except Error Json := do
  let outputs ← c.vectors
  return .object [("definition", c.definition.toJson),
    ("examples", .array (List.zipWith vectorJson c.examples outputs))]

def Manifest.vectorsJson (m : Manifest) : Except Error Json := do
  let entries ← m.cases.mapM fun c => do return (c.name, ← c.vectorsJson)
  return .ofMembers entries

end PackedRecord
