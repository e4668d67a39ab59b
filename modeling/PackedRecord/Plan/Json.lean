import PackedRecord.Plan.Build
import PackedRecord.Schema.Json

/-!
# Plans in JSON

The form in which a plan is shown.  Members stand in the order in which they are declared here.
-/

namespace PackedRecord

def Access.toJson : Access → Json
  | static offset => .object [("static", .ofNat offset)]
  | cursor => .string "cursor"

def Place.toJson (p : Place) : Json :=
  let segments := (p.scope.base :: p.scope.members).map Json.string
  .object [("scope", .object [("segments", .array segments)]), ("name", .string p.name)]

/-- A step: what it does under `op`, then what it does it with. -/
def Step.toJson : Step → Json
  | seedCursor offset => .object [("op", .string "seed_cursor"), ("offset", .ofNat offset)]
  | move place transfer =>
    let step (op : String) (rest : List (String × Json)) : Json :=
      .object ([("op", .string op), ("target", place.toJson)] ++ rest)
    match transfer with
    | .scalar kind access =>
      step "scalar" [("kind", .string kind.name), ("access", access.toJson)]
    | .block ty length access =>
      step "block" [("ty", ty.toJson), ("len", .ofNat length), ("access", access.toJson)]
    | .text => step "text" []
    | .texts count => step "text_array" [("count", .ofNat count)]
    | .optionalText => step "optional_text" []
    | .optionalScalar kind => step "optional_scalar" [("kind", .string kind.name)]

def Plan.toJson (p : Plan) : Json :=
  .object [("base", .string p.base), ("prefix", .ofNat p.fixedSize),
    ("steps", .array (p.steps.map Step.toJson))]

end PackedRecord
