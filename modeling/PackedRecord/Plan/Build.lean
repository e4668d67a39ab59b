import PackedRecord.Compile.Error
import PackedRecord.Plan.State

/-!
# Layout plans

A `Plan` is a record resolved into steps in wire order: what is moved between the record and the
buffer, and where the bytes are.  All generated code and the direct readers and writers follow a
plan, so they agree about the layout by construction.

`Plan.build` walks the fields in declaration order and into nested structs.
-/

namespace PackedRecord

inductive Transfer where
  | scalar (kind : ScalarKind) (access : Access)
  /-- A run of bytes or an array of fixed width, copied as a whole. -/
  | block (ty : FieldType) (length : Nat) (access : Access)
  | text
  | texts (count : Nat)
  | optionalText
  | optionalScalar (kind : ScalarKind)

inductive Step where
  /-- Starts the cursor, once and right before the first field of variable width. -/
  | seedCursor (offset : Nat)
  | move (place : Place) (transfer : Transfer)

def Step.place? : Step → Option Place
  | seedCursor _ => none
  | move place _ => some place

structure Plan where
  base : String
  /-- The bytes before the first field of variable width, which one check covers. -/
  fixedSize : Nat
  steps : List Step

namespace Plan

def isDynamic (p : Plan) : Bool :=
  p.steps.any fun
    | .seedCursor _ => true
    | .move .. => false

/-- What walking some fields gives: the steps, and the state after them. -/
abbrev Walk := Except CompileError (List Step × LayoutState)

def placeFixed (state : LayoutState) (place : Place) (width : Nat) (transfer : Access → Transfer) :
    Walk :=
  match state.advance? width with
  | some (access, state) => .ok ([.move place (transfer access)], state)
  | none => .error (.layoutOverflow place.dotted)

def placeAtCursor (state : LayoutState) (place : Place) (transfer : Transfer) : Walk :=
  match state.goDynamic with
  | (some offset, state) => .ok ([.seedCursor offset, .move place transfer], state)
  | (none, state) => .ok ([.move place transfer], state)

mutual

def walkField (name : String) (ty : FieldType) (state : LayoutState) : Walk :=
  let place : Place := ⟨state.scope, name⟩
  match ty with
  | .scalar kind => placeFixed state place kind.width (.scalar kind)
  | .bytes length => placeFixed state place length.toNat (.block (.bytes length) length.toNat)
  | .array element count =>
    match element with
    | .text =>
      if maxLiteral < count.toNat then .error (.layoutOverflow place.dotted)
      else placeAtCursor state place (.texts count.toNat)
    | .enum _ => .error (.nestedComposite place.dotted .enum)
    | element =>
      match element.fixedWidth? with
      | none => .error (.unsupportedElement place.dotted)
      | some width =>
        match sized? (width * count.toNat) with
        | none => .error (.layoutOverflow place.dotted)
        | some length => placeFixed state place length (.block (.array element count) length)
  | .text => placeAtCursor state place .text
  | .option inner =>
    match inner with
    | .text => placeAtCursor state place .optionalText
    | .scalar kind => placeAtCursor state place (.optionalScalar kind)
    | _ => .error (.unsupportedOption place.dotted)
  | .struct fields => do
    let (steps, state) ← walkFields fields (state.descend name)
    return (steps, state.ascend)
  | .enum _ => .error (.nestedComposite place.dotted .enum)

def walkFields (fields : List Field) (state : LayoutState) : Walk :=
  match fields with
  | [] => .ok ([], state)
  | (name, ty) :: rest => do
    let (first, state) ← walkField name ty state
    let (others, state) ← walkFields rest state
    return (first ++ others, state)

end

def build (fields : List Field) (base : String) : Except CompileError Plan := do
  let (steps, state) ← walkFields fields (.start base)
  return ⟨base, state.staticOffset, steps⟩

end Plan

end PackedRecord
