import PackedRecord.Schema.FieldType

/-!
# Induction over types

A type is a tree whose structs and enums have lists of named children.  The principle here gives the
induction hypothesis of such a list for every member of it, so that what holds of the list is a
lemma about lists and is stated apart from the induction.

`parts` are all types in such a tree, the whole one first.
-/

namespace PackedRecord.FieldType

/-- Induction over types, with the hypothesis for every field of a struct and variant of an enum. -/
@[elab_as_elim, induction_eliminator]
theorem induction {motive : FieldType → Prop}
    (scalar : ∀ kind, motive (.scalar kind))
    (text : motive .text)
    (bytes : ∀ length, motive (.bytes length))
    (array : ∀ element count, motive element → motive (.array element count))
    (option : ∀ inner, motive inner → motive (.option inner))
    (struct : ∀ fields, (∀ field ∈ fields, motive field.2) → motive (.struct fields))
    (enum : ∀ variants, (∀ variant ∈ variants, motive variant.2) → motive (.enum variants))
    (ty : FieldType) : motive ty := by
  refine @FieldType.rec motive (fun fields => ∀ field ∈ fields, motive field.2)
    (fun field => motive field.2) scalar text bytes array option struct enum ?nil ?cons ?field ty
  case nil =>
    intro field impossible
    cases impossible
  case cons =>
    intro head tail holds each field member
    rcases List.mem_cons.mp member with rfl | member
    · exact holds
    · exact each field member
  case field => exact fun name ty holds => holds

/-! ## Parts of a type -/

mutual

/-- A type and every type that stands somewhere in it. -/
def parts : FieldType → List FieldType
  | scalar kind => [scalar kind]
  | text => [text]
  | bytes length => [bytes length]
  | array element count => array element count :: element.parts
  | option inner => option inner :: inner.parts
  | struct fields => struct fields :: partsIn fields
  | enum variants => enum variants :: partsIn variants

def partsIn : List Field → List FieldType
  | [] => []
  | (_, ty) :: rest => ty.parts ++ partsIn rest

end

theorem self_mem_parts (ty : FieldType) : ty ∈ ty.parts := by
  cases ty <;> simp [parts]

theorem forall_mem_partsIn {holds : FieldType → Prop} {fields : List Field} :
    (∀ part ∈ partsIn fields, holds part) ↔ ∀ field ∈ fields, ∀ part ∈ field.2.parts, holds part := by
  induction fields with
  | nil => simp [partsIn]
  | cons field fields inductionHypothesis =>
    rw [partsIn, List.forall_mem_append, List.forall_mem_cons, inductionHypothesis]

end PackedRecord.FieldType
