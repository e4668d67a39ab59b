import PackedRecord.Proofs.Compile.Storable

/-!
# The language of compilable schemas

`verify` looks at one field after the other, into arrays, and checks the width of every layer on its way
out again.  `InLanguage` says which types pass without any of that: one case for each form of a field, and
for arrays of numbers one bound on the exact width.

* `Inline.fixedWidth?_eq_some_iff`: where no layer is empty, that one bound covers all layers.
* `verifyType_eq_ok_iff`: the types that pass, exactly.
* `verify_eq_ok_iff`: the schemas that can be compiled, exactly.
-/

namespace PackedRecord

namespace FieldType

mutual

/-- The bytes of a value, as a number that has no bound.  Types of variable width count nothing. -/
def exactWidth : FieldType → Nat
  | scalar kind => kind.width
  | bytes length => length.toNat
  | array element count => element.exactWidth * count.toNat
  | struct fields => exactWidthIn fields
  | text | option _ | enum _ => 0

def exactWidthIn : List Field → Nat
  | [] => 0
  | (_, ty) :: rest => ty.exactWidth + exactWidthIn rest

end

end FieldType

/-- The types of fields that the generated code supports. -/
inductive InLanguage : FieldType → Prop where
  | scalar (kind : ScalarKind) : InLanguage (.scalar kind)
  | text : InLanguage .text
  | bytes {length : UInt64} (nonempty : length ≠ 0) : InLanguage (.bytes length)
  | texts {count : UInt64} (nonempty : count ≠ 0) : InLanguage (.array .text count)
  | optionalText : InLanguage (.option .text)
  | optionalScalar (kind : ScalarKind) : InLanguage (.option (.scalar kind))
  | layers {element : FieldType} {count : UInt64} (inPlace : Inline (.array element count))
    (fits : (FieldType.array element count).exactWidth < 2 ^ 64) : InLanguage (.array element count)

/-! ## Widths of layers -/

theorem Inline.exactWidth_le {element : FieldType} {count : UInt64} (inPlace : Inline (.array element count)) :
    element.exactWidth ≤ (FieldType.array element count).exactWidth := by
  cases inPlace with
  | array nonempty each => exact Nat.le_mul_of_pos_right _ (C.one_le_toNat nonempty)

theorem Inline.fixedWidth?_eq_some_iff {ty : FieldType} (inPlace : Inline ty) {width : Nat} :
    ty.fixedWidth? = some width ↔ ty.exactWidth < 2 ^ 64 ∧ ty.exactWidth = width := by
  induction inPlace generalizing width with
  | scalar kind => cases kind <;> simp [FieldType.fixedWidth?, FieldType.exactWidth, ScalarKind.width]
  | @bytes length nonempty =>
    have := length.toNat_lt
    simp [FieldType.fixedWidth?, FieldType.exactWidth, this]
  | @array element count nonempty each inductionHypothesis =>
    simp only [FieldType.fixedWidth?, Option.bind_eq_bind, Option.bind_eq_some_iff, sized?_eq_some_iff,
      inductionHypothesis]
    constructor
    · rintro ⟨_, ⟨-, rfl⟩, fits, total⟩
      exact ⟨fits, total⟩
    · rintro ⟨fits, total⟩
      have within := (Inline.array nonempty each).exactWidth_le
      exact ⟨element.exactWidth, ⟨Nat.lt_of_le_of_lt within fits, rfl⟩, fits, total⟩

/-! ## Types -/

theorem inLanguage_of_storable {ty : FieldType} (storable : Storable ty) : InLanguage ty := by
  cases storable with
  | text => exact .text
  | texts nonempty => exact .texts nonempty
  | optionalText => exact .optionalText
  | optionalScalar kind => exact .optionalScalar kind
  | inline inPlace fixed =>
    have fits := (inPlace.fixedWidth?_eq_some_iff.mp fixed).1
    cases inPlace with
    | scalar kind => exact .scalar kind
    | bytes nonempty => exact .bytes nonempty
    | array nonempty each => exact .layers (.array nonempty each) fits

theorem verifyType_of_layers {element : FieldType} {count : UInt64} (inPlace : Inline (.array element count))
    (fits : (FieldType.array element count).exactWidth < 2 ^ 64) (field : String) :
    verifyType field (.array element count) = .ok () := by
  cases inPlace with
  | array nonempty each =>
    -- By induction on the element, since each layer is checked once the layers in it have passed.
    induction each generalizing count with
    | scalar kind =>
      have fixed := (Inline.array nonempty (.scalar kind)).fixedWidth?_eq_some_iff.mpr ⟨fits, rfl⟩
      simp only [verifyType, if_neg nonempty, fixed]
    | bytes positive =>
      have fixed := (Inline.array nonempty (.bytes positive)).fixedWidth?_eq_some_iff.mpr ⟨fits, rfl⟩
      simp only [verifyType, if_neg nonempty, if_neg positive, fixed]
    | @array inner n positive within inductionHypothesis =>
      have layers : Inline (.array (.array inner n) count) := .array nonempty (.array positive within)
      have fixed := layers.fixedWidth?_eq_some_iff.mpr ⟨fits, rfl⟩
      have static := (Inline.array positive within).needsCursor_eq
      have passed := inductionHypothesis (Nat.lt_of_le_of_lt layers.exactWidth_le fits) positive
      rw [verifyType, if_neg nonempty]
      simp only [static, fixed, passed]
      rfl

theorem verifyType_eq_ok_iff (field : String) (ty : FieldType) :
    verifyType field ty = .ok () ↔ InLanguage ty := by
  constructor
  · intro verified
    exact inLanguage_of_storable (storable_of_verifyType ty field verified)
  · intro supported
    cases supported with
    | scalar | text | optionalText | optionalScalar => rfl
    | bytes nonempty => rw [verifyType, if_neg nonempty]
    | texts nonempty => rw [verifyType, if_neg nonempty]
    | layers inPlace fits => exact verifyType_of_layers inPlace fits field

/-! ## Schemas -/

/-- A schema can be compiled under a name just if the name is an identifier, and the schema a struct of at
least one field whose fields have distinct identifiers for names and types of the language. -/
theorem verify_eq_ok_iff (name : String) (schema : Schema) :
    verify name schema = .ok () ↔
      C.isIdentifier name = true ∧ schema.kind = .struct ∧ schema.fields ≠ [] ∧
        (∀ field ∈ schema.fields, C.isIdentifier field.1 = true) ∧ (schema.fields.map Prod.fst).Nodup ∧
        ∀ field ∈ schema.fields, InLanguage field.2 := by
  simp only [verify_iff_parts, verifyType_eq_ok_iff, forall_and]
  tauto

end PackedRecord
