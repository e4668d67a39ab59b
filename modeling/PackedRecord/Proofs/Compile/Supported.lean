import PackedRecord.Compile.Verify
import PackedRecord.Proofs.Except
import PackedRecord.Proofs.Plan.Walk

/-!
# What can be compiled

`Supported` is what `verify` leaves of a record for the proofs about it: at least one field, distinct
names, and no struct that the layout would have to go into.

* `verifyFields_eq_ok_iff`: what every field has passed.
* `verify_iff_parts`: what a record has passed, in parts.
* `verify_eq_ok`: so its fields are supported.
-/

namespace PackedRecord

/-- Fields of a record that generated code supports. -/
structure Supported (fields : List Field) : Prop where
  nonempty : fields ≠ []
  distinct : (fields.map Prod.fst).Nodup
  flat : ∀ field ∈ fields, ∀ inner, field.2 ≠ .struct inner

theorem everyScopeIn_of_flat {fields : List Field}
    (flat : ∀ field ∈ fields, ∀ inner, field.2 ≠ .struct inner) (good : List Field → Prop) :
    FieldType.EveryScopeIn good fields := by
  induction fields with
  | nil => trivial
  | cons field fields inductionHypothesis =>
    obtain ⟨name, ty⟩ := field
    refine ⟨?_, inductionHypothesis fun field listed => flat field (List.mem_cons_of_mem _ listed)⟩
    cases ty with
    | struct inner => exact absurd rfl (flat _ List.mem_cons_self inner)
    | _ => trivial

theorem checkIdentifier_eq_ok_iff (name : String) :
    checkIdentifier name = .ok () ↔ C.isIdentifier name = true := by
  rw [checkIdentifier]
  split <;> simp_all

/-- What every field has passed: its name is an identifier that no field in front of it has, and its type
is supported. -/
theorem verifyFields_eq_ok_iff (seen : List String) (fields : List Field) :
    verifyFields seen fields = .ok () ↔
      (∀ field ∈ fields, C.isIdentifier field.1 = true ∧ field.1 ∉ seen ∧ verifyType field.1 field.2 = .ok ()) ∧
        (fields.map Prod.fst).Nodup := by
  induction fields generalizing seen with
  | nil => simp [verifyFields]
  | cons field fields inductionHypothesis =>
    obtain ⟨name, ty⟩ := field
    rw [verifyFields, List.forall_mem_cons, List.map_cons, List.nodup_cons]
    constructor
    · intro verified
      obtain ⟨⟨⟩, named, verified⟩ := bind_eq_ok verified
      split at verified
      · cases verified
      · rename_i fresh
        obtain ⟨⟨⟩, typed, verified⟩ := bind_eq_ok verified
        obtain ⟨each, distinct⟩ := (inductionHypothesis _).mp verified
        refine ⟨⟨⟨(checkIdentifier_eq_ok_iff name).mp named, by simpa using fresh, typed⟩, ?_⟩, ?_, distinct⟩
        · intro field listed
          obtain ⟨named, others, typed⟩ := each field listed
          exact ⟨named, fun before => others (List.mem_cons_of_mem _ before), typed⟩
        · intro again
          obtain ⟨field, listed, rfl⟩ := List.mem_map.mp again
          exact (each field listed).2.1 List.mem_cons_self
    · rintro ⟨⟨⟨named, fresh, typed⟩, each⟩, alone, distinct⟩
      have rest : verifyFields (name :: seen) fields = .ok () := by
        refine (inductionHypothesis _).mpr ⟨fun field listed => ?_, distinct⟩
        obtain ⟨named, others, typed⟩ := each field listed
        have different : field.1 ≠ name := by
          rintro rfl
          exact alone (List.mem_map.mpr ⟨field, listed, rfl⟩)
        exact ⟨named, by simp [different, others], typed⟩
      rw [(checkIdentifier_eq_ok_iff name).mpr named, typed, rest, if_neg (by simpa using fresh)]
      rfl

theorem verify_iff_parts (name : String) (schema : Schema) :
    verify name schema = .ok () ↔
      C.isIdentifier name = true ∧ schema.kind = .struct ∧ schema.fields ≠ [] ∧
        (∀ field ∈ schema.fields, C.isIdentifier field.1 = true ∧ verifyType field.1 field.2 = .ok ()) ∧
        (schema.fields.map Prod.fst).Nodup := by
  have listed := verifyFields_eq_ok_iff [] schema.fields
  simp only [List.not_mem_nil, not_false_eq_true, true_and] at listed
  obtain ⟨kind, fields⟩ := schema
  constructor
  · intro verified
    obtain ⟨⟨⟩, named, verified⟩ := bind_eq_ok verified
    cases kind with
    | enum => cases verified
    | struct =>
      by_cases empty : fields.isEmpty = true
      · rw [if_neg nofun, if_pos empty] at verified
        cases verified
      · rw [if_neg nofun, if_neg empty] at verified
        exact ⟨(checkIdentifier_eq_ok_iff name).mp named, rfl, by simpa using empty, listed.mp verified⟩
  · rintro ⟨named, rfl, nonempty, each⟩
    cases fields with
    | nil => exact absurd rfl nonempty
    | cons field fields =>
      rw [verify, (checkIdentifier_eq_ok_iff name).mpr named]
      exact listed.mpr each

/-- A schema that can be compiled is a struct, and its fields are supported. -/
theorem verify_eq_ok {name : String} {schema : Schema} (verified : verify name schema = .ok ()) :
    schema.toType = .struct schema.fields ∧ Supported schema.fields := by
  obtain ⟨-, struct, nonempty, each, distinct⟩ := (verify_iff_parts name schema).mp verified
  obtain ⟨kind, fields⟩ := schema
  cases struct
  refine ⟨rfl, nonempty, distinct, ?_⟩
  rintro ⟨field, ty⟩ listed inner rfl
  have typed := (each _ listed).2
  simp [verifyType] at typed

end PackedRecord
