import Mathlib.Data.List.TakeWhile
import PackedRecord.Proofs.Plan.Walk
import PackedRecord.Proofs.Value.Visible

/-!
# What becomes of a value on the wire

What is written by plan has lost what follows a NUL in a text (`Value.visible`) and the members that
its type has no fields for (`FieldType.normalize`).  Nothing else is lost, and nothing more the second
time.

* `Value.visible_visible`, `Value.visible_normalize`: cutting texts twice is cutting them once, and it
  does not matter whether members are dropped before or after it.
* `FieldType.wire?_normalize`: a value and what its type sees of it have the same bytes, if no struct
  of the type has two fields of one name.
-/

namespace PackedRecord

/-! ## Structs and enums anywhere in a type -/

namespace FieldType

mutual

/-- Every struct that occurs in a type is as said, also below arrays, options and enums. -/
def EveryStruct (good : List Field → Prop) : FieldType → Prop
  | array element _ => element.EveryStruct good
  | option inner => inner.EveryStruct good
  | struct fields => good fields ∧ EveryStructIn good fields
  | enum variants => EveryStructIn good variants
  | _ => True

/-- Every struct that occurs in the types of these fields is as said. -/
def EveryStructIn (good : List Field → Prop) : List Field → Prop
  | [] => True
  | (_, ty) :: rest => ty.EveryStruct good ∧ EveryStructIn good rest

end

mutual

/-- Every enum that occurs in a type is as said. -/
def EveryEnum (good : List Field → Prop) : FieldType → Prop
  | array element _ => element.EveryEnum good
  | option inner => inner.EveryEnum good
  | struct fields => EveryEnumIn good fields
  | enum variants => good variants ∧ EveryEnumIn good variants
  | _ => True

/-- Every enum that occurs in the types of these fields is as said. -/
def EveryEnumIn (good : List Field → Prop) : List Field → Prop
  | [] => True
  | (_, ty) :: rest => ty.EveryEnum good ∧ EveryEnumIn good rest

end

variable {good good' : List Field → Prop} {fields : List Field}

theorem everyStructIn_iff :
    EveryStructIn good fields ↔ ∀ field ∈ fields, field.2.EveryStruct good := by
  induction fields with
  | nil => simp [EveryStructIn]
  | cons field fields inductionHypothesis => simp [EveryStructIn, inductionHypothesis]

theorem everyEnumIn_iff : EveryEnumIn good fields ↔ ∀ field ∈ fields, field.2.EveryEnum good := by
  induction fields with
  | nil => simp [EveryEnumIn]
  | cons field fields inductionHypothesis => simp [EveryEnumIn, inductionHypothesis]

theorem everyScopeIn_iff : EveryScopeIn good fields ↔ ∀ field ∈ fields, field.2.EveryScope good := by
  induction fields with
  | nil => simp [EveryScopeIn]
  | cons field fields inductionHypothesis => simp [EveryScopeIn, inductionHypothesis]

theorem EveryStruct.mono (weaker : ∀ fields, good fields → good' fields) {ty : FieldType}
    (every : ty.EveryStruct good) : ty.EveryStruct good' := by
  have fields : ∀ {fields}, (∀ field ∈ fields, field.2.EveryStruct good → field.2.EveryStruct good') →
      EveryStructIn good fields → EveryStructIn good' fields := by
    intro fields each every
    rw [everyStructIn_iff] at every ⊢
    exact fun field listed => each field listed (every field listed)
  induction ty with
  | scalar kind | text | bytes length => trivial
  | array element count inductionHypothesis => exact inductionHypothesis every
  | option inner inductionHypothesis => exact inductionHypothesis every
  | struct inner inductionHypothesis => exact ⟨weaker inner every.1, fields inductionHypothesis every.2⟩
  | enum variants inductionHypothesis => exact fields inductionHypothesis every

theorem EveryScope.mono (weaker : ∀ fields, good fields → good' fields) {ty : FieldType}
    (every : ty.EveryScope good) : ty.EveryScope good' := by
  induction ty with
  | struct fields inductionHypothesis =>
    refine ⟨weaker fields every.1, everyScopeIn_iff.mpr fun field listed => ?_⟩
    exact inductionHypothesis field listed (everyScopeIn_iff.mp every.2 field listed)
  | _ => trivial

/-- The structs that a layout goes into are among those that occur in the type. -/
theorem EveryStruct.everyScope {ty : FieldType} (every : ty.EveryStruct good) : ty.EveryScope good := by
  induction ty with
  | struct fields inductionHypothesis =>
    refine ⟨every.1, everyScopeIn_iff.mpr fun field listed => ?_⟩
    exact inductionHypothesis field listed (everyStructIn_iff.mp every.2 field listed)
  | _ => trivial

end FieldType

/-! ## Cutting texts -/

namespace Value

theorem cutText_cutText (s : String) : cutText (cutText s) = cutText s := by
  simp [cutText, List.takeWhile_idem]

mutual

theorem visible_visible : ∀ v : Value, v.visible.visible = v.visible
  | scalar _ | bytes _ | absent => rfl
  | text s => by rw [visible, visible, cutText_cutText]
  | array items => by rw [visible, visible, visibleItems_visibleItems items]
  | present inner => by rw [visible, visible, visible_visible inner]
  | struct members => by rw [visible, visible, visibleMembers_visibleMembers members]
  | enum _ payload => by rw [visible, visible, visible_visible payload]

theorem visibleItems_visibleItems : ∀ items, visibleItems (visibleItems items) = visibleItems items
  | [] => rfl
  | item :: rest => by
    rw [visibleItems, visibleItems, visible_visible item, visibleItems_visibleItems rest]

theorem visibleMembers_visibleMembers :
    ∀ members, visibleMembers (visibleMembers members) = visibleMembers members
  | [] => rfl
  | (name, v) :: rest => by
    rw [visibleMembers, visibleMembers, visible_visible v, visibleMembers_visibleMembers rest]

end

end Value

/-! ## Dropping members -/

namespace FieldType

theorem visibleMembers_normalizeFields {fields : List Field} (members : List (String × Value))
    (each : ∀ field ∈ fields, ∀ v : Value, (field.2.normalize v).visible = field.2.normalize v.visible) :
    Value.visibleMembers (normalizeFields fields members) =
      normalizeFields fields (Value.visibleMembers members) := by
  induction fields with
  | nil => rfl
  | cons field fields inductionHypothesis =>
    obtain ⟨name, ty⟩ := field
    have others := inductionHypothesis fun field listed => each field (List.mem_cons_of_mem _ listed)
    rw [normalizeFields, normalizeFields, Value.lookup_visibleMembers]
    cases members.lookup name with
    | none => exact others
    | some v =>
      simp only [Option.map_some, Value.visibleMembers, others, each (name, ty) List.mem_cons_self v]

theorem visible_normalizePayload {variants : List Field} (name : String) (payload : Value)
    (each : ∀ variant ∈ variants, ∀ v : Value,
      (variant.2.normalize v).visible = variant.2.normalize v.visible) :
    (normalizePayload variants name payload).visible = normalizePayload variants name payload.visible := by
  induction variants with
  | nil => rfl
  | cons variant variants inductionHypothesis =>
    obtain ⟨n, ty⟩ := variant
    rw [normalizePayload, normalizePayload]
    split
    · exact each (n, ty) List.mem_cons_self payload
    · exact inductionHypothesis fun variant listed => each variant (List.mem_cons_of_mem _ listed)

/-- Cutting texts and dropping members do not get in each other's way. -/
theorem visible_normalize (ty : FieldType) :
    ∀ v : Value, (ty.normalize v).visible = ty.normalize v.visible := by
  induction ty with
  | scalar kind | text | bytes length => exact fun v => rfl
  | array element count each =>
    intro v
    cases v with
    | array items => simp [normalize, Value.visible, Value.visibleItems_eq_map, each]
    | _ => rfl
  | option inner each =>
    intro v
    cases v with
    | present inner => simp [normalize, Value.visible, each]
    | _ => rfl
  | struct fields each =>
    intro v
    cases v with
    | struct members => simp [normalize, Value.visible, visibleMembers_normalizeFields members each]
    | _ => rfl
  | enum variants each =>
    intro v
    cases v with
    | enum name payload => simp [normalize, Value.visible, visible_normalizePayload name payload each]
    | _ => rfl

theorem lookup_normalizeFields_of_none {members : List (String × Value)} {name : String}
    (missing : members.lookup name = none) (fields : List Field) :
    (normalizeFields fields members).lookup name = none := by
  induction fields with
  | nil => rfl
  | cons field fields inductionHypothesis =>
    obtain ⟨other, ty⟩ := field
    rw [normalizeFields]
    cases found : members.lookup other with
    | none => exact inductionHypothesis
    | some v =>
      have different : name ≠ other := by
        rintro rfl
        rw [missing] at found
        cases found
      simp [List.lookup_cons, beq_false_of_ne different, inductionHypothesis]

/-- Under distinct names, a field finds its own member again, as its type sees it. -/
theorem lookup_normalizeFields {fields : List Field} (members : List (String × Value))
    (distinct : (fields.map Prod.fst).Nodup) :
    ∀ field ∈ fields,
      (normalizeFields fields members).lookup field.1 = (members.lookup field.1).map field.2.normalize := by
  induction fields with
  | nil => simp
  | cons head fields inductionHypothesis =>
    obtain ⟨name, ty⟩ := head
    rw [List.map_cons, List.nodup_cons] at distinct
    intro field listed
    rw [normalizeFields]
    rcases List.mem_cons.mp listed with rfl | listed
    · cases found : members.lookup name with
      | none => simpa using lookup_normalizeFields_of_none found fields
      | some v => simp
    · have others := inductionHypothesis distinct.2 field listed
      have different : field.1 ≠ name := by
        intro same
        exact distinct.1 (List.mem_map.mpr ⟨field, listed, same⟩)
      cases members.lookup name with
      | none => exact others
      | some v => simpa [List.lookup_cons, beq_false_of_ne different] using others

theorem wireFields?_normalize {fields : List Field} {find find' : String → Option Value}
    (each : ∀ field ∈ fields, ∀ v bytes, field.2.wire? v = some bytes →
      field.2.wire? (field.2.normalize v) = some bytes)
    (found : ∀ field ∈ fields, find' field.1 = (find field.1).map field.2.normalize) {bytes : List UInt8}
    (written : wireFields? fields find = some bytes) : wireFields? fields find' = some bytes := by
  induction fields generalizing bytes with
  | nil => exact written
  | cons field fields inductionHypothesis =>
    obtain ⟨name, ty⟩ := field
    obtain ⟨v, front, back, member, head, tail, rfl⟩ := wireFields?_cons_eq_some_iff.mp written
    apply wireFields?_cons_eq_some_iff.mpr
    refine ⟨ty.normalize v, front, back, ?_, each (name, ty) List.mem_cons_self v front head, ?_, rfl⟩
    · rw [found (name, ty) List.mem_cons_self, member, Option.map_some]
    · exact inductionHypothesis (fun field listed => each field (List.mem_cons_of_mem _ listed))
        (fun field listed => found field (List.mem_cons_of_mem _ listed)) tail

theorem joined?_normalize {element : FieldType}
    (each : ∀ v bytes, element.wire? v = some bytes → element.wire? (element.normalize v) = some bytes)
    {items : List Value} {bytes : List UInt8} (written : joined? element.wire? items = some bytes) :
    joined? element.wire? (items.map element.normalize) = some bytes := by
  induction items generalizing bytes with
  | nil => exact written
  | cons item items inductionHypothesis =>
    obtain ⟨front, back, head, tail, rfl⟩ := joined?_cons_eq_some_iff.mp written
    apply joined?_cons_eq_some_iff.mpr
    exact ⟨front, back, each item front head, inductionHypothesis tail, rfl⟩

/-- What a type sees of a value has the bytes of the value.  Two fields of one name would both find the
first of the two members, so there must be none. -/
theorem wire?_normalize {ty : FieldType} (distinct : ty.EveryStruct fun fields => (fields.map Prod.fst).Nodup) :
    ∀ v bytes, ty.wire? v = some bytes → ty.wire? (ty.normalize v) = some bytes := by
  induction ty with
  | scalar kind | text | bytes length => exact fun v bytes written => written
  | array element count each =>
    intro v bytes written
    cases v with
    | array items =>
      simp only [wire?_array, normalize, List.length_map] at written ⊢
      by_cases full : items.length = count.toNat
      · rw [if_pos full] at written ⊢
        exact joined?_normalize (each distinct) written
      · rw [if_neg full] at written
        cases written
    | _ => exact written
  | option inner each =>
    intro v bytes written
    cases v with
    | present v =>
      rw [wire?_option] at written ⊢
      obtain ⟨rest, piece, rfl⟩ := Option.map_eq_some_iff.mp written
      simp only [normalize, each distinct v rest piece, Option.map_some]
    | _ => exact written
  | struct fields each =>
    intro v bytes written
    cases v with
    | struct members =>
      rw [wire?_struct] at written ⊢
      refine wireFields?_normalize (fun field listed => ?_) (lookup_normalizeFields members distinct.1) written
      exact each field listed (everyStructIn_iff.mp distinct.2 field listed)
    | _ => exact written
  | enum variants each =>
    intro v bytes written
    obtain ⟨name, payload, before, ty, after, rest, rfl, rfl, fresh, small, piece, rfl⟩ :=
      wire?_enum_eq_some_iff.mp written
    rw [normalize, normalizePayload_eq fresh]
    have listed : (name, ty) ∈ before ++ (name, ty) :: after := by simp
    have kept := each (name, ty) listed (everyStructIn_iff.mp distinct _ listed) payload rest piece
    exact wire?_enum_eq_some_iff.mpr
      ⟨name, ty.normalize payload, before, ty, after, rest, rfl, rfl, fresh, small, kept, rfl⟩

end FieldType

end PackedRecord
