import PackedRecord.Proofs.Except
import PackedRecord.Proofs.Json.Order
import PackedRecord.Proofs.Schema.Induction
import PackedRecord.Schema.Json

/-!
# The grammar of written types

A JSON value may say more than a type: an object that describes one may have members that its kind does
not know.  `Json.strip` takes these away, wherever a type is described and nowhere else.

* `read_strip`: they have no influence on reading, not even on how it fails.
* `strip_of_ofJson`: without them, a JSON value that reads as a type is the type as it is written.
* `ofJson_grammar`: so the values that read as a type are its written form with such members added.

Where two JSON values are said to be equal, their objects are in key order (`Ordered`), as those of all
values are that come from a text (`ordered_of_parse`).
-/

namespace PackedRecord

namespace Json

/-- Induction over JSON values, with the hypothesis for every element and every member. -/
@[elab_as_elim]
theorem induction {motive : Json → Prop}
    (null : motive .null)
    (bool : ∀ b, motive (.bool b))
    (number : ∀ n, motive (.number n))
    (string : ∀ s, motive (.string s))
    (array : ∀ items, (∀ item ∈ items, motive item) → motive (.array items))
    (object : ∀ members : List (String × Json), (∀ member ∈ members, motive member.2) →
      motive (.object members))
    (raw : Json) : motive raw := by
  refine @Json.rec motive (fun items => ∀ item ∈ items, motive item)
    (fun members => ∀ member ∈ members, motive member.2) (fun member => motive member.2)
    null bool number string array object ?_ ?_ ?_ ?_ ?_ raw
  · simp
  · intro item items holds each
    exact List.forall_mem_cons.mpr ⟨holds, each⟩
  · simp
  · intro member members holds each
    exact List.forall_mem_cons.mpr ⟨holds, each⟩
  · exact fun key value holds => holds

/-- What a JSON value can stand for where a type is written. -/
inductive Role where
  | type
  | fields
  | field

/-- The key next to `kind` that an object of this kind has, and what stands under it. -/
def companion? : Option Json → Option (String × Role)
  | some (.string "option") => some ("type", .type)
  | some (.string "struct") => some ("fields", .fields)
  | some (.string "enum") => some ("values", .fields)
  | _ => none

mutual

/-- A written type without the members that its kind, or that of a type in it, does not know. -/
def strip : Role → Json → Json
  | .type, .array [element, .number n] => .array [strip .type element, .number n]
  | .type, .object members =>
    match companion? (members.lookup "kind") with
    | some (key, role) => .object (stripMembers key role members)
    | none => .object members
  | .fields, .array items => .array (stripFields items)
  | .field, .array [.string name, raw] => .array [.string name, strip .type raw]
  | _, raw => raw

def stripFields : List Json → List Json
  | [] => []
  | item :: rest => strip .field item :: stripFields rest

def stripMembers (key : String) (role : Role) : List (String × Json) → List (String × Json)
  | [] => []
  | (k, value) :: rest =>
    if k = key then (k, strip role value) :: stripMembers key role rest
    else if k = "kind" then (k, value) :: stripMembers key role rest
    else stripMembers key role rest

end

theorem companion?_cases (kind : Option Json) :
    (kind = some (.string "option") ∧ companion? kind = some ("type", .type)) ∨
      (kind = some (.string "struct") ∧ companion? kind = some ("fields", .fields)) ∨
      (kind = some (.string "enum") ∧ companion? kind = some ("values", .fields)) ∨
      companion? kind = none := by
  unfold companion?
  split <;> simp

theorem ne_kind_of_companion? {kind : Option Json} {key : String} {role : Role}
    (companion : companion? kind = some (key, role)) : key ≠ "kind" := by
  unfold companion? at companion
  split at companion <;> cases companion <;> decide

/-! ## What stripping leaves -/

theorem keys_stripMembers_sublist (key : String) (role : Role) (members : List (String × Json)) :
    ((stripMembers key role members).map Prod.fst).Sublist (members.map Prod.fst) := by
  induction members with
  | nil => exact .slnil
  | cons member members inductionHypothesis =>
    obtain ⟨k, value⟩ := member
    rw [stripMembers]
    split
    · exact inductionHypothesis.cons_cons k
    · split
      · exact inductionHypothesis.cons_cons k
      · exact inductionHypothesis.cons k

theorem keyOrder_stripMembers {members : List (String × Json)} (sorted : KeyOrder members) (key : String)
    (role : Role) : KeyOrder (stripMembers key role members) := by
  have keys : (members.map Prod.fst).Pairwise (· < ·) := List.pairwise_map.mpr sorted
  exact List.pairwise_map.mp (keys.sublist (keys_stripMembers_sublist key role members))

theorem lookup_stripMembers {key : String} (different : key ≠ "kind") (role : Role)
    (members : List (String × Json)) (other : String) :
    (stripMembers key role members).lookup other =
      if other = key then (members.lookup key).map (strip role)
      else if other = "kind" then members.lookup "kind"
      else none := by
  induction members with
  | nil => simp [stripMembers]
  | cons member members inductionHypothesis =>
    obtain ⟨k, value⟩ := member
    rw [stripMembers]
    grind [lookup_cons_eq_ite]

theorem lookup_kind_stripMembers {key : String} (different : key ≠ "kind") (role : Role)
    (members : List (String × Json)) :
    (stripMembers key role members).lookup "kind" = members.lookup "kind" := by
  rw [lookup_stripMembers different, if_neg (Ne.symm different), if_pos rfl]

/-- What is read from under the other key is the same, if stripping does not change what is read. -/
theorem elim_lookup_stripMembers {α : Type} {key : String} (different : key ≠ "kind") {role : Role}
    {members : List (String × Json)} {read : Json → α}
    (same : ∀ member ∈ members, read (member.2.strip role) = read member.2) (missing : α) :
    ((stripMembers key role members).lookup key).elim missing read =
      (members.lookup key).elim missing read := by
  rw [lookup_stripMembers different, if_pos rfl]
  cases found : members.lookup key with
  | none => rfl
  | some value => exact same (key, value) (mem_of_lookup found)

theorem strip_of_known {members : List (String × Json)} {key : String} {role : Role}
    (known : companion? (members.lookup "kind") = some (key, role)) :
    (object members).strip .type = .object (stripMembers key role members) := by
  simp only [strip, known]

theorem strip_of_unknown {members : List (String × Json)} (unknown : companion? (members.lookup "kind") = none) :
    (object members).strip .type = .object members := by
  simp only [strip, unknown]

/-- Two members are left of an object that has both, in key order as all members were. -/
theorem strip_object {members : List (String × Json)} (sorted : KeyOrder members) {kind value : Json}
    {key : String} {role : Role} (companion : companion? (some kind) = some (key, role))
    (known : members.lookup "kind" = some kind) (found : members.lookup key = some value) :
    (object members).strip .type = .object (insert [("kind", kind)] key (value.strip role)) := by
  have pair : KeyOrder (insert [("kind", kind)] key (value.strip role)) :=
    keyOrder_insert (List.pairwise_singleton _ _) key _
  rw [strip_of_known (known ▸ companion)]
  congr 1
  apply (keyOrder_stripMembers sorted key role).ext pair
  intro other
  rw [lookup_stripMembers (ne_kind_of_companion? companion), lookup_insert, lookup_cons_eq_ite, found, known,
    Option.map_some, List.lookup_nil]

theorem stripFields_eq_map (items : List Json) : stripFields items = items.map (strip .field) := by
  induction items with
  | nil => rfl
  | cons item items inductionHypothesis => exact congrArg (strip .field item :: ·) inductionHypothesis

end Json

namespace FieldType

open Json

/-! ## Reading, part by part -/

def fieldsIn : Json → Except SchemaError (List Field)
  | .array items => fieldList items
  | _ => .error .notFieldList

def fieldOf : Json → Except SchemaError Field
  | .array [.string name, raw] => (name, ·) <$> ofJson raw
  | raw => .error (.notField raw)

theorem innerOf_eq (members : List (String × Json)) :
    innerOf members = (members.lookup "type").elim (.error .bareOption) ofJson := by
  induction members with
  | nil => rfl
  | cons member members inductionHypothesis =>
    obtain ⟨key, value⟩ := member
    change (if key = "type" then ofJson value else innerOf members) = _
    rw [lookup_cons_eq_ite, inductionHypothesis]
    by_cases same : key = "type"
    · rw [if_pos same, if_pos same.symm, Option.elim]
    · rw [if_neg same, if_neg (Ne.symm same)]

theorem fieldsOf_eq (key : String) (members : List (String × Json)) :
    fieldsOf key members = (members.lookup key).elim (.error .notFieldList) fieldsIn := by
  induction members with
  | nil => rfl
  | cons member members inductionHypothesis =>
    obtain ⟨k, value⟩ := member
    have first : fieldsOf key ((k, value) :: members) =
        if k = key then fieldsIn value else fieldsOf key members := by
      cases value <;> rfl
    rw [first, lookup_cons_eq_ite, inductionHypothesis]
    by_cases same : k = key
    · rw [if_pos same, if_pos same.symm, Option.elim]
    · rw [if_neg same, if_neg (Ne.symm same)]

theorem fieldList_eq_mapM (items : List Json) : fieldList items = items.mapM fieldOf := by
  induction items with
  | nil => rfl
  | cons item items inductionHypothesis =>
    rw [List.mapM_cons, ← inductionHypothesis]
    by_cases pair : ∃ name raw, item = .array [.string name, raw]
    · obtain ⟨name, raw, rfl⟩ := pair
      rw [fieldList, fieldOf]
      cases ofJson raw <;> rfl
    · have plain : ∀ name raw, item ≠ .array [.string name, raw] := fun name raw same => pair ⟨name, raw, same⟩
      rw [fieldList, fieldOf]
      · rfl
      · exact plain
      · exact plain

theorem fieldOf_eq_ok {item : Json} {field : Field} (read : fieldOf item = .ok field) :
    ∃ raw, item = .array [.string field.1, raw] ∧ ofJson raw = .ok field.2 := by
  by_cases pair : ∃ name raw, item = .array [.string name, raw]
  · obtain ⟨name, raw, rfl⟩ := pair
    rw [fieldOf] at read
    obtain ⟨ty, inner, rfl⟩ := map_eq_ok read
    exact ⟨raw, rfl, inner⟩
  · rw [fieldOf] at read
    · cases read
    · exact fun name raw same => pair ⟨name, raw, same⟩

section Kinds

variable {members : List (String × Json)}

theorem ofJson_object (members : List (String × Json)) :
    ofJson (.object members) =
      match members.lookup "kind" with
      | some (.string "option") => option <$> innerOf members
      | some (.string "struct") => struct <$> fieldsOf "fields" members
      | some (.string "enum") => enum <$> fieldsOf "values" members
      | some (.string other) => .error (.unknownKind other)
      | _ => .error .missingKind := rfl

theorem ofJson_option (kind : members.lookup "kind" = some (.string "option")) :
    ofJson (.object members) = option <$> (members.lookup "type").elim (.error .bareOption) ofJson := by
  simp only [ofJson_object, kind, innerOf_eq]

theorem ofJson_struct (kind : members.lookup "kind" = some (.string "struct")) :
    ofJson (.object members) = struct <$> (members.lookup "fields").elim (.error .notFieldList) fieldsIn := by
  simp only [ofJson_object, kind, fieldsOf_eq]

theorem ofJson_enum (kind : members.lookup "kind" = some (.string "enum")) :
    ofJson (.object members) = enum <$> (members.lookup "values").elim (.error .notFieldList) fieldsIn := by
  simp only [ofJson_object, kind, fieldsOf_eq]

theorem ofJson_of_unknown_kind (unknown : companion? (members.lookup "kind") = none) :
    ∃ fault, ofJson (.object members) = .error fault := by
  rw [ofJson_object]
  split
  · rename_i kind
    simp [kind, companion?] at unknown
  · rename_i kind
    simp [kind, companion?] at unknown
  · rename_i kind
    simp [kind, companion?] at unknown
  · exact ⟨_, rfl⟩
  · exact ⟨_, rfl⟩

end Kinds

/-! ## Unknown members have no influence -/

theorem fieldList_strip {items : List Json} (each : ∀ item ∈ items, fieldOf (item.strip .field) = fieldOf item) :
    fieldList (stripFields items) = fieldList items := by
  rw [fieldList_eq_mapM, fieldList_eq_mapM, stripFields_eq_map]
  induction items with
  | nil => rfl
  | cons item items inductionHypothesis =>
    obtain ⟨first, others⟩ := List.forall_mem_cons.mp each
    rw [List.map_cons, List.mapM_cons, List.mapM_cons, first, inductionHypothesis others]

/-- Whatever a JSON value stands for, it is read as without the unknown members. -/
theorem read_strip (raw : Json) :
    ofJson (raw.strip .type) = ofJson raw ∧ fieldsIn (raw.strip .fields) = fieldsIn raw ∧
      fieldOf (raw.strip .field) = fieldOf raw := by
  induction raw using Json.induction with
  | null | bool b | number n | string s => exact ⟨rfl, rfl, rfl⟩
  | array items inductionHypothesis =>
    refine ⟨?_, ?_, ?_⟩
    · by_cases sized : ∃ element n, items = [element, .number n]
      · obtain ⟨element, n, rfl⟩ := sized
        rw [strip, ofJson, ofJson, (inductionHypothesis element List.mem_cons_self).1]
      · rw [strip] <;> simp_all
    · exact fieldList_strip fun item listed => (inductionHypothesis item listed).2.2
    · by_cases pair : ∃ name raw, items = [.string name, raw]
      · obtain ⟨name, raw, rfl⟩ := pair
        rw [strip, fieldOf, fieldOf, (inductionHypothesis raw (by simp)).1]
      · rw [strip] <;> simp_all
  | object members inductionHypothesis =>
    refine ⟨?_, rfl, rfl⟩
    have types := fun member listed => (inductionHypothesis member listed).1
    have lists := fun member listed => (inductionHypothesis member listed).2.1
    rcases companion?_cases (members.lookup "kind") with
      ⟨kind, known⟩ | ⟨kind, known⟩ | ⟨kind, known⟩ | unknown
    · have apart := ne_kind_of_companion? known
      have kept := (lookup_kind_stripMembers apart .type members).trans kind
      rw [strip_of_known known, ofJson_option kept, ofJson_option kind, elim_lookup_stripMembers apart types]
    · have apart := ne_kind_of_companion? known
      have kept := (lookup_kind_stripMembers apart .fields members).trans kind
      rw [strip_of_known known, ofJson_struct kept, ofJson_struct kind, elim_lookup_stripMembers apart lists]
    · have apart := ne_kind_of_companion? known
      have kept := (lookup_kind_stripMembers apart .fields members).trans kind
      rw [strip_of_known known, ofJson_enum kept, ofJson_enum kind, elim_lookup_stripMembers apart lists]
    · rw [strip_of_unknown unknown]

/-! ## The written form -/

theorem fieldList_fieldsToJson {fields : List Field} (each : ∀ field ∈ fields, ofJson field.2.toJson = .ok field.2) :
    fieldList (fieldsToJson fields) = .ok fields := by
  induction fields with
  | nil => rfl
  | cons field fields inductionHypothesis =>
    obtain ⟨name, ty⟩ := field
    obtain ⟨first, others⟩ := List.forall_mem_cons.mp each
    change (do
      let ty ← ofJson ty.toJson
      let fields ← fieldList (fieldsToJson fields)
      return (name, ty) :: fields) = _
    rw [first, inductionHypothesis others]
    rfl

theorem ofJson_toJson (ty : FieldType) : ofJson ty.toJson = .ok ty := by
  induction ty with
  | scalar kind => cases kind <;> rfl
  | text | bytes length => rfl
  | array element count inductionHypothesis =>
    rw [toJson, ofJson, inductionHypothesis]
    rfl
  | option inner inductionHypothesis =>
    refine (ofJson_option rfl).trans ?_
    exact congrArg (option <$> ·) inductionHypothesis
  | struct fields inductionHypothesis =>
    refine (ofJson_struct rfl).trans ?_
    exact congrArg (struct <$> ·) (fieldList_fieldsToJson inductionHypothesis)
  | enum variants inductionHypothesis =>
    refine (ofJson_enum rfl).trans ?_
    exact congrArg (enum <$> ·) (fieldList_fieldsToJson inductionHypothesis)

/-- What a JSON value that reads as a type looks like. -/
inductive Denotes : Json → FieldType → Prop where
  | scalar (kind : ScalarKind) : Denotes (.string kind.name) (.scalar kind)
  | text : Denotes (.string "string") .text
  | bytes (length : UInt64) : Denotes (.array [.number (.unsigned length)]) (.bytes length)
  | array {raw : Json} {element : FieldType} (count : UInt64) (inner : ofJson raw = .ok element) :
    Denotes (.array [raw, .number (.unsigned count)]) (.array element count)
  | option {members : List (String × Json)} {raw : Json} {inner : FieldType}
    (kind : members.lookup "kind" = some (.string "option")) (found : members.lookup "type" = some raw)
    (read : ofJson raw = .ok inner) : Denotes (.object members) (.option inner)
  | struct {members : List (String × Json)} {items : List Json} {fields : List Field}
    (kind : members.lookup "kind" = some (.string "struct"))
    (found : members.lookup "fields" = some (.array items))
    (each : List.Forall₂ (fun item field => fieldOf item = .ok field) items fields) :
    Denotes (.object members) (.struct fields)
  | enum {members : List (String × Json)} {items : List Json} {variants : List Field}
    (kind : members.lookup "kind" = some (.string "enum"))
    (found : members.lookup "values" = some (.array items))
    (each : List.Forall₂ (fun item variant => fieldOf item = .ok variant) items variants) :
    Denotes (.object members) (.enum variants)

theorem fieldsIn_eq_ok {found : Option Json} {fields : List Field}
    (read : found.elim (.error .notFieldList) fieldsIn = .ok fields) :
    ∃ items, found = some (.array items) ∧ List.Forall₂ (fun item field => fieldOf item = .ok field) items fields := by
  cases found with
  | none => cases read
  | some value =>
    cases value with
    | array items =>
      change fieldList items = .ok fields at read
      rw [fieldList_eq_mapM] at read
      exact ⟨items, rfl, mapM_eq_ok_iff.mp read⟩
    | _ => cases read

theorem lengthOf_eq_ok {n : Numeral} {length : UInt64} (read : lengthOf n = .ok length) :
    n = .unsigned length := by
  cases n with
  | unsigned n =>
    cases read
    rfl
  | _ => cases read

theorem denotes_of_ofJson {raw : Json} {ty : FieldType} (read : ofJson raw = .ok ty) : Denotes raw ty := by
  cases raw with
  | null | bool | number => cases read
  | string name =>
    rw [ofJson] at read
    split at read
    · rename_i same
      cases read
      exact same ▸ .text
    · split at read
      · rename_i kind found
        cases read
        have named : kind.name = name := by simpa using List.find?_some found
        exact named ▸ .scalar kind
      · cases read
  | array items =>
    rcases items with _ | ⟨raw, _ | ⟨last, _ | ⟨more, rest⟩⟩⟩
    · cases read
    · cases raw with
      | number n =>
        rw [ofJson] at read
        obtain ⟨length, counted, rfl⟩ := map_eq_ok read
        cases lengthOf_eq_ok counted
        exact .bytes length
      | _ => cases read
    · cases last with
      | number n =>
        rw [ofJson] at read
        obtain ⟨element, inner, read⟩ := bind_eq_ok read
        obtain ⟨count, counted, rfl⟩ := map_eq_ok read
        cases lengthOf_eq_ok counted
        exact .array count inner
      | _ => simp [ofJson] at read
    · simp [ofJson] at read
  | object members =>
    rcases companion?_cases (members.lookup "kind") with
      ⟨kind, -⟩ | ⟨kind, -⟩ | ⟨kind, -⟩ | unknown
    · rw [ofJson_option kind] at read
      obtain ⟨inner, under, rfl⟩ := map_eq_ok read
      cases found : members.lookup "type" with
      | none =>
        rw [found] at under
        cases under
      | some raw =>
        rw [found] at under
        exact .option kind found under
    · rw [ofJson_struct kind] at read
      obtain ⟨fields, under, rfl⟩ := map_eq_ok read
      obtain ⟨items, found, each⟩ := fieldsIn_eq_ok under
      exact .struct kind found each
    · rw [ofJson_enum kind] at read
      obtain ⟨variants, under, rfl⟩ := map_eq_ok read
      obtain ⟨items, found, each⟩ := fieldsIn_eq_ok under
      exact .enum kind found each
    · obtain ⟨fault, failed⟩ := ofJson_of_unknown_kind unknown
      rw [failed] at read
      cases read

theorem strip_fields {items : List Json} {fields : List Field}
    (each : List.Forall₂ (fun item field => fieldOf item = .ok field) items fields)
    (ordered : ∀ item ∈ items, item.Ordered)
    (types : ∀ field ∈ fields, ∀ raw : Json, raw.Ordered → ofJson raw = .ok field.2 →
      raw.strip .type = field.2.toJson) :
    stripFields items = fieldsToJson fields := by
  induction each with
  | nil => rfl
  | @cons item field items fields first others inductionHypothesis =>
    obtain ⟨name, ty⟩ := field
    obtain ⟨raw, rfl, read⟩ := fieldOf_eq_ok first
    obtain ⟨orderedFirst, orderedRest⟩ := List.forall_mem_cons.mp ordered
    obtain ⟨typeFirst, typesRest⟩ := List.forall_mem_cons.mp types
    have inner : raw.Ordered := orderedIn_iff.mp orderedFirst raw (by simp)
    rw [stripFields, fieldsToJson, strip, typeFirst raw inner read, inductionHypothesis orderedRest typesRest]

/-- Without unknown members, what reads as a type is the type as it is written. -/
theorem strip_of_ofJson (ty : FieldType) :
    ∀ raw : Json, raw.Ordered → ofJson raw = .ok ty → raw.strip .type = ty.toJson := by
  induction ty with
  | scalar kind =>
    intro raw ordered read
    cases denotes_of_ofJson read with
    | scalar => rw [strip, toJson] <;> simp
  | text =>
    intro raw ordered read
    cases denotes_of_ofJson read with
    | text => rfl
  | bytes length =>
    intro raw ordered read
    cases denotes_of_ofJson read with
    | bytes => rfl
  | array element count inductionHypothesis =>
    intro raw ordered read
    cases denotes_of_ofJson read with
    | @array raw _ _ inner => rw [strip, toJson, inductionHypothesis raw ordered.1 inner]
  | option inner inductionHypothesis =>
    intro raw ordered read
    cases denotes_of_ofJson read with
    | @option members raw _ kind found read =>
      have within := orderedOf_iff.mp ordered.2 _ (mem_of_lookup found)
      rw [strip_object ordered.1 rfl kind found, inductionHypothesis raw within read]
      rfl
  | struct fields inductionHypothesis =>
    intro raw ordered read
    cases denotes_of_ofJson read with
    | @struct members items _ kind found each =>
      have within := orderedOf_iff.mp ordered.2 _ (mem_of_lookup found)
      rw [strip_object ordered.1 rfl kind found, strip, strip_fields each (orderedIn_iff.mp within) inductionHypothesis]
      rfl
  | enum variants inductionHypothesis =>
    intro raw ordered read
    cases denotes_of_ofJson read with
    | @enum members items _ kind found each =>
      have within := orderedOf_iff.mp ordered.2 _ (mem_of_lookup found)
      rw [strip_object ordered.1 rfl kind found, strip, strip_fields each (orderedIn_iff.mp within) inductionHypothesis]
      rfl

end FieldType

/-! ## Top-level records -/

namespace Schema

theorem ofJson_eq_ok_iff {raw : Json} {s : Schema} :
    Schema.ofJson raw = .ok s ↔ FieldType.ofJson raw = .ok s.toType := by
  obtain ⟨kind, fields⟩ := s
  rw [Schema.ofJson]
  cases FieldType.ofJson raw with
  | error fault => simp [bind, Except.bind]
  | ok ty => cases ty <;> cases kind <;> simp [bind, Except.bind, pure, Except.pure, toType]

theorem ofJson_of_other {raw : Json} {ty : FieldType} (read : FieldType.ofJson raw = .ok ty)
    (noStruct : ∀ fields, ty ≠ .struct fields) (noEnum : ∀ variants, ty ≠ .enum variants) :
    Schema.ofJson raw = .error (.notRecord ty.toJson) := by
  rw [Schema.ofJson, read]
  cases ty with
  | struct fields => exact absurd rfl (noStruct fields)
  | enum variants => exact absurd rfl (noEnum variants)
  | _ => rfl

end Schema

/-- A type or a top-level record is read from its written form, and from what is its written form once
the members that no kind knows are taken away, and from nothing else.  What reads as a type that is no
record is refused as a record. -/
theorem FieldType.ofJson_grammar :
    (∀ ty : FieldType, ofJson ty.toJson = .ok ty) ∧
    (∀ (raw : Json) (ty : FieldType), raw.Ordered →
      (ofJson raw = .ok ty ↔ raw.strip .type = ty.toJson)) ∧
    (∀ s : Schema, Schema.ofJson s.toJson = .ok s) ∧
    (∀ (raw : Json) (s : Schema), raw.Ordered →
      (Schema.ofJson raw = .ok s ↔ raw.strip .type = s.toJson)) ∧
    ∀ (raw : Json) (ty : FieldType), ofJson raw = .ok ty → (∀ fields, ty ≠ .struct fields) →
      (∀ variants, ty ≠ .enum variants) → Schema.ofJson raw = .error (.notRecord ty.toJson) := by
  have reads : ∀ (raw : Json) (ty : FieldType), raw.Ordered →
      (ofJson raw = .ok ty ↔ raw.strip .type = ty.toJson) := by
    intro raw ty ordered
    constructor
    · exact strip_of_ofJson ty raw ordered
    · intro same
      rw [← (read_strip raw).1, same, ofJson_toJson]
  refine ⟨ofJson_toJson, reads, fun s => ?_, fun raw s ordered => ?_, fun raw ty => Schema.ofJson_of_other⟩
  · exact Schema.ofJson_eq_ok_iff.mpr (ofJson_toJson s.toType)
  · rw [Schema.ofJson_eq_ok_iff]
    exact reads raw s.toType ordered

/-- A record with a version and a field with a note, which no kind knows. -/
theorem FieldType.ofJson_grammar_annotated :
    let note : Json := .object [("kind", .string "option"), ("note", .object []),
      ("type", .array [.string "u16", .number (.unsigned 4)])]
    let raw : Json := .object [
      ("fields", .array [.array [.string "note", note], .array [.string "key", .array [.number (.unsigned 3)]]]),
      ("kind", .string "struct"), ("version", .number (.unsigned 2))]
    let s : Schema := ⟨.struct, [("note", .option (.array (.scalar .u16) 4)), ("key", .bytes 3)]⟩
    raw.Ordered ∧ raw ≠ s.toJson ∧ raw.strip .type = s.toJson ∧ Schema.ofJson raw = .ok s := by
  intro note raw s
  have ordered : raw.Ordered := by
    simp only [raw, note, Json.Ordered, Json.OrderedIn, Json.OrderedOf, Json.KeyOrder]
    decide
  have stripped : raw.strip .type = s.toJson := rfl
  refine ⟨ordered, by simp [raw, s, Schema.toJson, Schema.toType, FieldType.toJson], stripped, ?_⟩
  exact (ofJson_grammar.2.2.2.1 raw s ordered).mpr stripped

end PackedRecord
