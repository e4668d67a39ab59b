import PackedRecord.Proofs.Json.Objects
import PackedRecord.Proofs.Value.Json

/-!
# Values between JSON and the wire

A value that was read from JSON has bytes that decode to it, whatever its JSON looked like
(`encode_of_ofJson`).  The way back is narrower.  The JSON form of a value does not tell its type: an
absent option and an absent option inside a present one are both `null`, and so is a float that is no
number.  Where a type has none of these (`Lossless`), a canonical value, which decodes from its own
bytes, is read back from its JSON form (`ofJson_toJson_of_canonical`).
-/

namespace PackedRecord

/-! ## From JSON over the wire -/

/-- What was read from JSON encodes, and decodes to the same value bit for bit. -/
theorem encode_of_ofJson {ty : FieldType} (structs : ty.EveryStruct fun fields => (fields.map Prod.fst).Nodup)
    (enums : ty.EveryEnum fun variants => variants.length ≤ 256) {raw : Json} {v : Value}
    (read : Value.ofJson ty raw = .ok v) (short : v.EveryText fun s => (Utf8.encode s).length ≤ 2 ^ 32 - 1) :
    ∃ bytes, v.encode ty = .ok bytes ∧ Value.decode ty bytes = .ok v := by
  obtain ⟨bytes, written, spelled⟩ := ty.carried_of_reads structs enums raw v ⟨Path.root, read⟩ short
  exact ⟨bytes, Value.encode_eq_ok_iff.mpr written, Value.decode_eq_ok_iff.mpr spelled⟩

/-- A note that is missing in JSON, and a float that is rounded on its way in. -/
theorem encode_of_ofJson_reading :
    let ty : FieldType :=
      .struct [("id", .scalar .u16), ("note", .option .text),
        ("level", .enum [("off", .text), ("on", .scalar .f32)])]
    let raw : Json := .object [("id", .number (.unsigned 258)),
      ("level", .object [("on", .number (.float 0x3FB999999999999A))])]
    let v : Value := .struct [("id", .scalar (.u16 258)), ("note", .absent),
      ("level", .enum "on" (.scalar (.f32 0x3DCCCCCD)))]
    Value.ofJson ty raw = .ok v ∧ ∃ bytes, v.encode ty = .ok bytes ∧ Value.decode ty bytes = .ok v := by
  intro ty raw v
  have read : Value.ofJson ty raw = .ok v := rfl
  have structs : ty.EveryStruct fun fields => (fields.map Prod.fst).Nodup := by
    simp [ty, FieldType.EveryStruct, FieldType.EveryStructIn]
  have enums : ty.EveryEnum fun variants => variants.length ≤ 256 := by
    simp [ty, FieldType.EveryEnum, FieldType.EveryEnumIn]
  have short : v.EveryText fun s => (Utf8.encode s).length ≤ 2 ^ 32 - 1 := by
    simp [v, Value.EveryText, Value.EveryLeaf, Value.EveryLeafOf]
  exact ⟨read, encode_of_ofJson structs enums read short⟩

/-! ## Numbers and bytes -/

/-- An integer is written as the JSON integer that it is read from. -/
theorem Scalar.exists_numeral {kind : ScalarKind} (integer : kind ≠ .f32 ∧ kind ≠ .f64) {s : Scalar}
    (same : s.kind = kind) : ∃ n, s.toJson = .number n ∧ ofNumeral? kind n = some s := by
  subst same
  cases s with
  | f32 word => exact absurd rfl integer.1
  | f64 word => exact absurd rfl integer.2
  | u8 n => exact ⟨_, rfl, by simp [ofNumeral?, kind, ofWord, n.toNat_lt]⟩
  | u16 n => exact ⟨_, rfl, by simp [ofNumeral?, kind, ofWord, n.toNat_lt]⟩
  | u32 n => exact ⟨_, rfl, by simp [ofNumeral?, kind, ofWord, n.toNat_lt]⟩
  | u64 n => exact ⟨_, rfl, by simp [ofNumeral?, kind, ofWord, n.toNat_lt]⟩

theorem mapM_byteOfJson? (data : List UInt8) :
    (data.map fun b => Json.ofNat b.toNat).mapM byteOfJson? = some data := by
  induction data with
  | nil => rfl
  | cons b data inductionHypothesis =>
    have byte : byteOfJson? (.ofNat b.toNat) = some b := by simp [byteOfJson?, Json.ofNat, b.toNat_lt]
    rw [List.map_cons, List.mapM_cons, inductionHypothesis, byte]
    rfl

namespace FieldType

/-- The type itself adds nothing that its values lose in JSON.  What stands in it may. -/
def Lossless : FieldType → Prop
  | scalar kind => kind ≠ .f32 ∧ kind ≠ .f64
  | option (option _) => False
  | struct fields => (fields.map Prod.fst).Nodup
  | _ => True

/-- A value that is what its type sees of it, and has bytes. -/
def Canonical (ty : FieldType) (v : Value) : Prop :=
  (∃ bytes, ty.wire? v = some bytes) ∧ ty.normalize v = v

def ReadsBack (ty : FieldType) (v : Value) : Prop :=
  ∀ path, ty.valueOfJson path v.toJson = .ok v

theorem canonical_of_decode {ty : FieldType} {v : Value} {bytes : List UInt8}
    (encoded : v.encode ty = .ok bytes) (decoded : Value.decode ty bytes = .ok v) : ty.Canonical v := by
  have written := Value.encode_eq_ok_iff.mp encoded
  have again := Value.decode_eq_ok_iff.mpr (ty.spells_normalize v bytes written)
  exact ⟨⟨bytes, written⟩, Except.ok.inj (again.symm.trans decoded)⟩

theorem Canonical.spells {ty : FieldType} {v : Value} (canonical : ty.Canonical v) :
    ∃ bytes, ty.Spells bytes v := by
  obtain ⟨⟨bytes, written⟩, kept⟩ := canonical
  have spelled := ty.spells_normalize v bytes written
  rw [kept] at spelled
  exact ⟨bytes, spelled⟩

/-! ## What the JSON form keeps -/

/-- What is present in an option is not `null`, which stands for an absent one. -/
theorem toJson_ne_null {ty : FieldType} (lossless : (option ty).Lossless) (inner : ty.Lossless) {v : Value}
    {bytes : List UInt8} (spelled : ty.Spells bytes v) : v.toJson ≠ .null := by
  cases spelled with
  | @scalar kind =>
    obtain ⟨n, number, -⟩ := Scalar.exists_numeral inner (Scalar.kind_ofWord kind (ofLittleEndian bytes))
    simp [Value.toJson, number]
  | absent | present => exact lossless.elim
  | text | bytes | array | struct | enum => simp [Value.toJson, Json.ofMembers]

theorem length_itemsToJson (items : List Value) : (Value.itemsToJson items).length = items.length := by
  induction items with
  | nil => rfl
  | cons item items inductionHypothesis =>
    rw [Value.itemsToJson, List.length_cons, inductionHypothesis, List.length_cons]

theorem membersToJson_eq_map (members : List (String × Value)) :
    Value.membersToJson members = members.map fun member => (member.1, member.2.toJson) := by
  induction members with
  | nil => rfl
  | cons member members inductionHypothesis => rw [Value.membersToJson, inductionHypothesis, List.map_cons]

/-! ## Reading the JSON form -/

theorem itemsOfJson_itemsToJson {element : FieldType}
    (each : ∀ v, element.Canonical v → element.ReadsBack v)
    {items : List Value} {bytes : List UInt8} (written : joined? element.wire? items = some bytes)
    (kept : items.map element.normalize = items) (path : Path) (i : Nat) :
    itemsOfJson element.valueOfJson path i (Value.itemsToJson items) = .ok items := by
  induction items generalizing i bytes with
  | nil => rfl
  | cons item items inductionHypothesis =>
    obtain ⟨front, back, head, tail, -⟩ := joined?_cons_eq_some_iff.mp written
    obtain ⟨same, others⟩ := List.cons.inj kept
    have first := each item ⟨⟨front, head⟩, same⟩ (path.element i)
    rw [Value.itemsToJson, itemsOfJson, first, inductionHypothesis tail others]
    rfl

theorem exists_of_wireFields? {fields : List Field} {find : String → Option Value} {bytes : List UInt8}
    (written : wireFields? fields find = some bytes) :
    ∀ field ∈ fields, ∃ v front, find field.1 = some v ∧ field.2.wire? v = some front := by
  induction fields generalizing bytes with
  | nil => simp
  | cons field fields inductionHypothesis =>
    obtain ⟨name, ty⟩ := field
    obtain ⟨v, front, back, found, head, tail, -⟩ := wireFields?_cons_eq_some_iff.mp written
    exact List.forall_mem_cons.mpr ⟨⟨v, front, found, head⟩, inductionHypothesis tail⟩

/-- Fields that find the JSON form of their members read these. -/
theorem membersOfJson_eq_ok {fields : List Field} {members : List (String × Value)}
    {object : List (String × Json)}
    (each : ∀ field ∈ fields, ∃ v, members.lookup field.1 = some v ∧ field.2.normalize v = v ∧
      object.lookup field.1 = some v.toJson ∧ field.2.ReadsBack v) (path : Path) :
    membersOfJson fields path object = .ok (normalizeFields fields members) := by
  induction fields with
  | nil => rw [membersOfJson, normalizeFields]
  | cons field fields inductionHypothesis =>
    obtain ⟨name, ty⟩ := field
    obtain ⟨⟨v, found, same, form, reads⟩, others⟩ := List.forall_mem_cons.mp each
    rw [membersOfJson, normalizeFields, found, form, Option.getD_some, reads, inductionHypothesis others]
    simp only [same]
    rfl

theorem readsBack_struct {fields : List Field} (distinct : (fields.map Prod.fst).Nodup)
    (each : ∀ field ∈ fields, ∀ v, field.2.Canonical v → field.2.ReadsBack v) {v : Value}
    (canonical : (struct fields).Canonical v) : (struct fields).ReadsBack v := by
  obtain ⟨_, spelled⟩ := canonical.spells
  obtain ⟨⟨bytes, written⟩, kept⟩ := canonical
  cases spelled with
  | @struct _ _ members spelled =>
    rw [wire?_struct] at written
    replace kept : normalizeFields fields members = members := by simpa [normalize] using kept
    have keys : ((Value.membersToJson members).map Prod.fst).Nodup := by
      rw [membersToJson_eq_map, List.map_map]
      exact spelled.names_eq ▸ distinct
    intro path
    rw [Value.toJson, Json.ofMembers, valueOfJson, membersOfJson_eq_ok, kept]
    · rfl
    · intro field listed
      obtain ⟨v, front, found, head⟩ := exists_of_wireFields? written field listed
      have same : field.2.normalize v = v := by
        have again := lookup_normalizeFields members distinct field listed
        rw [kept, found, Option.map_some] at again
        exact (Option.some.inj again).symm
      refine ⟨v, found, same, ?_, each field listed v ⟨⟨front, head⟩, same⟩⟩
      apply Json.get?_ofMembers keys
      rw [membersToJson_eq_map]
      exact List.mem_map.mpr ⟨(field.1, v), mem_of_lookup found, rfl⟩

theorem variantOfJson_eq {before after : List Field} {name : String} {ty : FieldType}
    (fresh : ∀ variant ∈ before, variant.1 ≠ name) (path : Path) (payload : Json) :
    variantOfJson (before ++ (name, ty) :: after) path name payload =
      some (.enum name <$> ty.valueOfJson (path.member name) payload) := by
  induction before with
  | nil => rw [List.nil_append, variantOfJson, if_pos rfl]
  | cons variant before inductionHypothesis =>
    obtain ⟨different, fresh⟩ := List.forall_mem_cons.mp fresh
    rw [List.cons_append, variantOfJson, if_neg different, inductionHypothesis fresh]

/-- A canonical value of a type that loses nothing in JSON is read from its JSON form. -/
theorem readsBack_of_canonical (ty : FieldType) (lossless : ∀ part ∈ ty.parts, part.Lossless) :
    ∀ v, ty.Canonical v → ty.ReadsBack v := by
  induction ty with
  | scalar kind =>
    intro v canonical path
    obtain ⟨bytes, spelled⟩ := canonical.spells
    cases spelled with
    | scalar =>
      obtain ⟨n, number, fits⟩ := Scalar.exists_numeral (lossless _ List.mem_cons_self)
        (Scalar.kind_ofWord kind (ofLittleEndian bytes))
      simp only [Value.toJson, number, valueOfJson, fits]
  | text =>
    intro v canonical path
    obtain ⟨_, spelled⟩ := canonical.spells
    cases spelled with
    | text => rfl
  | bytes length =>
    intro v canonical path
    obtain ⟨_, spelled⟩ := canonical.spells
    cases spelled with
    | bytes width => simp only [Value.toJson, valueOfJson, List.length_map, if_pos width, mapM_byteOfJson?]
  | array element count inductionHypothesis =>
    intro v canonical path
    obtain ⟨_, spelled⟩ := canonical.spells
    obtain ⟨⟨bytes, written⟩, kept⟩ := canonical
    cases spelled with
    | @array _ _ _ items spelled =>
      have full := spelled.length_items
      have each := inductionHypothesis (List.forall_mem_cons.mp lossless).2
      simp only [wire?_array, if_pos full] at written
      have items_kept : items.map element.normalize = items := by simpa [normalize] using kept
      rw [Value.toJson, valueOfJson, length_itemsToJson, if_pos full,
        itemsOfJson_itemsToJson each written items_kept]
      rfl
  | option inner inductionHypothesis =>
    intro v canonical path
    obtain ⟨_, spelled⟩ := canonical.spells
    obtain ⟨⟨bytes, written⟩, kept⟩ := canonical
    cases spelled with
    | absent => rfl
    | @present _ _ _ v _ spelled =>
      obtain ⟨whole, within⟩ := List.forall_mem_cons.mp lossless
      have notNull := toJson_ne_null whole (within inner inner.self_mem_parts) spelled
      have inner_kept : inner.normalize v = v := by simpa [normalize] using kept
      rw [wire?_option] at written
      obtain ⟨rest, piece, -⟩ := Option.map_eq_some_iff.mp written
      have reads := inductionHypothesis within v ⟨⟨rest, piece⟩, inner_kept⟩
      rw [Value.toJson, valueOfJson, reads path]
      · rfl
      · exact notNull
  | struct fields inductionHypothesis =>
    intro v canonical
    obtain ⟨distinct, within⟩ := List.forall_mem_cons.mp lossless
    apply readsBack_struct distinct _ canonical
    intro field listed
    exact inductionHypothesis field listed (forall_mem_partsIn.mp within field listed)
  | enum variants inductionHypothesis =>
    rintro v ⟨⟨bytes, written⟩, kept⟩ path
    obtain ⟨name, payload, before, ty, after, rest, rfl, rfl, fresh, -, piece, -⟩ :=
      wire?_enum_eq_some_iff.mp written
    have listed : (name, ty) ∈ before ++ (name, ty) :: after := by simp
    have payload_kept : ty.normalize payload = payload := by
      simpa [normalize, normalizePayload_eq fresh] using kept
    have within := forall_mem_partsIn.mp (List.forall_mem_cons.mp lossless).2 (name, ty) listed
    have reads := inductionHypothesis (name, ty) listed within payload ⟨⟨rest, piece⟩, payload_kept⟩
    rw [Value.toJson, valueOfJson, variantOfJson_eq fresh, reads]
    rfl

end FieldType

/-- A value that decodes from its own bytes is read from its JSON form, if its type has no floats, no
option of an option and no two fields of one name in a struct. -/
theorem ofJson_toJson_of_canonical {ty : FieldType}
    (lossless : ∀ part ∈ ty.parts, part.Lossless) {v : Value} {bytes : List UInt8}
    (encoded : v.encode ty = .ok bytes) (decoded : Value.decode ty bytes = .ok v) :
    Value.ofJson ty v.toJson = .ok v :=
  ty.readsBack_of_canonical lossless v (FieldType.canonical_of_decode encoded decoded) Path.root

/-- Two options, one of them absent, next to an enum whose payload is a struct without fields. -/
theorem ofJson_toJson_of_canonical_tags :
    let ty : FieldType := .struct [("tags", .array (.option .text) 2), ("key", .bytes 2),
      ("state", .option (.enum [("off", .struct []), ("on", .scalar .u64)]))]
    let v : Value := .struct [("tags", .array [.absent, .present (.text "a")]), ("key", .bytes [7, 255]),
      ("state", .present (.enum "off" (.struct [])))]
    let raw : Json := .object [("key", .array [.ofNat 7, .ofNat 255]),
      ("state", .object [("off", .object [])]), ("tags", .array [.null, .string "a"])]
    let bytes : List UInt8 := [0, 1, 1, 0, 0, 0, 97, 7, 255, 1, 0]
    v.encode ty = .ok bytes ∧ Value.decode ty bytes = .ok v ∧ v.toJson = raw ∧
      Value.ofJson ty raw = .ok v := by
  intro ty v raw bytes
  have lossless : ∀ part ∈ ty.parts, part.Lossless := by
    simp [ty, FieldType.parts, FieldType.partsIn, FieldType.Lossless]
  have encoded : v.encode ty = .ok bytes := rfl
  have decoded : Value.decode ty bytes = .ok v := rfl
  have written : v.toJson = raw := rfl
  exact ⟨encoded, decoded, written, written ▸ ofJson_toJson_of_canonical lossless encoded decoded⟩

end PackedRecord
