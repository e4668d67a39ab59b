import PackedRecord.Proofs.Bytes.Reading
import PackedRecord.Proofs.Schema.Induction
import PackedRecord.Value.Decode

/-!
# The wire format

`Spells ty bytes v` is the format as a relation: `bytes` is `v` as a value of type `ty`.  It says
nothing of positions, of what stands around the bytes or of the path that names a value in errors.

* `takes_read`: reading a type takes exactly the fronts that the relation allows.
* `decode_eq_ok_iff`: bytes decode to a value exactly if they spell it.
-/

namespace PackedRecord.FieldType

mutual

/-- `Spells ty bytes v`: on the wire, `bytes` is the value `v` of type `ty`. -/
inductive Spells : FieldType → List UInt8 → Value → Prop where
  | scalar {kind : ScalarKind} {bytes : List UInt8} (width : bytes.length = kind.width) :
    Spells (.scalar kind) bytes (.scalar (.ofWord kind (ofLittleEndian bytes)))
  | text {header payload : List UInt8} (width : header.length = 4)
    (announced : payload.length = ofLittleEndian header) :
    Spells .text (header ++ payload) (.text (Utf8.decodeLossy payload))
  | bytes {length : UInt64} {data : List UInt8} (width : data.length = length.toNat) :
    Spells (.bytes length) data (.bytes data)
  | array {element : FieldType} {count : UInt64} {bytes : List UInt8} {items : List Value}
    (each : SpellsItems element count.toNat bytes items) :
    Spells (.array element count) bytes (.array items)
  | absent {inner : FieldType} : Spells (.option inner) [0] .absent
  /-- Any byte but zero announces a value. -/
  | present {inner : FieldType} {presence : UInt8} {bytes : List UInt8} {v : Value}
    (announced : presence ≠ 0) (value : Spells inner bytes v) :
    Spells (.option inner) (presence :: bytes) (.present v)
  | struct {fields : List Field} {bytes : List UInt8} {members : List (String × Value)}
    (each : SpellsFields fields bytes members) :
    Spells (.struct fields) bytes (.struct members)
  | enum {variants : List Field} {index : UInt8} {name : String} {ty : FieldType}
    {bytes : List UInt8} {payload : Value} (chosen : variants[index.toNat]? = some (name, ty))
    (value : Spells ty bytes payload) :
    Spells (.enum variants) (index :: bytes) (.enum name payload)

inductive SpellsItems : FieldType → Nat → List UInt8 → List Value → Prop where
  | nil {element : FieldType} : SpellsItems element 0 [] []
  | cons {element : FieldType} {count : Nat} {first rest : List UInt8} {item : Value}
    {items : List Value} (head : Spells element first item)
    (tail : SpellsItems element count rest items) :
    SpellsItems element (count + 1) (first ++ rest) (item :: items)

inductive SpellsFields : List Field → List UInt8 → List (String × Value) → Prop where
  | nil : SpellsFields [] [] []
  | cons {name : String} {ty : FieldType} {fields : List Field} {first rest : List UInt8} {v : Value}
    {members : List (String × Value)} (head : Spells ty first v)
    (tail : SpellsFields fields rest members) :
    SpellsFields ((name, ty) :: fields) (first ++ rest) ((name, v) :: members)

end

theorem SpellsItems.length_items {element : FieldType} {count : Nat} {bytes : List UInt8}
    {items : List Value} (spelled : SpellsItems element count bytes items) : items.length = count := by
  induction count generalizing bytes items with
  | zero =>
    cases spelled
    rfl
  | succ count inductionHypothesis =>
    cases spelled with
    | cons head tail => rw [List.length_cons, inductionHypothesis tail]

theorem SpellsFields.names_eq {fields : List Field} {bytes : List UInt8}
    {members : List (String × Value)} (spelled : SpellsFields fields bytes members) :
    members.map Prod.fst = fields.map Prod.fst := by
  induction fields generalizing bytes members with
  | nil =>
    cases spelled
    rfl
  | cons field fields inductionHypothesis =>
    cases spelled with
    | cons head tail => rw [List.map_cons, List.map_cons, inductionHypothesis tail]

/-! ## Reading follows the format -/

theorem takes_readItems {element : FieldType}
    (each : ∀ path, Reading.Takes (element.read path) element.Spells) (path : Path) (i count : Nat) :
    Reading.Takes (readItems element.read path i count) (SpellsItems element count) := by
  induction count generalizing i with
  | zero =>
    refine (Reading.takes_pure []).congr fun used items => ⟨?_, ?_⟩
    · rintro ⟨rfl, rfl⟩
      exact .nil
    · intro spelled
      cases spelled with
      | nil => exact ⟨rfl, rfl⟩
  | succ count inductionHypothesis =>
    refine ((each (path.element i)).bind fun item => (inductionHypothesis (i + 1)).bind fun items =>
      Reading.takes_pure (item :: items)).congr fun used items => ⟨?_, ?_⟩
    · rintro ⟨item, first, _, rfl, head, items, rest, _, rfl, tail, rfl, rfl⟩
      rw [List.append_nil]
      exact .cons head tail
    · intro spelled
      cases spelled with
      | cons head tail => exact ⟨_, _, _, rfl, head, _, _, [], by simp, tail, rfl, rfl⟩

theorem takes_readFields {fields : List Field}
    (each : ∀ field ∈ fields, ∀ path, Reading.Takes (field.2.read path) field.2.Spells) (path : Path) :
    Reading.Takes (readFields fields path) (SpellsFields fields) := by
  induction fields with
  | nil =>
    rw [readFields_nil]
    refine (Reading.takes_pure []).congr fun used items => ⟨?_, ?_⟩
    · rintro ⟨rfl, rfl⟩
      exact .nil
    · intro spelled
      cases spelled with
      | nil => exact ⟨rfl, rfl⟩
  | cons field fields inductionHypothesis =>
    obtain ⟨name, ty⟩ := field
    have takesFirst := each (name, ty) (by simp) (path.member name)
    have takesRest := inductionHypothesis fun field member => each field (by simp [member])
    rw [readFields_cons]
    refine (takesFirst.bind fun v => takesRest.bind fun members =>
      Reading.takes_pure ((name, v) :: members)).congr fun used members => ⟨?_, ?_⟩
    · rintro ⟨v, first, _, rfl, head, members, rest, _, rfl, tail, rfl, rfl⟩
      rw [List.append_nil]
      exact .cons head tail
    · intro spelled
      cases spelled with
      | cons head tail => exact ⟨_, _, _, rfl, head, _, _, [], by simp, tail, rfl, rfl⟩

/-- Reading a payload takes the payload of the variant at the index, if there is one. -/
theorem takes_readVariant {variants : List Field}
    (each : ∀ variant ∈ variants, ∀ path, Reading.Takes (variant.2.read path) variant.2.Spells)
    (index : Nat) (path : Path) (fault : CodecError) :
    Reading.Takes (readVariant variants index path fault) (fun used v =>
      ∃ name ty payload, variants[index]? = some (name, ty) ∧ Spells ty used payload ∧
        .enum name payload = v) := by
  induction variants generalizing index with
  | nil =>
    intro s v s'
    rw [readVariant_nil]
    simp [show (throw fault : Reading CodecError Value) s = .error fault s from rfl]
  | cons variant variants inductionHypothesis =>
    obtain ⟨name, ty⟩ := variant
    cases index with
    | zero =>
      rw [readVariant_zero]
      refine ((each (name, ty) (by simp) (path.member name)).map (Value.enum name)).congr ?_
      intro used v
      constructor
      · rintro ⟨payload, spelled, rfl⟩
        exact ⟨name, ty, payload, rfl, spelled, rfl⟩
      · rintro ⟨_, _, payload, ⟨⟩, spelled, rfl⟩
        exact ⟨payload, spelled, rfl⟩
    | succ index =>
      rw [readVariant_succ]
      simpa using inductionHypothesis (fun variant member => each variant (by simp [member])) index

/-- Reading a type takes exactly the fronts that spell a value of it, under any path. -/
theorem takes_read (ty : FieldType) : ∀ path, Reading.Takes (ty.read path) ty.Spells := by
  induction ty with
  | scalar kind =>
    intro path
    rw [read_scalar]
    refine ((Reading.takes_word _ kind.width).bind fun n => Reading.takes_pure _).congr
      fun used v => ⟨?_, ?_⟩
    · rintro ⟨n, front, back, rfl, ⟨width, rfl⟩, rfl, rfl⟩
      rw [List.append_nil]
      exact .scalar width
    · intro spelled
      cases spelled with
      | scalar width => exact ⟨_, used, [], by simp, ⟨width, rfl⟩, rfl, rfl⟩
  | text =>
    intro path
    rw [read_text]
    refine ((Reading.takes_text _).map Value.text).congr fun used v => ⟨?_, ?_⟩
    · rintro ⟨s, ⟨header, payload, rfl, width, announced, rfl⟩, rfl⟩
      exact .text width announced
    · intro spelled
      cases spelled with
      | text width announced => exact ⟨_, ⟨_, _, rfl, width, announced, rfl⟩, rfl⟩
  | bytes length =>
    intro path
    rw [read_bytes]
    refine ((Reading.takes_bytes _ length.toNat).map Value.bytes).congr fun used v => ⟨?_, ?_⟩
    · rintro ⟨data, ⟨width, rfl⟩, rfl⟩
      exact .bytes width
    · intro spelled
      cases spelled with
      | bytes width => exact ⟨_, ⟨width, rfl⟩, rfl⟩
  | array element count takesElement =>
    intro path
    rw [read_array]
    refine ((takes_readItems takesElement path 0 count.toNat).map Value.array).congr
      fun used v => ⟨?_, ?_⟩
    · rintro ⟨items, spelled, rfl⟩
      exact .array spelled
    · intro spelled
      cases spelled with
      | array each => exact ⟨_, each, rfl⟩
  | option inner takesInner =>
    intro path
    rw [read_option]
    have takesRest : ∀ presence : UInt8, Reading.Takes
        (if presence = 0 then pure Value.absent else Value.present <$> inner.read path) (fun used v =>
          if presence = 0 then used = [] ∧ v = .absent
          else ∃ w, inner.Spells used w ∧ .present w = v) := by
      intro presence
      by_cases zero : presence = 0
      · simpa [zero] using Reading.takes_pure Value.absent
      · simpa [zero] using (takesInner path).map Value.present
    refine ((Reading.takes_byte _).bind takesRest).congr fun used v => ⟨?_, ?_⟩
    · rintro ⟨presence, _, bytes, rfl, rfl, spelled⟩
      split at spelled
      · obtain ⟨rfl, rfl⟩ := spelled
        rename_i zero
        subst zero
        exact .absent
      · obtain ⟨w, spelled, rfl⟩ := spelled
        exact .present (by assumption) spelled
    · intro spelled
      cases spelled with
      | absent => exact ⟨0, [0], [], rfl, rfl, by simp⟩
      | @present _ presence bytes w announced value =>
        exact ⟨presence, [presence], bytes, rfl, rfl, by simpa [announced] using value⟩
  | struct fields takesFields =>
    intro path
    rw [read_struct]
    refine ((takes_readFields takesFields path).map Value.struct).congr fun used v => ⟨?_, ?_⟩
    · rintro ⟨members, spelled, rfl⟩
      exact .struct spelled
    · intro spelled
      cases spelled with
      | struct each => exact ⟨_, each, rfl⟩
  | enum variants takesVariants =>
    intro path
    rw [read_enum]
    refine ((Reading.takes_byte _).bind fun index =>
      takes_readVariant takesVariants index.toNat path _).congr fun used v => ⟨?_, ?_⟩
    · rintro ⟨index, _, bytes, rfl, rfl, name, ty, payload, chosen, spelled, rfl⟩
      exact .enum chosen spelled
    · intro spelled
      cases spelled with
      | enum chosen value => exact ⟨_, [_], _, rfl, rfl, _, _, _, chosen, value, rfl⟩

/-- Where bytes that spell a value stand at the front, that value is read and they are taken. -/
theorem Spells.read {ty : FieldType} {bytes : List UInt8} {v : Value} (spelled : ty.Spells bytes v)
    (path : Path) (rest : List UInt8) (index : Nat) :
    ty.read path ⟨bytes ++ rest, index⟩ = .ok v ⟨rest, index + bytes.length⟩ :=
  (takes_read ty path _ v _).mpr ⟨bytes, spelled, rfl, rfl⟩

end PackedRecord.FieldType

namespace PackedRecord.Value

/-- Bytes decode to a value exactly if they spell it. -/
theorem decode_eq_ok_iff {ty : FieldType} {bytes : List UInt8} {v : Value} :
    decode ty bytes = .ok v ↔ ty.Spells bytes v := by
  constructor
  · intro decoded
    simp only [decode_eq] at decoded
    split at decoded
    · cases decoded
    · rename_i w s read
      obtain ⟨used, spelled, rest, -⟩ := (ty.takes_read Path.root _ _ _).mp read
      split at decoded
      · rename_i empty
        cases decoded
        rw [List.isEmpty_iff] at empty
        rw [empty, List.append_nil] at rest
        change bytes = used at rest
        exact rest ▸ spelled
      · cases decoded
  · intro spelled
    have read := spelled.read Path.root [] 0
    rw [List.append_nil] at read
    simp only [decode_eq, Source.ofBytes, read]
    rfl

end PackedRecord.Value
