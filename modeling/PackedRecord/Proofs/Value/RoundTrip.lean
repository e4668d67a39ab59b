import Mathlib.Algebra.Group.Nat.Defs
import PackedRecord.Proofs.Text.Utf8
import PackedRecord.Proofs.Value.Encoding
import PackedRecord.Proofs.Value.Wire

/-!
# Reading undoes writing

Writing looks the members of a struct up by name and the variants of an enum by theirs, while
reading goes by position.  So what comes back is the value as the type sees it, `normalize`: the
members that the type has fields for, in the order of the type.

* `spells_normalize`: the bytes of a value spell it as the type sees it.
* `decode_encode`: decoding what was encoded gives the value as the type sees it, and the value
  itself if its structs list exactly the fields of their types.
-/

namespace PackedRecord

/-! ## Numbers -/

/-- Reading back gives the number, reduced to what the bytes can hold. -/
theorem ofLittleEndian_littleEndian (width n : Nat) :
    ofLittleEndian (littleEndian width n) = n % 256 ^ width := by
  induction width generalizing n with
  | zero => simp [littleEndian, ofLittleEndian, Nat.mod_one]
  | succ width ih =>
    have low : ((n % 256).toUInt8).toNat = n % 256 := by
      simp [Nat.toUInt8, UInt8.toNat_ofNat']
    simp only [littleEndian, ofLittleEndian, low, ih]
    rw [Nat.pow_succ, Nat.mul_comm (256 ^ width) 256, Nat.mod_mul]

theorem ofLittleEndian_lt (bytes : List UInt8) : ofLittleEndian bytes < 256 ^ bytes.length := by
  induction bytes with
  | nil => exact Nat.one_pos
  | cons b bytes inductionHypothesis =>
    have small := b.toNat_lt
    rw [ofLittleEndian, List.length_cons, Nat.pow_succ]
    omega

/-- Bytes are written back as they were read. -/
theorem littleEndian_ofLittleEndian (bytes : List UInt8) :
    littleEndian bytes.length (ofLittleEndian bytes) = bytes := by
  induction bytes with
  | nil => rfl
  | cons b bytes inductionHypothesis =>
    have small := b.toNat_lt
    have low : (b.toNat + 256 * ofLittleEndian bytes) % 256 = b.toNat := by omega
    have high : (b.toNat + 256 * ofLittleEndian bytes) / 256 = ofLittleEndian bytes := by omega
    rw [ofLittleEndian, List.length_cons, littleEndian, low, high, inductionHypothesis]
    simp

theorem Scalar.word_lt (s : Scalar) : s.word < 256 ^ s.kind.width := by
  cases s with
  | u8 n => exact n.toNat_lt
  | u16 n => exact n.toNat_lt
  | u32 n => exact n.toNat_lt
  | u64 n => exact n.toNat_lt
  | f32 word => exact word.toNat_lt
  | f64 word => exact word.toNat_lt

theorem Scalar.ofWord_word (s : Scalar) : Scalar.ofWord s.kind s.word = s := by
  cases s <;> simp [Scalar.ofWord, Scalar.kind, Scalar.word]

/-- A number is read back from its bytes, with every bit of a float. -/
theorem Scalar.ofWord_bytes (s : Scalar) : Scalar.ofWord s.kind (ofLittleEndian s.bytes) = s := by
  rw [Scalar.bytes, ofLittleEndian_littleEndian, Nat.mod_eq_of_lt s.word_lt, s.ofWord_word]

theorem Scalar.kind_ofWord (kind : ScalarKind) (n : Nat) : (Scalar.ofWord kind n).kind = kind := by
  cases kind <;> rfl

theorem Scalar.word_ofWord {kind : ScalarKind} {n : Nat} (small : n < 256 ^ kind.width) :
    (Scalar.ofWord kind n).word = n := by
  cases kind <;> simp [ScalarKind.width, Scalar.ofWord, Scalar.word] at small ⊢ <;> omega

/-- A number is written as the bytes that it was read from. -/
theorem Scalar.bytes_ofWord {kind : ScalarKind} {bytes : List UInt8} (width : bytes.length = kind.width) :
    (Scalar.ofWord kind (ofLittleEndian bytes)).bytes = bytes := by
  have small : ofLittleEndian bytes < 256 ^ kind.width := by
    rw [← width]
    exact ofLittleEndian_lt bytes
  rw [Scalar.bytes, Scalar.kind_ofWord, Scalar.word_ofWord small, ← width, littleEndian_ofLittleEndian]

namespace FieldType

/-! ## A value as its type sees it -/

mutual

/-- The value as a type sees it: every struct has the fields of its type, in order, each with the
first member of that name, and an enum's payload is that of the first variant of its name. -/
def normalize (ty : FieldType) (v : Value) : Value :=
  match ty with
  | array element _ =>
    match v with
    | .array items => .array (items.map element.normalize)
    | v => v
  | option inner =>
    match v with
    | .present v => .present (inner.normalize v)
    | v => v
  | struct fields =>
    match v with
    | .struct members => .struct (normalizeFields fields members)
    | v => v
  | enum variants =>
    match v with
    | .enum name payload => .enum name (normalizePayload variants name payload)
    | v => v
  | _ => v

/-- The members that there are fields for, in the order of the fields. -/
def normalizeFields (fields : List Field) (members : List (String × Value)) : List (String × Value) :=
  match fields with
  | [] => []
  | (name, ty) :: rest =>
    match members.lookup name with
    | some v => (name, ty.normalize v) :: normalizeFields rest members
    | none => normalizeFields rest members

/-- The payload as the first variant of a name sees it. -/
def normalizePayload (variants : List Field) (name : String) (payload : Value) : Value :=
  match variants with
  | [] => payload
  | (n, ty) :: rest => if n = name then ty.normalize payload else normalizePayload rest name payload

end

mutual

/-- Every struct in the value lists exactly the fields of its type, in order, under distinct
names. -/
def Aligned (ty : FieldType) (v : Value) : Prop :=
  match ty with
  | array element _ =>
    match v with
    | .array items => ∀ item ∈ items, element.Aligned item
    | _ => True
  | option inner =>
    match v with
    | .present v => inner.Aligned v
    | _ => True
  | struct fields =>
    match v with
    | .struct members => (fields.map Prod.fst).Nodup ∧ AlignedFields fields members
    | _ => True
  | enum variants =>
    match v with
    | .enum name payload => AlignedPayload variants name payload
    | _ => True
  | _ => True

def AlignedFields (fields : List Field) (members : List (String × Value)) : Prop :=
  match fields with
  | [] => members = []
  | (name, ty) :: rest =>
    match members with
    | [] => False
    | (n, v) :: others => n = name ∧ ty.Aligned v ∧ AlignedFields rest others

def AlignedPayload (variants : List Field) (name : String) (payload : Value) : Prop :=
  match variants with
  | [] => True
  | (n, ty) :: rest => if n = name then ty.Aligned payload else AlignedPayload rest name payload

end

/-! ## The bytes of a value spell it -/

theorem spellsItems_normalize {element : FieldType}
    (each : ∀ v bytes, element.wire? v = some bytes → element.Spells bytes (element.normalize v))
    {items : List Value} {bytes : List UInt8} (written : joined? element.wire? items = some bytes) :
    SpellsItems element items.length bytes (items.map element.normalize) := by
  induction items generalizing bytes with
  | nil =>
    cases written
    exact .nil
  | cons item items inductionHypothesis =>
    obtain ⟨first, rest, head, tail, rfl⟩ := joined?_cons_eq_some_iff.mp written
    exact .cons (each item first head) (inductionHypothesis tail)

theorem spellsFields_normalize {fields : List Field} {members : List (String × Value)}
    (each : ∀ field ∈ fields, ∀ v bytes, field.2.wire? v = some bytes →
      field.2.Spells bytes (field.2.normalize v))
    {bytes : List UInt8} (written : wireFields? fields (members.lookup ·) = some bytes) :
    SpellsFields fields bytes (normalizeFields fields members) := by
  induction fields generalizing bytes with
  | nil =>
    cases written
    rw [normalizeFields]
    exact .nil
  | cons field fields inductionHypothesis =>
    obtain ⟨name, ty⟩ := field
    obtain ⟨v, first, rest, member, head, tail, rfl⟩ := wireFields?_cons_eq_some_iff.mp written
    rw [normalizeFields, member]
    refine .cons (each (name, ty) (by simp) v first head) (inductionHypothesis ?_ tail)
    exact fun field isField => each field (by simp [isField])

theorem normalizePayload_eq {before after : List Field} {name : String} {ty : FieldType}
    (fresh : ∀ variant ∈ before, variant.1 ≠ name) (payload : Value) :
    normalizePayload (before ++ (name, ty) :: after) name payload = ty.normalize payload := by
  induction before with
  | nil => simp [normalizePayload]
  | cons variant before inductionHypothesis =>
    rw [List.cons_append, normalizePayload, if_neg (fresh variant (by simp))]
    exact inductionHypothesis fun variant member => fresh variant (by simp [member])

/-- The bytes of a value spell it as the type sees it. -/
theorem spells_normalize (ty : FieldType) :
    ∀ v bytes, ty.wire? v = some bytes → ty.Spells bytes (ty.normalize v) := by
  induction ty with
  | scalar kind =>
    intro v bytes written
    rw [wire?_scalar] at written
    split at written
    · rename_i s
      split at written
      · rename_i sameKind
        cases written
        subst sameKind
        have spelled : (FieldType.scalar s.kind).Spells s.bytes _ := .scalar (length_littleEndian _ _)
        rw [s.ofWord_bytes] at spelled
        exact spelled
      · cases written
    · cases written
  | text =>
    intro v bytes written
    rw [wire?_text] at written
    split at written
    · rename_i s
      simp only [textBytes?] at written
      split at written
      · rename_i short
        cases written
        have announced : (Utf8.encode s).length = ofLittleEndian (littleEndian 4 (Utf8.encode s).length) := by
          rw [ofLittleEndian_littleEndian, Nat.mod_eq_of_lt]
          simp only [maxTextLength] at short
          omega
        have spelled := Spells.text (length_littleEndian 4 _) announced
        rw [Utf8.decodeLossy_encode] at spelled
        exact spelled
      · cases written
    · cases written
  | bytes length =>
    intro v bytes written
    rw [wire?_bytes] at written
    split at written
    · split at written
      · cases written
        exact .bytes (by assumption)
      · cases written
    · cases written
  | array element count each =>
    intro v bytes written
    rw [wire?_array] at written
    split at written
    · split at written
      · rename_i items full
        have spelled := spellsItems_normalize each written
        rw [full] at spelled
        exact .array spelled
      · cases written
    · cases written
  | option inner each =>
    intro v bytes written
    rw [wire?_option] at written
    split at written
    · cases written
      exact .absent
    · rename_i v
      obtain ⟨rest, piece, rfl⟩ := Option.map_eq_some_iff.mp written
      exact .present (by decide) (each v rest piece)
    · cases written
  | struct fields each =>
    intro v bytes written
    rw [wire?_struct] at written
    split at written
    · exact .struct (spellsFields_normalize each written)
    · cases written
  | enum variants each =>
    intro v bytes written
    obtain ⟨name, payload, before, ty, after, rest, rfl, rfl, fresh, small, piece, rfl⟩ :=
      wire?_enum_eq_some_iff.mp written
    rw [normalize, normalizePayload_eq fresh]
    have number : before.length.toUInt8.toNat = before.length := Utf8.toNat_toUInt8 (by omega)
    have chosen : (before ++ (name, ty) :: after)[before.length.toUInt8.toNat]? = some (name, ty) := by
      simp [number]
    exact .enum chosen (each (name, ty) (by simp) payload rest piece)

/-! ## Values that their type sees as they are -/

/-- Members that are the fields one by one are kept, whatever other members stand before them. -/
theorem normalizeFields_of_aligned {fields : List Field}
    (each : ∀ field ∈ fields, ∀ v, field.2.Aligned v → field.2.normalize v = v)
    (before : List (String × Value)) {members : List (String × Value)}
    (distinct : (fields.map Prod.fst).Nodup) (fresh : ∀ field ∈ fields, before.lookup field.1 = none)
    (aligned : AlignedFields fields members) :
    normalizeFields fields (before ++ members) = members := by
  induction fields generalizing before members with
  | nil =>
    rw [AlignedFields] at aligned
    rw [normalizeFields, aligned]
  | cons field fields inductionHypothesis =>
    obtain ⟨name, ty⟩ := field
    cases members with
    | nil => exact aligned.elim
    | cons member members =>
      obtain ⟨n, v⟩ := member
      rw [AlignedFields] at aligned
      obtain ⟨rfl, alignedFirst, alignedRest⟩ := aligned
      rw [List.map_cons, List.nodup_cons] at distinct
      -- The members already passed stay in front and hide nothing, since no later field has their names.
      have first : (before ++ (n, v) :: members).lookup n = some v := by
        rw [List.lookup_append, fresh (n, ty) (by simp)]
        simp
      have rest : normalizeFields fields ((before ++ [(n, v)]) ++ members) = members := by
        refine inductionHypothesis (fun field member => each field (by simp [member])) _ distinct.2 ?_
          alignedRest
        intro field member
        have other : field.1 ≠ n := by
          intro same
          exact distinct.1 (List.mem_map.mpr ⟨field, member, same⟩)
        rw [List.lookup_append, fresh field (by simp [member])]
        simp [List.lookup_cons, beq_false_of_ne other]
      rw [normalizeFields, first]
      rw [List.append_assoc, List.singleton_append] at rest
      simp only [rest, each (n, ty) (by simp) v alignedFirst]

/-- A payload that is aligned with the first variant of its name is kept. -/
theorem normalizePayload_of_aligned {variants : List Field}
    (each : ∀ variant ∈ variants, ∀ v, variant.2.Aligned v → variant.2.normalize v = v)
    {name : String} {payload : Value} (aligned : AlignedPayload variants name payload) :
    normalizePayload variants name payload = payload := by
  induction variants with
  | nil => rw [normalizePayload]
  | cons variant variants inductionHypothesis =>
    obtain ⟨n, ty⟩ := variant
    rw [AlignedPayload] at aligned
    rw [normalizePayload]
    split
    · rw [if_pos (by assumption)] at aligned
      exact each (n, ty) (by simp) payload aligned
    · rw [if_neg (by assumption)] at aligned
      exact inductionHypothesis (fun variant member => each variant (by simp [member])) aligned

/-- A type sees a value as it is if the structs in it list exactly the fields of their types. -/
theorem normalize_of_aligned (ty : FieldType) : ∀ v, ty.Aligned v → ty.normalize v = v := by
  induction ty with
  | scalar kind => exact fun v _ => rfl
  | text => exact fun v _ => rfl
  | bytes length => exact fun v _ => rfl
  | array element count each =>
    intro v aligned
    cases v with
    | array items =>
      rw [Aligned] at aligned
      rw [normalize, List.map_congr_left fun item member => each item (aligned item member), List.map_id']
    | _ => rfl
  | option inner each =>
    intro v aligned
    cases v with
    | present v =>
      rw [Aligned] at aligned
      rw [normalize, each v aligned]
    | _ => rfl
  | struct fields each =>
    intro v aligned
    cases v with
    | struct members =>
      rw [Aligned] at aligned
      have kept := normalizeFields_of_aligned each [] aligned.1 (fun _ _ => rfl) aligned.2
      rw [List.nil_append] at kept
      rw [normalize, kept]
    | _ => rfl
  | enum variants each =>
    intro v aligned
    cases v with
    | enum name payload =>
      rw [Aligned] at aligned
      rw [normalize, normalizePayload_of_aligned each aligned]
    | _ => rfl

end FieldType

/-! ## Decoding undoes encoding -/

/-- Decoding what was encoded gives the value as the type sees it, and the value itself, bit for
bit, if every struct in it lists exactly the fields of its type, in order, under distinct names. -/
theorem decode_encode {ty : FieldType} {v : Value} {bytes : List UInt8} (encoded : v.encode ty = .ok bytes) :
    Value.decode ty bytes = .ok (ty.normalize v) ∧ (ty.Aligned v → Value.decode ty bytes = .ok v) := by
  have decoded : Value.decode ty bytes = .ok (ty.normalize v) :=
    Value.decode_eq_ok_iff.mpr (ty.spells_normalize v bytes (Value.encode_eq_ok_iff.mp encoded))
  refine ⟨decoded, fun aligned => ?_⟩
  rw [decoded, ty.normalize_of_aligned v aligned]

/-- A record whose members come in another order and with one to spare. -/
theorem decode_encode_reordered :
    let ty : FieldType :=
      .struct [("id", .scalar .u16), ("state", .enum [("off", .text), ("on", .scalar .f32)])]
    let v : Value := .struct [("state", .enum "on" (.scalar (.f32 0x7FC00001))), ("id", .scalar (.u16 258)),
      ("id", .absent)]
    v.encode ty = .ok [2, 1, 1, 1, 0, 0xC0, 0x7F] ∧ Value.decode ty [2, 1, 1, 1, 0, 0xC0, 0x7F] =
      .ok (.struct [("id", .scalar (.u16 258)), ("state", .enum "on" (.scalar (.f32 0x7FC00001)))]) := by
  intro ty v
  have encoded : v.encode ty = .ok [2, 1, 1, 1, 0, 0xC0, 0x7F] := rfl
  exact ⟨encoded, (decode_encode encoded).1⟩

end PackedRecord
