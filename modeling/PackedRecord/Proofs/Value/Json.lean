import PackedRecord.Proofs.Except
import PackedRecord.Proofs.Json.Numbers
import PackedRecord.Proofs.Value.Normal
import PackedRecord.Proofs.Value.RoundTrip
import PackedRecord.Value.Json

/-!
# Values that are described in JSON

`FieldType.Describes` opens one layer of reading a value from JSON, without the path that only names
values in errors.  What is true of all values that were read follows by induction over types.

* `carried_of_reads`: a value that was read has bytes, and these spell it.
* `selfEqual_of_reads`: it is equal to itself, since no number that is read is NaN.
-/

namespace PackedRecord

theorem Scalar.kind_of_ofNumeral? {kind : ScalarKind} {n : Numeral} {s : Scalar}
    (fits : ofNumeral? kind n = some s) : s.kind = kind := by
  cases kind with
  | f32 | f64 =>
    cases fits
    rfl
  | u8 | u16 | u32 | u64 =>
    obtain ⟨word, -, rfl⟩ := Option.map_eq_some_iff.mp fits
    rfl

namespace FieldType

def Reads (ty : FieldType) (raw : Json) (v : Value) : Prop :=
  ∃ path, ty.valueOfJson path raw = .ok v

/-- What a value that was read comes from. -/
inductive Describes : FieldType → Json → Value → Prop where
  | scalar {kind : ScalarKind} {n : Numeral} {s : Scalar} (fits : Scalar.ofNumeral? kind n = some s) :
    Describes (.scalar kind) (.number n) (.scalar s)
  | text {s : String} : Describes .text (.string s) (.text s)
  | bytes {length : UInt64} {items : List Json} {data : List UInt8} (full : items.length = length.toNat)
    (each : items.mapM byteOfJson? = some data) : Describes (.bytes length) (.array items) (.bytes data)
  | array {element : FieldType} {count : UInt64} {items : List Json} {vs : List Value}
    (full : items.length = count.toNat) (each : List.Forall₂ element.Reads items vs) :
    Describes (.array element count) (.array items) (.array vs)
  | absent {inner : FieldType} : Describes (.option inner) .null .absent
  | present {inner : FieldType} {raw : Json} {v : Value} (value : inner.Reads raw v) :
    Describes (.option inner) raw (.present v)
  | struct {fields : List Field} {members : List (String × Json)} {vs : List (String × Value)}
    (each : List.Forall₂ (fun field v => v.1 = field.1 ∧
      field.2.Reads ((members.lookup field.1).getD .null) v.2) fields vs) :
    Describes (.struct fields) (.object members) (.struct vs)
  | enum {before after : List Field} {name : String} {ty : FieldType} {payload : Json} {v : Value}
    (first : ∀ variant ∈ before, variant.1 ≠ name) (value : ty.Reads payload v) :
    Describes (.enum (before ++ (name, ty) :: after)) (.object [(name, payload)]) (.enum name v)

theorem forall₂_of_itemsOfJson {element : FieldType} {path : Path} {i : Nat} {items : List Json}
    {vs : List Value} (read : itemsOfJson element.valueOfJson path i items = .ok vs) :
    List.Forall₂ element.Reads items vs := by
  induction items generalizing i vs with
  | nil =>
    cases read
    exact .nil
  | cons item items inductionHypothesis =>
    obtain ⟨v, head, read⟩ := bind_eq_ok read
    obtain ⟨rest, tail, read⟩ := bind_eq_ok read
    cases read
    exact .cons ⟨_, head⟩ (inductionHypothesis tail)

theorem forall₂_of_membersOfJson {fields : List Field} {path : Path} {members : List (String × Json)}
    {vs : List (String × Value)} (read : membersOfJson fields path members = .ok vs) :
    List.Forall₂ (fun field v => v.1 = field.1 ∧ field.2.Reads ((members.lookup field.1).getD .null) v.2)
      fields vs := by
  induction fields generalizing vs with
  | nil =>
    rw [membersOfJson] at read
    cases read
    exact .nil
  | cons field fields inductionHypothesis =>
    obtain ⟨name, ty⟩ := field
    rw [membersOfJson] at read
    obtain ⟨v, head, read⟩ := bind_eq_ok read
    obtain ⟨rest, tail, read⟩ := bind_eq_ok read
    cases read
    exact .cons ⟨rfl, _, head⟩ (inductionHypothesis tail)

theorem exists_of_variantOfJson {variants : List Field} {path : Path} {name : String} {payload : Json}
    {v : Value} (read : variantOfJson variants path name payload = some (.ok v)) :
    ∃ before ty after inner, variants = before ++ (name, ty) :: after ∧
      (∀ variant ∈ before, variant.1 ≠ name) ∧ ty.Reads payload inner ∧ v = .enum name inner := by
  induction variants with
  | nil =>
    rw [variantOfJson] at read
    cases read
  | cons variant variants inductionHypothesis =>
    obtain ⟨n, ty⟩ := variant
    rw [variantOfJson] at read
    by_cases named : n = name
    · subst named
      rw [if_pos rfl] at read
      obtain ⟨inner, value, rfl⟩ := map_eq_ok (Option.some.inj read)
      exact ⟨[], ty, variants, inner, rfl, by simp, ⟨_, value⟩, rfl⟩
    · rw [if_neg named] at read
      obtain ⟨before, ty', after, inner, rfl, first, value, rfl⟩ := inductionHypothesis read
      refine ⟨(n, ty) :: before, ty', after, inner, rfl, ?_, value, rfl⟩
      exact List.forall_mem_cons.mpr ⟨named, first⟩

theorem describes_of_reads {ty : FieldType} {raw : Json} {v : Value} (read : ty.Reads raw v) :
    ty.Describes raw v := by
  obtain ⟨path, read⟩ := read
  cases ty with
  | scalar kind =>
    cases raw with
    | number n =>
      simp only [valueOfJson] at read
      split at read
      · rename_i s fits
        cases read
        exact .scalar fits
      · cases read
    | _ => simp [valueOfJson] at read
  | text =>
    cases raw with
    | string s =>
      simp only [valueOfJson] at read
      cases read
      exact .text
    | _ => simp [valueOfJson] at read
  | bytes length =>
    cases raw with
    | array items =>
      simp only [valueOfJson] at read
      split at read
      · rename_i full
        split at read
        · rename_i data each
          cases read
          exact .bytes full each
        · cases read
      · cases read
    | _ => simp [valueOfJson] at read
  | array element count =>
    cases raw with
    | array items =>
      simp only [valueOfJson] at read
      split at read
      · rename_i full
        obtain ⟨vs, each, rfl⟩ := map_eq_ok read
        exact .array full (forall₂_of_itemsOfJson each)
      · cases read
    | _ => simp [valueOfJson] at read
  | option inner =>
    by_cases isNull : raw = .null
    · subst isNull
      simp only [valueOfJson] at read
      cases read
      exact .absent
    · rw [valueOfJson] at read
      · obtain ⟨v, value, rfl⟩ := map_eq_ok read
        exact .present ⟨_, value⟩
      · exact isNull
  | struct fields =>
    cases raw with
    | object members =>
      simp only [valueOfJson] at read
      obtain ⟨vs, each, rfl⟩ := map_eq_ok read
      exact .struct (forall₂_of_membersOfJson each)
    | _ => simp [valueOfJson] at read
  | enum variants =>
    simp only [valueOfJson] at read
    split at read
    · rename_i name payload
      cases found : variantOfJson variants path name payload with
      | none =>
        rw [found] at read
        cases read
      | some result =>
        rw [found] at read
        cases read
        obtain ⟨before, ty, after, inner, rfl, first, value, rfl⟩ := exists_of_variantOfJson found
        exact .enum first value
    · cases read

/-! ## Over the wire and back -/

def Carried (ty : FieldType) (v : Value) : Prop :=
  ∃ bytes, ty.wire? v = some bytes ∧ ty.Spells bytes v

/-- The texts of a value can be written, as those of its parts. -/
def ShortLeaf (leaf : Value) : Prop :=
  ∀ s, leaf = .text s → ShortText s

theorem carried_of_wire? {ty : FieldType} {v : Value} {bytes : List UInt8} (written : ty.wire? v = some bytes)
    (kept : ty.normalize v = v) : ty.Carried v := by
  have spelled := ty.spells_normalize v bytes written
  rw [kept] at spelled
  exact ⟨bytes, written, spelled⟩

theorem carried_array {element : FieldType} {count : UInt64} {items : List Value}
    (full : items.length = count.toNat) (each : ∀ item ∈ items, element.Carried item) :
    (array element count).Carried (.array items) := by
  have joined : ∃ bytes, joined? element.wire? items = some bytes ∧
      SpellsItems element items.length bytes items := by
    clear full
    induction items with
    | nil => exact ⟨[], rfl, .nil⟩
    | cons item items inductionHypothesis =>
      obtain ⟨⟨front, written, spelled⟩, others⟩ := List.forall_mem_cons.mp each
      obtain ⟨back, writtenRest, spelledRest⟩ := inductionHypothesis others
      exact ⟨front ++ back, joined?_cons_eq_some_iff.mpr ⟨front, back, written, writtenRest, rfl⟩,
        .cons spelled spelledRest⟩
  obtain ⟨bytes, written, spelled⟩ := joined
  exact ⟨bytes, by simp [wire?_array, full, written], .array (full ▸ spelled)⟩

theorem carried_struct {fields : List Field} (distinct : (fields.map Prod.fst).Nodup)
    {members : List (String × Value)} (short : Value.EveryLeafOf ShortLeaf members)
    (each : List.Forall₂ (fun field v => v.1 = field.1 ∧ (v.2.EveryText ShortText → field.2.Carried v.2))
      fields members) :
    (struct fields).Carried (.struct members) := by
  have joined : ∃ bytes, wireFields? fields (members.lookup ·) = some bytes ∧
      SpellsFields fields bytes members := by
    induction each with
    | nil => exact ⟨[], rfl, .nil⟩
    | @cons field member fields members first others inductionHypothesis =>
      obtain ⟨name, ty⟩ := field
      obtain ⟨name, v⟩ := member
      obtain ⟨rfl, carried⟩ := first
      obtain ⟨fresh, distinct⟩ := List.nodup_cons.mp distinct
      obtain ⟨front, written, spelled⟩ := carried short.1
      obtain ⟨back, writtenRest, spelledRest⟩ := inductionHypothesis distinct short.2
      refine ⟨front ++ back, ?_, .cons spelled spelledRest⟩
      apply wireFields?_cons_eq_some_iff.mpr
      refine ⟨v, front, back, by simp, written, ?_, rfl⟩
      rw [wireFields?_lookup_cons fresh, writtenRest]
  obtain ⟨bytes, written, spelled⟩ := joined
  exact ⟨bytes, by simpa [wire?_struct] using written, .struct spelled⟩

theorem carried_enum {before after : List Field} {name : String} {ty : FieldType} {payload : Value}
    (first : ∀ variant ∈ before, variant.1 ≠ name) (small : (before ++ (name, ty) :: after).length ≤ 256)
    (carried : ty.Carried payload) : (enum (before ++ (name, ty) :: after)).Carried (.enum name payload) := by
  obtain ⟨bytes, written, spelled⟩ := carried
  have counted : before.length ≤ 255 := by
    rw [List.length_append, List.length_cons] at small
    omega
  have number : before.length.toUInt8.toNat = before.length := Utf8.toNat_toUInt8 (by omega)
  have chosen : (before ++ (name, ty) :: after)[before.length.toUInt8.toNat]? = some (name, ty) := by
    simp [number]
  refine ⟨before.length.toUInt8 :: bytes, ?_, .enum chosen spelled⟩
  apply wire?_enum_eq_some_iff.mpr
  exact ⟨name, payload, before, ty, after, bytes, rfl, rfl, first, counted, written, rfl⟩

theorem length_of_mapM {items : List Json} {data : List UInt8} (each : items.mapM byteOfJson? = some data) :
    data.length = items.length := by
  induction items generalizing data with
  | nil =>
    cases each
    rfl
  | cons item items inductionHypothesis =>
    rw [List.mapM_cons] at each
    obtain ⟨b, -, each⟩ := Option.bind_eq_some_iff.mp each
    obtain ⟨rest, others, each⟩ := Option.bind_eq_some_iff.mp each
    cases each
    rw [List.length_cons, List.length_cons, inductionHypothesis others]

theorem carried_of_reads (ty : FieldType) (structs : ty.EveryStruct fun fields => (fields.map Prod.fst).Nodup)
    (enums : ty.EveryEnum fun variants => variants.length ≤ 256) :
    ∀ raw v, ty.Reads raw v → v.EveryText ShortText → ty.Carried v := by
  induction ty with
  | scalar kind =>
    intro raw v read short
    cases describes_of_reads read with
    | @scalar kind n s fits =>
      have written : (scalar kind).wire? (.scalar s) = some s.bytes := by
        simp [wire?_scalar, Scalar.kind_of_ofNumeral? fits]
      exact carried_of_wire? written rfl
  | text =>
    intro raw v read short
    cases describes_of_reads read with
    | @text s =>
      have small : (Utf8.encode s).length ≤ maxTextLength := short s rfl
      have written := wire?_text (.text s)
      simp only [textBytes?, if_pos small] at written
      exact carried_of_wire? written rfl
  | bytes length =>
    intro raw v read short
    cases describes_of_reads read with
    | @bytes length items data full each =>
      have written : (bytes length).wire? (.bytes data) = some data := by
        simp [wire?_bytes, ← full, length_of_mapM each]
      exact carried_of_wire? written rfl
  | array element count inductionHypothesis =>
    intro raw v read short
    cases describes_of_reads read with
    | array full each =>
      apply carried_array (by rw [← each.length_eq, full])
      intro item listed
      obtain ⟨raw, -, value⟩ := exists_left_of_mem each listed
      exact inductionHypothesis structs enums raw item value (Value.everyLeafIn_iff.mp short item listed)
  | option inner inductionHypothesis =>
    intro raw v read short
    cases describes_of_reads read with
    | absent => exact ⟨[0], rfl, .absent⟩
    | present value =>
      obtain ⟨bytes, written, spelled⟩ := inductionHypothesis structs enums raw _ value short
      exact ⟨1 :: bytes, by simp [wire?_option, written], .present (by decide) spelled⟩
  | struct fields inductionHypothesis =>
    intro raw v read short
    cases describes_of_reads read with
    | struct each =>
      apply carried_struct structs.1 short
      refine ((List.forall₂_and_left _ _).mpr ⟨fun field listed => listed, each⟩).imp ?_
      intro field member both
      obtain ⟨listed, named, value⟩ := both
      refine ⟨named, inductionHypothesis field listed (everyStructIn_iff.mp structs.2 field listed)
        (everyEnumIn_iff.mp enums field listed) _ _ value⟩
  | enum variants inductionHypothesis =>
    intro raw v read short
    cases describes_of_reads read with
    | enum first value =>
      rename_i before after name ty payload inner
      have listed : (name, ty) ∈ before ++ (name, ty) :: after := by simp
      apply carried_enum first enums.1
      exact inductionHypothesis (name, ty) listed (everyStructIn_iff.mp structs _ listed)
        (everyEnumIn_iff.mp enums.2 _ listed) _ _ value short

end FieldType

/-! ## Equal to itself -/

/-- A number that is equal to itself, if the leaf is one. -/
def Value.SelfEqual (leaf : Value) : Prop :=
  ∀ s, leaf = scalar s → s.equal s = true

namespace Value

mutual

theorem equal_self : ∀ v : Value, v.EveryLeaf SelfEqual → v.equal v = true
  | scalar s, selfEqual => by simpa [equal] using selfEqual s rfl
  | text _, _ | bytes _, _ | absent, _ => by simp [equal]
  | array items, selfEqual => by simpa [equal] using equalItems_self items selfEqual
  | present inner, selfEqual => by simpa [equal] using equal_self inner selfEqual
  | struct members, selfEqual => by simpa [equal] using equalMembers_self members selfEqual
  | enum _ payload, selfEqual => by simpa [equal] using equal_self payload selfEqual

theorem equalItems_self : ∀ items, EveryLeafIn SelfEqual items → equalItems items items = true
  | [], _ => rfl
  | item :: rest, selfEqual => by
    simp [equalItems, equal_self item selfEqual.1, equalItems_self rest selfEqual.2]

theorem equalMembers_self : ∀ members, EveryLeafOf SelfEqual members → equalMembers members members = true
  | [], _ => rfl
  | (_, v) :: rest, selfEqual => by
    simp [equalMembers, equal_self v selfEqual.1, equalMembers_self rest selfEqual.2]

end

end Value

theorem Scalar.exists_double {n : Numeral} (number : n.NotNan) :
    ∃ word : UInt64, Number.Format.double.NotNan word.toNat ∧
      ofNumeral? .f32 n = some (f32 (Number.narrow word)) ∧ ofNumeral? .f64 n = some (f64 word) := by
  cases n with
  | unsigned n => exact ⟨_, Number.notNan_doubleOfNat _, rfl, rfl⟩
  | negative n => exact ⟨_, Number.notNan_round_double _ _ _, rfl, rfl⟩
  | float word => exact ⟨word, number, rfl, rfl⟩

/-- A JSON number is taken to a number that is equal to itself, also where it is rounded. -/
theorem Scalar.equal_self_of_ofNumeral? {kind : ScalarKind} {n : Numeral} {s : Scalar}
    (fits : ofNumeral? kind n = some s) (number : n.NotNan) : s.equal s = true := by
  obtain ⟨word, double, single, same⟩ := exists_double number
  cases kind with
  | f32 =>
    cases single.symm.trans fits
    exact Number.Format.equal_self (Number.notNan_narrow double)
  | f64 =>
    cases same.symm.trans fits
    exact Number.Format.equal_self double
  | u8 | u16 | u32 | u64 =>
    obtain ⟨word, -, rfl⟩ := Option.map_eq_some_iff.mp fits
    simp [equal, ofWord]

namespace FieldType

/-- Where no JSON number is NaN, no number of the value is. -/
theorem selfEqual_of_reads (ty : FieldType) :
    ∀ raw v, ty.Reads raw v → raw.EveryNumber Numeral.NotNan → v.EveryLeaf Value.SelfEqual := by
  induction ty with
  | scalar kind =>
    intro raw v read numbers
    cases describes_of_reads read with
    | scalar fits =>
      intro s same
      cases same
      exact Scalar.equal_self_of_ofNumeral? fits numbers
  | text =>
    intro raw v read numbers
    cases describes_of_reads read with
    | text => exact fun s impossible => by cases impossible
  | bytes length =>
    intro raw v read numbers
    cases describes_of_reads read with
    | bytes full each => exact fun s impossible => by cases impossible
  | array element count inductionHypothesis =>
    intro raw v read numbers
    cases describes_of_reads read with
    | array full each =>
      apply Value.everyLeafIn_iff.mpr
      intro item listed
      obtain ⟨raw, among, value⟩ := exists_left_of_mem each listed
      exact inductionHypothesis raw item value (Json.everyNumberIn_iff.mp numbers raw among)
  | option inner inductionHypothesis =>
    intro raw v read numbers
    cases describes_of_reads read with
    | absent => exact fun s impossible => by cases impossible
    | @present _ _ v value => exact inductionHypothesis raw v value numbers
  | struct fields inductionHypothesis =>
    intro raw v read numbers
    cases describes_of_reads read with
    | struct each =>
      apply Value.everyLeafOf_iff.mpr
      intro member listed
      obtain ⟨field, among, -, value⟩ := exists_left_of_mem each listed
      apply inductionHypothesis field among _ _ value
      cases found : List.lookup field.1 _ with
      | none => trivial
      | some raw => exact Json.everyNumber_lookup numbers found
  | enum variants inductionHypothesis =>
    intro raw v read numbers
    cases describes_of_reads read with
    | enum first value =>
      rename_i before after name ty payload inner
      exact inductionHypothesis (name, ty) (by simp) payload inner value numbers.1

end FieldType

end PackedRecord
