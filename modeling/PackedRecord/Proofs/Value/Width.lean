import PackedRecord.Proofs.Value.RoundTrip

/-!
# Types of fixed width

A type of fixed width takes the same number of bytes for every value, and any bytes of that number
are a value of it.

* `Spells.length_eq`, `exists_spells`: the two halves of that.
* `length_of_wire?`: a value is written with as many bytes.
* `onlyRunsOut_read`: reading one fails only where the bytes end.
-/

namespace PackedRecord

theorem sized?_eq_some_iff {n size : Nat} : sized? n = some size ↔ n < 2 ^ 64 ∧ n = size := by
  simp [sized?]

namespace FieldType

/-! ## The width of arrays and structs -/

theorem fixedWidth?_array_eq_some {element : FieldType} {count : UInt64} {width : Nat}
    (fixed : (array element count).fixedWidth? = some width) :
    ∃ each, element.fixedWidth? = some each ∧ each * count.toNat = width := by
  simp only [fixedWidth?, Option.bind_eq_bind, Option.bind_eq_some_iff, sized?_eq_some_iff] at fixed
  obtain ⟨each, fixedElement, -, product⟩ := fixed
  exact ⟨each, fixedElement, product⟩

theorem fieldsWidth?_cons_eq_some {name : String} {ty : FieldType} {fields : List Field} {width : Nat}
    (fixed : fieldsWidth? ((name, ty) :: fields) = some width) :
    ∃ first rest, ty.fixedWidth? = some first ∧ fieldsWidth? fields = some rest ∧ first + rest = width := by
  simp only [fieldsWidth?, Option.bind_eq_bind, Option.bind_eq_some_iff, sized?_eq_some_iff] at fixed
  obtain ⟨first, fixedFirst, rest, fixedRest, -, sum⟩ := fixed
  exact ⟨first, rest, fixedFirst, fixedRest, sum⟩

/-! ## Every value takes the width -/

theorem SpellsItems.length_eq {element : FieldType} {each : Nat}
    (width : ∀ bytes v, element.Spells bytes v → bytes.length = each) {count : Nat} {bytes : List UInt8}
    {items : List Value} (spelled : SpellsItems element count bytes items) :
    bytes.length = each * count := by
  induction count generalizing bytes items with
  | zero =>
    cases spelled
    simp
  | succ count inductionHypothesis =>
    cases spelled with
    | cons head tail =>
      rw [List.length_append, width _ _ head, inductionHypothesis tail, Nat.mul_succ, Nat.add_comm]

theorem SpellsFields.length_eq {fields : List Field}
    (each : ∀ field ∈ fields, ∀ width, field.2.fixedWidth? = some width →
      ∀ bytes v, field.2.Spells bytes v → bytes.length = width)
    {width : Nat} (fixed : fieldsWidth? fields = some width) {bytes : List UInt8}
    {members : List (String × Value)} (spelled : SpellsFields fields bytes members) :
    bytes.length = width := by
  induction fields generalizing width bytes members with
  | nil =>
    cases spelled
    simpa [fieldsWidth?] using fixed
  | cons field fields inductionHypothesis =>
    obtain ⟨name, ty⟩ := field
    obtain ⟨first, rest, fixedFirst, fixedRest, rfl⟩ := fieldsWidth?_cons_eq_some fixed
    cases spelled with
    | cons head tail =>
      have widthRest := inductionHypothesis (fun field member => each field (by simp [member])) fixedRest tail
      rw [List.length_append, each (name, ty) (by simp) first fixedFirst _ _ head, widthRest]

/-- The bytes of a value of fixed width are as many as the width says. -/
theorem Spells.length_eq (ty : FieldType) : ∀ width, ty.fixedWidth? = some width →
    ∀ bytes v, ty.Spells bytes v → bytes.length = width := by
  induction ty with
  | scalar kind =>
    rintro width ⟨⟩ bytes v ⟨long⟩
    exact long
  | text =>
    intro width impossible
    cases impossible
  | bytes length =>
    intro width fixed bytes v spelled
    cases fixed
    cases spelled with
    | bytes long => exact long
  | array element count inductionHypothesis =>
    intro width fixed bytes v spelled
    obtain ⟨each, fixedElement, rfl⟩ := fixedWidth?_array_eq_some fixed
    cases spelled with
    | array items => exact items.length_eq (inductionHypothesis each fixedElement)
  | option inner inductionHypothesis =>
    intro width impossible
    cases impossible
  | struct fields inductionHypothesis =>
    intro width fixed bytes v spelled
    cases spelled with
    | struct members => exact members.length_eq inductionHypothesis fixed
  | enum variants inductionHypothesis =>
    intro width impossible
    cases impossible

/-! ## Any bytes of the width are a value -/

theorem exists_spellsItems {element : FieldType} {each : Nat}
    (exists_element : ∀ bytes : List UInt8, bytes.length = each → ∃ v, element.Spells bytes v)
    {count : Nat} {bytes : List UInt8} (long : bytes.length = each * count) :
    ∃ items, SpellsItems element count bytes items := by
  induction count generalizing bytes with
  | zero =>
    rw [Nat.mul_zero, List.length_eq_zero_iff] at long
    exact ⟨[], long ▸ .nil⟩
  | succ count inductionHypothesis =>
    rw [Nat.mul_succ] at long
    have front : (bytes.take each).length = each := by rw [List.length_take]; omega
    have back : (bytes.drop each).length = each * count := by rw [List.length_drop]; omega
    obtain ⟨item, head⟩ := exists_element _ front
    obtain ⟨items, tail⟩ := inductionHypothesis back
    have spelled := SpellsItems.cons head tail
    rw [List.take_append_drop] at spelled
    exact ⟨item :: items, spelled⟩

theorem exists_spellsFields {fields : List Field}
    (each : ∀ field ∈ fields, ∀ width, field.2.fixedWidth? = some width →
      ∀ bytes : List UInt8, bytes.length = width → ∃ v, field.2.Spells bytes v)
    {width : Nat} (fixed : fieldsWidth? fields = some width) {bytes : List UInt8}
    (long : bytes.length = width) : ∃ members, SpellsFields fields bytes members := by
  induction fields generalizing width bytes with
  | nil =>
    simp only [fieldsWidth?, Option.some.injEq] at fixed
    subst fixed
    rw [List.length_eq_zero_iff] at long
    exact ⟨[], long ▸ .nil⟩
  | cons field fields inductionHypothesis =>
    obtain ⟨name, ty⟩ := field
    obtain ⟨first, rest, fixedFirst, fixedRest, rfl⟩ := fieldsWidth?_cons_eq_some fixed
    have front : (bytes.take first).length = first := by rw [List.length_take]; omega
    have back : (bytes.drop first).length = rest := by rw [List.length_drop]; omega
    obtain ⟨v, head⟩ := each (name, ty) (by simp) first fixedFirst _ front
    obtain ⟨members, tail⟩ := inductionHypothesis (fun field member => each field (by simp [member]))
      fixedRest back
    have spelled : SpellsFields ((name, ty) :: fields) _ ((name, v) :: members) := .cons head tail
    rw [List.take_append_drop] at spelled
    exact ⟨(name, v) :: members, spelled⟩

theorem exists_spells (ty : FieldType) : ∀ width, ty.fixedWidth? = some width →
    ∀ bytes : List UInt8, bytes.length = width → ∃ v, ty.Spells bytes v := by
  induction ty with
  | scalar kind =>
    rintro width ⟨⟩ bytes long
    exact ⟨_, .scalar long⟩
  | text =>
    intro width impossible
    cases impossible
  | bytes length =>
    rintro width ⟨⟩ bytes long
    exact ⟨_, .bytes long⟩
  | array element count inductionHypothesis =>
    intro width fixed bytes long
    obtain ⟨each, fixedElement, rfl⟩ := fixedWidth?_array_eq_some fixed
    obtain ⟨items, spelled⟩ := exists_spellsItems (inductionHypothesis each fixedElement) long
    exact ⟨_, .array spelled⟩
  | option inner inductionHypothesis =>
    intro width impossible
    cases impossible
  | struct fields inductionHypothesis =>
    intro width fixed bytes long
    obtain ⟨members, spelled⟩ := exists_spellsFields inductionHypothesis fixed long
    exact ⟨_, .struct spelled⟩
  | enum variants inductionHypothesis =>
    intro width impossible
    cases impossible

theorem length_of_wire? {ty : FieldType} {width : Nat} (fixed : ty.fixedWidth? = some width) {v : Value}
    {bytes : List UInt8} (written : ty.wire? v = some bytes) : bytes.length = width :=
  Spells.length_eq ty width fixed bytes _ (ty.spells_normalize v bytes written)

end FieldType

/-! ## Running out of bytes -/

/-- The only fault of a reading is that the bytes end. -/
def Reading.OnlyRunsOut {α : Type} (reading : Reading CodecError α) : Prop :=
  ∀ s fault s', reading s = .error fault s' → ∃ path, fault = .unexpectedEnd path

namespace Reading

variable {α β : Type}

theorem onlyRunsOut_pure (a : α) : OnlyRunsOut (pure a : Reading CodecError α) := by
  intro s fault s' failed
  cases failed

theorem OnlyRunsOut.bind {reading : Reading CodecError α} {next : α → Reading CodecError β}
    (first : OnlyRunsOut reading) (second : ∀ a, OnlyRunsOut (next a)) : OnlyRunsOut (reading >>= next) := by
  intro s fault s' failed
  simp only [Bind.bind, EStateM.bind] at failed
  cases read : reading s with
  | ok a mid =>
    rw [read] at failed
    exact second a mid fault s' failed
  | error fault' mid =>
    rw [read] at failed
    cases failed
    exact first s fault s' read

theorem OnlyRunsOut.map {reading : Reading CodecError α} (f : α → β) (only : OnlyRunsOut reading) :
    OnlyRunsOut (f <$> reading) := by
  intro s fault s' failed
  simp only [Functor.map, EStateM.map] at failed
  cases read : reading s with
  | ok a mid =>
    rw [read] at failed
    cases failed
  | error fault' mid =>
    rw [read] at failed
    cases failed
    exact only s fault s' read

theorem onlyRunsOut_bytes (path : Path) (n : Nat) : OnlyRunsOut (bytes (.unexpectedEnd path) n) := by
  intro s fault s' failed
  simp only [bytes] at failed
  split at failed
  · cases failed
  · cases failed
    exact ⟨path, rfl⟩

theorem onlyRunsOut_byte (path : Path) : OnlyRunsOut (byte (.unexpectedEnd path)) := by
  intro s fault s' failed
  simp only [byte] at failed
  split at failed
  · cases failed
    exact ⟨path, rfl⟩
  · cases failed

theorem onlyRunsOut_text (path : Path) : OnlyRunsOut (text (.unexpectedEnd path)) :=
  ((onlyRunsOut_bytes path 4).map ofLittleEndian).bind fun length =>
    (onlyRunsOut_bytes path length).bind fun payload => onlyRunsOut_pure (Utf8.decodeLossy payload)

end Reading

namespace FieldType

theorem onlyRunsOut_readItems {element : FieldType} (each : ∀ path, (element.read path).OnlyRunsOut)
    (path : Path) (i count : Nat) : (readItems element.read path i count).OnlyRunsOut := by
  induction count generalizing i with
  | zero => exact Reading.onlyRunsOut_pure []
  | succ count inductionHypothesis =>
    exact (each (path.element i)).bind fun item =>
      (inductionHypothesis (i + 1)).bind fun items => Reading.onlyRunsOut_pure (item :: items)

theorem onlyRunsOut_readFields {fields : List Field}
    (each : ∀ field ∈ fields, ∀ width, field.2.fixedWidth? = some width →
      ∀ path, (field.2.read path).OnlyRunsOut)
    {width : Nat} (fixed : fieldsWidth? fields = some width) (path : Path) :
    (readFields fields path).OnlyRunsOut := by
  induction fields generalizing width with
  | nil =>
    rw [readFields_nil]
    exact Reading.onlyRunsOut_pure []
  | cons field fields inductionHypothesis =>
    obtain ⟨name, ty⟩ := field
    obtain ⟨first, rest, fixedFirst, fixedRest, rfl⟩ := fieldsWidth?_cons_eq_some fixed
    have others := inductionHypothesis (fun field member => each field (by simp [member])) fixedRest
    rw [readFields_cons]
    exact (each (name, ty) (by simp) first fixedFirst (path.member name)).bind fun v =>
      others.bind fun members => Reading.onlyRunsOut_pure ((name, v) :: members)

/-- A type of fixed width has no enum in it, so reading it can only run out of bytes. -/
theorem onlyRunsOut_read (ty : FieldType) : ∀ width, ty.fixedWidth? = some width →
    ∀ path, (ty.read path).OnlyRunsOut := by
  induction ty with
  | scalar kind =>
    intro width fixed path
    rw [read_scalar]
    exact ((Reading.onlyRunsOut_bytes path kind.width).map ofLittleEndian).bind fun n =>
      Reading.onlyRunsOut_pure _
  | text =>
    intro width impossible
    cases impossible
  | bytes length =>
    intro width fixed path
    rw [read_bytes]
    exact (Reading.onlyRunsOut_bytes path length.toNat).map Value.bytes
  | array element count inductionHypothesis =>
    intro width fixed path
    obtain ⟨each, fixedElement, -⟩ := fixedWidth?_array_eq_some fixed
    rw [read_array]
    exact (onlyRunsOut_readItems (inductionHypothesis each fixedElement) path 0 count.toNat).map Value.array
  | option inner inductionHypothesis =>
    intro width impossible
    cases impossible
  | struct fields inductionHypothesis =>
    intro width fixed path
    rw [read_struct]
    exact (onlyRunsOut_readFields inductionHypothesis fixed path).map Value.struct
  | enum variants inductionHypothesis =>
    intro width impossible
    cases impossible

end FieldType

end PackedRecord
