import PackedRecord.Proofs.Schema.Induction
import PackedRecord.Value.Encode

/-!
# The bytes of a value

Writing takes a path along, which only names values in errors, and keeps what was written before a
fault.  `FieldType.wire?` forgets both: it is the bytes of a value, if it has any as this type.

* `whole?_write`: the bytes do not depend on the path.
* `encode_eq_ok_iff`: a value encodes exactly to its bytes.
* `wire?_scalar` and its siblings say what the bytes are, type by type.
-/

namespace PackedRecord

/-! ## Outputs that ran to their end -/

namespace Output

variable {ε : Type}

def whole? (o : Output ε) : Option (List UInt8) :=
  match o.fault with
  | none => some o.bytes
  | some _ => none

@[simp]
theorem whole?_fail (fault : ε) : (fail fault : Output ε).whole? = none := rfl

@[simp]
theorem whole?_ofBytes (bytes : List UInt8) : (ofBytes bytes : Output ε).whole? = some bytes := rfl

@[simp]
theorem whole?_append (first second : Output ε) :
    (first ++ second).whole? = first.whole?.bind fun front => second.whole?.map (front ++ ·) := by
  change (append first second).whole? = _
  obtain ⟨front, fault⟩ := first
  obtain ⟨back, fault'⟩ := second
  cases fault <;> cases fault' <;> rfl

theorem whole?_getD_fail (o : Option (Output ε)) (fault : ε) :
    (o.getD (fail fault)).whole? = o.bind whole? := by
  cases o <;> rfl

theorem complete_eq_ok_iff {o : Output ε} {bytes : List UInt8} :
    o.complete = .ok bytes ↔ o.whole? = some bytes := by
  obtain ⟨front, fault⟩ := o
  cases fault <;> simp [complete, whole?]

end Output

namespace FieldType

/-- The bytes of a value as a type, if it has any. -/
def wire? (ty : FieldType) (v : Value) : Option (List UInt8) :=
  (ty.write Path.root v).whole?

def joined? {α : Type} (piece? : α → Option (List UInt8)) : List α → Option (List UInt8)
  | [] => some []
  | a :: rest => (piece? a).bind fun front => (joined? piece? rest).map (front ++ ·)

/-- The bytes of the fields of a struct, whose members are found by name. -/
def wireFields? (fields : List Field) (find : String → Option Value) : Option (List UInt8) :=
  joined? (fun field => (find field.1).bind field.2.wire?) fields

theorem joined?_cons_eq_some_iff {α : Type} {piece? : α → Option (List UInt8)} {a : α} {rest : List α}
    {bytes : List UInt8} :
    joined? piece? (a :: rest) = some bytes ↔
      ∃ front back, piece? a = some front ∧ joined? piece? rest = some back ∧ bytes = front ++ back := by
  simp only [joined?, Option.bind_eq_some_iff, Option.map_eq_some_iff]
  grind

theorem wireFields?_cons_eq_some_iff {name : String} {ty : FieldType} {fields : List Field}
    {find : String → Option Value} {bytes : List UInt8} :
    wireFields? ((name, ty) :: fields) find = some bytes ↔
      ∃ v front back, find name = some v ∧ ty.wire? v = some front ∧
        wireFields? fields find = some back ∧ bytes = front ++ back := by
  rw [wireFields?, joined?_cons_eq_some_iff]
  simp only [Option.bind_eq_some_iff]
  exact ⟨fun ⟨front, back, ⟨v, found, head⟩, tail⟩ => ⟨v, front, back, found, head, tail⟩,
    fun ⟨v, front, back, found, head, tail⟩ => ⟨front, back, ⟨v, found, head⟩, tail⟩⟩

/-- Only the members that are looked up have an influence. -/
theorem wireFields?_congr {fields : List Field} {find find' : String → Option Value}
    (same : ∀ field ∈ fields, find field.1 = find' field.1) :
    wireFields? fields find = wireFields? fields find' := by
  induction fields with
  | nil => rfl
  | cons field fields inductionHypothesis =>
    have rest := inductionHypothesis fun field listed => same field (List.mem_cons_of_mem _ listed)
    rw [wireFields?] at rest ⊢
    rw [wireFields?, joined?, joined?, same field List.mem_cons_self, rest, wireFields?]

/-- A member hides no other one if no field has its name. -/
theorem wireFields?_lookup_cons {fields : List Field} {name : String} (fresh : name ∉ fields.map Prod.fst)
    (v : Value) (members : List (String × Value)) :
    wireFields? fields (((name, v) :: members).lookup ·) = wireFields? fields (members.lookup ·) := by
  apply wireFields?_congr
  intro field listed
  have different : field.1 ≠ name := by
    intro equal
    exact fresh (List.mem_map.mpr ⟨field, listed, equal⟩)
  simp [List.lookup_cons, beq_false_of_ne different]

/-! ## The path has no influence on the bytes -/

theorem whole?_writeItems {element : FieldType}
    (each : ∀ path v, (element.write path v).whole? = element.wire? v) (path : Path) (i : Nat)
    (items : List Value) :
    (writeItems element.write path i items).whole? = joined? element.wire? items := by
  induction items generalizing i with
  | nil => rfl
  | cons item items inductionHypothesis =>
    simp only [writeItems, Output.whole?_append, each, inductionHypothesis, joined?]

theorem whole?_writeFields {fields : List Field}
    (each : ∀ field ∈ fields, ∀ path v, (field.2.write path v).whole? = field.2.wire? v)
    (path : Path) (members : List (String × Value)) :
    (writeFields fields path members).whole? = wireFields? fields (members.lookup ·) := by
  induction fields with
  | nil => rfl
  | cons field fields inductionHypothesis =>
    obtain ⟨name, ty⟩ := field
    have first := each (name, ty) (by simp) (path.member name)
    have rest := inductionHypothesis fun field member => each field (by simp [member])
    rw [writeFields]
    simp only [wireFields?, joined?] at rest ⊢
    cases members.lookup name with
    | none => rfl
    | some v => simp only [Output.whole?_append, first, rest, Option.bind_some]

/-- A variant is written if it is the first of its name and its number fits a byte. -/
theorem writeVariant_whole?_eq_some_iff {variants : List Field}
    (each : ∀ variant ∈ variants, ∀ path v, (variant.2.write path v).whole? = variant.2.wire? v)
    (index : Nat) (path : Path) (name : String) (payload : Value) (bytes : List UInt8) :
    (writeVariant variants index path name payload).bind Output.whole? = some bytes ↔
      ∃ before ty after rest, variants = before ++ (name, ty) :: after ∧
        (∀ variant ∈ before, variant.1 ≠ name) ∧ index + before.length ≤ 255 ∧
        ty.wire? payload = some rest ∧ bytes = (index + before.length).toUInt8 :: rest := by
  induction variants generalizing index with
  | nil => simp [writeVariant]
  | cons variant variants inductionHypothesis =>
    obtain ⟨n, ty⟩ := variant
    have first := each (n, ty) (by simp)
    have others := inductionHypothesis (fun variant member => each variant (by simp [member])) (index + 1)
    rw [writeVariant]
    by_cases named : n = name
    · subst named
      rw [if_pos rfl]
      constructor
      · intro written
        split at written
        · simp only [Option.bind_some, Output.whole?_append, Output.whole?_ofBytes, first,
            Option.map_eq_some_iff] at written
          obtain ⟨rest, wire, rfl⟩ := written
          exact ⟨[], ty, variants, rest, rfl, by simp, by simpa, wire, by simp⟩
        · cases written
      · rintro ⟨before, ty', after, rest, split, fresh, small, wire, rfl⟩
        cases before with
        | nil =>
          simp only [List.nil_append, List.cons.injEq, Prod.mk.injEq, true_and] at split
          obtain ⟨rfl, rfl⟩ := split
          simp only [List.length_nil, Nat.add_zero] at small ⊢
          simp [small, first, wire]
        | cons head before =>
          simp only [List.cons_append, List.cons.injEq] at split
          exact absurd (congrArg Prod.fst split.1.symm) (fresh head (by simp))
    · rw [if_neg named, others]
      constructor
      · rintro ⟨before, ty', after, rest, rfl, fresh, small, wire, rfl⟩
        refine ⟨(n, ty) :: before, ty', after, rest, rfl, ?_, ?_, wire, ?_⟩
        · intro variant member
          rcases List.mem_cons.mp member with rfl | member
          · exact named
          · exact fresh variant member
        · rw [List.length_cons]; omega
        · rw [List.length_cons, show index + 1 + before.length = index + (before.length + 1) by omega]
      · rintro ⟨before, ty', after, rest, split, fresh, small, wire, rfl⟩
        cases before with
        | nil =>
          simp only [List.nil_append, List.cons.injEq, Prod.mk.injEq] at split
          exact absurd split.1.1 named
        | cons head before =>
          simp only [List.cons_append, List.cons.injEq] at split
          obtain ⟨rfl, rfl⟩ := split
          rw [List.length_cons] at small ⊢
          refine ⟨before, ty', after, rest, rfl, ?_, by omega, wire, ?_⟩
          · exact fun variant member => fresh variant (by simp [member])
          · rw [show index + 1 + before.length = index + (before.length + 1) by omega]

/-- What a value is written as does not depend on the path that names it in errors. -/
theorem whole?_write (ty : FieldType) : ∀ path v, (ty.write path v).whole? = ty.wire? v := by
  induction ty with
  | scalar kind =>
    intro path v
    cases v <;> simp only [wire?, write, Output.whole?_fail]
    split <;> rfl
  | text =>
    intro path v
    cases v <;> simp only [wire?, write, Output.whole?_fail]
    split <;> rfl
  | bytes length =>
    intro path v
    cases v <;> simp only [wire?, write, Output.whole?_fail]
    split <;> rfl
  | array element count each =>
    intro path v
    cases v <;> simp only [wire?, write, Output.whole?_fail]
    split
    · rw [whole?_writeItems each, whole?_writeItems each]
    · rfl
  | option inner each =>
    intro path v
    cases v <;> simp only [wire?, write, Output.whole?_fail, Output.whole?_ofBytes, Output.whole?_append]
    rw [each path, each Path.root]
  | struct fields each =>
    intro path v
    cases v <;> simp only [wire?, write, Output.whole?_fail, whole?_writeFields each]
  | enum variants each =>
    intro path v
    cases v <;> simp only [wire?, write, Output.whole?_fail]
    rename_i name payload
    have same := fun path => writeVariant_whole?_eq_some_iff each 0 path name payload
    ext bytes
    rw [Output.whole?_getD_fail, Output.whole?_getD_fail, same path, same Path.root]

end FieldType

theorem Value.encode_eq_ok_iff {ty : FieldType} {v : Value} {bytes : List UInt8} :
    v.encode ty = .ok bytes ↔ ty.wire? v = some bytes :=
  Output.complete_eq_ok_iff

/-! ## The bytes, type by type -/

namespace FieldType

theorem wire?_scalar (kind : ScalarKind) (v : Value) :
    (scalar kind).wire? v =
      match v with
      | .scalar s => if s.kind = kind then some s.bytes else none
      | _ => none := by
  cases v with
  | scalar s =>
    show Output.whole? (if s.kind = kind then _ else _) = if s.kind = kind then _ else _
    split <;> rfl
  | _ => rfl

theorem wire?_text (v : Value) :
    text.wire? v =
      match v with
      | .text s => textBytes? s
      | _ => none := by
  cases v <;> simp only [wire?, write, Output.whole?_fail]
  rename_i s
  cases textBytes? s <;> rfl

theorem wire?_bytes (length : UInt64) (v : Value) :
    (bytes length).wire? v =
      match v with
      | .bytes data => if data.length = length.toNat then some data else none
      | _ => none := by
  cases v with
  | bytes data =>
    show Output.whole? (if data.length = length.toNat then _ else _) =
      if data.length = length.toNat then _ else _
    split <;> rfl
  | _ => rfl

theorem wire?_array (element : FieldType) (count : UInt64) (v : Value) :
    (array element count).wire? v =
      match v with
      | .array items =>
        if items.length = count.toNat then joined? element.wire? items else none
      | _ => none := by
  cases v with
  | array items =>
    show Output.whole? (if items.length = count.toNat then _ else _) =
      if items.length = count.toNat then _ else _
    split
    · exact whole?_writeItems element.whole?_write Path.root 0 items
    · rfl
  | _ => rfl

theorem wire?_option (inner : FieldType) (v : Value) :
    (option inner).wire? v =
      match v with
      | .absent => some [0]
      | .present v => (inner.wire? v).map (1 :: ·)
      | _ => none := by
  cases v with
  | present v => exact Output.whole?_append (.ofBytes [1]) (inner.write Path.root v)
  | _ => rfl

theorem wire?_struct (fields : List Field) (v : Value) :
    (struct fields).wire? v =
      match v with
      | .struct members => wireFields? fields (members.lookup ·)
      | _ => none := by
  cases v with
  | struct members => exact whole?_writeFields (fun field _ => field.2.whole?_write) Path.root members
  | _ => rfl

/-- An enum value is written as the number of the first variant of its name, if that fits a byte,
and its payload as that variant. -/
theorem wire?_enum_eq_some_iff {variants : List Field} {v : Value} {bytes : List UInt8} :
    (enum variants).wire? v = some bytes ↔
      ∃ name payload before ty after rest, v = .enum name payload ∧
        variants = before ++ (name, ty) :: after ∧ (∀ variant ∈ before, variant.1 ≠ name) ∧
        before.length ≤ 255 ∧ ty.wire? payload = some rest ∧ bytes = before.length.toUInt8 :: rest := by
  cases v with
  | enum name payload =>
    have inverted := writeVariant_whole?_eq_some_iff (fun variant (_ : variant ∈ variants) =>
      variant.2.whole?_write) 0 Path.root name payload bytes
    simp only [Nat.zero_add] at inverted
    simp only [wire?, write, Output.whole?_getD_fail, inverted]
    constructor
    · rintro ⟨before, ty, after, rest, chosen⟩
      exact ⟨name, payload, before, ty, after, rest, rfl, chosen⟩
    · rintro ⟨_, _, before, ty, after, rest, ⟨⟩, chosen⟩
      exact ⟨before, ty, after, rest, chosen⟩
  | _ => simp [wire?, write]

end FieldType

end PackedRecord
