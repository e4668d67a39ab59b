import PackedRecord.Proofs.Value.Delimiting
import PackedRecord.Proofs.Value.Normal

/-!
# Canonical bytes

Reading accepts more than writing puts out: any byte but zero announces an optional value, and the
bytes of a text need not be UTF-8.  `readMarked` reads as `read` does and keeps what it took of the two.

* `map_fst_readMarked`: without these marks it is `read`.
* `yields_readMarked`: a value is written with the bytes that it was read from if all marks are plain,
  and with other bytes of the same value if one is not.
* `encode_decode`: the same of whole values.

That other bytes differ at some mark is not clear from their lengths, since a replaced text may be
longer or shorter.  It follows from `Spells.append_inj`: the bytes of a value tell where they end.
-/

namespace PackedRecord

/-- What is taken from the wire and can be written in another way. -/
inductive Mark where
  | presence (flag : UInt8)
  | payload (bytes : List UInt8)

def Mark.Plain : Mark → Prop
  | presence flag => flag = 0 ∨ flag = 1
  | payload bytes => Utf8.WellFormed bytes

/-! ## Reading with marks -/

def readItemsMarked (read : Path → Reading CodecError (Value × List Mark)) (path : Path) :
    (i count : Nat) → Reading CodecError (List Value × List Mark)
  | _, 0 => return ([], [])
  | i, count + 1 => do
    let item ← read (path.element i)
    let rest ← readItemsMarked read path (i + 1) count
    return (item.1 :: rest.1, item.2 ++ rest.2)

namespace FieldType

mutual

/-- Takes a value of a type from a source, with every presence byte and every payload of a text. -/
def readMarked (ty : FieldType) (path : Path) : Reading CodecError (Value × List Mark) :=
  match ty with
  | text => do
    let length ← Reading.word (.unexpectedEnd path) 4
    let payload ← Reading.bytes (.unexpectedEnd path) length
    return (.text (Utf8.decodeLossy payload), [.payload payload])
  | array element count => do
    let found ← readItemsMarked element.readMarked path 0 count.toNat
    return (.array found.1, found.2)
  | option inner => do
    let flag ← Reading.byte (.unexpectedEnd path)
    if flag = 0 then return (.absent, [.presence flag])
    else do
      let found ← inner.readMarked path
      return (.present found.1, .presence flag :: found.2)
  | struct fields => do
    let found ← readFieldsMarked fields path
    return (.struct found.1, found.2)
  | enum variants => do
    let index ← Reading.byte (.unexpectedEnd path)
    readVariantMarked variants index.toNat path (.invalidVariant path index variants.length)
  | ty => do
    let v ← ty.read path
    return (v, [])

def readFieldsMarked (fields : List Field) (path : Path) :
    Reading CodecError (List (String × Value) × List Mark) :=
  match fields with
  | [] => return ([], [])
  | (name, ty) :: rest => do
    let value ← ty.readMarked (path.member name)
    let members ← readFieldsMarked rest path
    return ((name, value.1) :: members.1, value.2 ++ members.2)

def readVariantMarked (variants : List Field) (index : Nat) (path : Path) (fault : CodecError) :
    Reading CodecError (Value × List Mark) :=
  match variants, index with
  | [], _ => throw fault
  | (name, ty) :: _, 0 => do
    let payload ← ty.readMarked (path.member name)
    return (.enum name payload.1, payload.2)
  | _ :: rest, index + 1 => readVariantMarked rest index path fault

end

end FieldType

def Value.decodeMarked (ty : FieldType) (bytes : List UInt8) : Except CodecError (Value × List Mark) :=
  match (ty.readMarked Path.root).run (Source.ofBytes bytes) with
  | .error fault _ => .error fault
  | .ok found s => if s.rest.isEmpty then .ok found else .error (.trailingBytes s.remaining)

/-! ## Marks have no influence -/

namespace FieldType

theorem map_fst_readItemsMarked {element : FieldType}
    (each : ∀ path, Prod.fst <$> element.readMarked path = element.read path) (path : Path) (i count : Nat) :
    Prod.fst <$> readItemsMarked element.readMarked path i count = readItems element.read path i count := by
  induction count generalizing i with
  | zero => simp [readItemsMarked, readItems]
  | succ count inductionHypothesis =>
    simp only [readItemsMarked, readItems, ← each, ← inductionHypothesis]
    simp

theorem map_fst_readFieldsMarked {fields : List Field}
    (each : ∀ field ∈ fields, ∀ path, Prod.fst <$> field.2.readMarked path = field.2.read path) (path : Path) :
    Prod.fst <$> readFieldsMarked fields path = readFields fields path := by
  induction fields with
  | nil => simp [readFieldsMarked, readFields_nil]
  | cons field fields inductionHypothesis =>
    obtain ⟨name, ty⟩ := field
    have first := each (name, ty) List.mem_cons_self
    have others := inductionHypothesis fun field listed => each field (List.mem_cons_of_mem _ listed)
    simp only [readFieldsMarked, readFields_cons, ← first, ← others]
    simp

theorem map_fst_readVariantMarked {variants : List Field}
    (each : ∀ variant ∈ variants, ∀ path, Prod.fst <$> variant.2.readMarked path = variant.2.read path)
    (index : Nat) (path : Path) (fault : CodecError) :
    Prod.fst <$> readVariantMarked variants index path fault = readVariant variants index path fault := by
  induction variants generalizing index with
  | nil =>
    rw [readVariantMarked, readVariant_nil]
    rfl
  | cons variant variants inductionHypothesis =>
    obtain ⟨name, ty⟩ := variant
    cases index with
    | zero =>
      rw [readVariantMarked, readVariant_zero, ← each (name, ty) List.mem_cons_self]
      simp
    | succ index =>
      rw [readVariantMarked, readVariant_succ]
      exact inductionHypothesis (fun variant listed => each variant (List.mem_cons_of_mem _ listed)) index

theorem map_fst_readMarked (ty : FieldType) :
    ∀ path, Prod.fst <$> ty.readMarked path = ty.read path := by
  induction ty with
  | scalar kind | bytes length =>
    intro path
    simp [readMarked]
  | text =>
    intro path
    simp [readMarked, read_text, Reading.text]
  | array element count each =>
    intro path
    rw [readMarked, read_array, ← map_fst_readItemsMarked each]
    simp
  | option inner each =>
    intro path
    simp only [readMarked, read_option, ← each, map_bind]
    congr 1
    funext flag
    split <;> simp
  | struct fields each =>
    intro path
    rw [readMarked, read_struct, ← map_fst_readFieldsMarked each]
    simp
  | enum variants each =>
    intro path
    simp only [readMarked, read_enum, map_bind, map_fst_readVariantMarked each]

end FieldType

theorem Value.decodeMarked_eq_ok {ty : FieldType} {bytes : List UInt8} {found : Value × List Mark}
    (marked : decodeMarked ty bytes = .ok found) :
    ∃ s, s.rest = [] ∧ ty.readMarked Path.root (Source.ofBytes bytes) = .ok found s := by
  simp only [decodeMarked, EStateM.run] at marked
  split at marked
  · cases marked
  · rename_i result s read
    split at marked
    · rename_i finished
      cases marked
      exact ⟨s, List.isEmpty_iff.mp finished, read⟩
    · cases marked

theorem Value.decodeMarked_of_decode {ty : FieldType} {bytes : List UInt8} {v : Value}
    (decoded : decode ty bytes = .ok v) : ∃ marks, decodeMarked ty bytes = .ok (v, marks) := by
  have same := ty.map_fst_readMarked Path.root
  rw [decode_eq, ← same] at decoded
  rw [decodeMarked]
  simp only [EStateM.run, Functor.map, EStateM.map] at decoded ⊢
  cases read : ty.readMarked Path.root (Source.ofBytes bytes) with
  | error fault s => simp [read] at decoded
  | ok found s =>
    simp only [read] at decoded ⊢
    by_cases finished : s.rest.isEmpty = true
    · rw [if_pos finished] at decoded ⊢
      cases decoded
      exact ⟨found.2, rfl⟩
    · rw [if_neg finished] at decoded
      cases decoded

/-! ## What a reading yields -/

namespace Reading

variable {ε α β : Type} {reading : Reading ε α} {next : α → Reading ε β}

/-- Where a reading succeeds, this holds of the bytes that it took and of what it yields. -/
def Yields (reading : Reading ε α) (post : List UInt8 → α → Prop) : Prop :=
  ∀ s a s', reading s = .ok a s' → ∃ used, s.rest = used ++ s'.rest ∧ post used a

theorem Takes.yields {spells : List UInt8 → α → Prop} (takes : Takes reading spells) :
    Yields reading spells := by
  intro s a s' read
  obtain ⟨used, spelled, rest, -⟩ := (takes s a s').mp read
  exact ⟨used, rest, spelled⟩

theorem yields_pure {post : List UInt8 → α → Prop} {a : α} (holds : post [] a) :
    Yields (pure a : Reading ε α) post := by
  intro s b s' read
  cases read
  exact ⟨[], rfl, holds⟩

theorem Yields.mono {post post' : List UInt8 → α → Prop} (yields : Yields reading post)
    (weaker : ∀ used a, post used a → post' used a) : Yields reading post' := by
  intro s a s' read
  obtain ⟨used, rest, holds⟩ := yields s a s' read
  exact ⟨used, rest, weaker used a holds⟩

theorem Yields.bind {mid : List UInt8 → α → Prop} {post : List UInt8 → β → Prop} (first : Yields reading mid)
    (second : ∀ a front, mid front a → Yields (next a) fun back b => post (front ++ back) b) :
    Yields (reading >>= next) post := by
  intro s b s' read
  obtain ⟨a, between, readFirst, readSecond⟩ := bind_eq_ok_iff.mp read
  obtain ⟨front, restFirst, holdsFirst⟩ := first s a between readFirst
  obtain ⟨back, restSecond, holds⟩ := second a front holdsFirst between b s' readSecond
  refine ⟨front ++ back, ?_, holds⟩
  rw [restFirst, restSecond, List.append_assoc]

end Reading

/-! ## Values are written as they were read -/

/-- What was read from `used` has a wire form, which is `used` itself if all marks are plain and some
other spelling of the same if not. -/
def Rewritten {α : Type} (spells : List UInt8 → α → Prop) (wire? : Option (List UInt8)) (used : List UInt8)
    (found : α × List Mark) : Prop :=
  ∃ bytes, wire? = some bytes ∧ spells bytes found.1 ∧ (bytes = used ↔ ∀ mark ∈ found.2, mark.Plain)

namespace FieldType

/-- Two spellings of a value with something behind them are the same if both parts are. -/
theorem Spells.append_eq_append_iff {ty : FieldType} {bytes used rest rest' : List UInt8} {v : Value}
    (spelled : ty.Spells bytes v) (spelled' : ty.Spells used v) :
    bytes ++ rest = used ++ rest' ↔ bytes = used ∧ rest = rest' := by
  constructor
  · intro same
    obtain ⟨front, back, -⟩ := spelled.append_inj spelled' same
    exact ⟨front, back⟩
  · rintro ⟨rfl, rfl⟩
    rfl

/-- What is known once a value was read with its marks. -/
def Recovered (ty : FieldType) (used : List UInt8) (found : Value × List Mark) : Prop :=
  ty.Spells used found.1 ∧ (found.1.EveryText ShortText → Rewritten ty.Spells (ty.wire? found.1) used found)

/-- A type whose values are read without marks has one spelling for each of them. -/
theorem recovered_of_unmarked {ty : FieldType} {used : List UInt8} {v : Value} (spelled : ty.Spells used v)
    (written : ty.wire? v = some used) : ty.Recovered used (v, []) :=
  ⟨spelled, fun _ => ⟨used, written, spelled, by simp⟩⟩

theorem recovered_text {header payload : List UInt8} (width : header.length = 4)
    (announced : payload.length = ofLittleEndian header) :
    text.Recovered (header ++ payload) (.text (Utf8.decodeLossy payload), [.payload payload]) := by
  refine ⟨.text width announced, fun short => ?_⟩
  have small : (Utf8.encode (Utf8.decodeLossy payload)).length ≤ maxTextLength := short _ rfl
  have written : text.wire? (.text (Utf8.decodeLossy payload)) =
      some (littleEndian 4 (Utf8.encode (Utf8.decodeLossy payload)).length ++
        Utf8.encode (Utf8.decodeLossy payload)) := by
    simp [wire?_text, textBytes?, small]
  refine ⟨_, written, text.spells_normalize _ _ written, ?_⟩
  simp only [List.mem_singleton, forall_eq, Mark.Plain, ← Utf8.encode_decodeLossy_eq_iff]
  constructor
  · intro same
    exact (List.append_inj same (by simp [width])).2
  · intro same
    rw [same, announced, ← width, littleEndian_ofLittleEndian]

/-! ### Elements, fields and variants -/

/-- Both parts are written again, and neither ends elsewhere because the other does. -/
theorem plain_append_iff {ty : FieldType} {bytes used rest rest' : List UInt8} {v : Value}
    {marks more : List Mark} (spelled : ty.Spells bytes v) (spelled' : ty.Spells used v)
    (first : bytes = used ↔ ∀ mark ∈ marks, mark.Plain) (others : rest = rest' ↔ ∀ mark ∈ more, mark.Plain) :
    bytes ++ rest = used ++ rest' ↔ ∀ mark ∈ marks ++ more, mark.Plain := by
  rw [spelled.append_eq_append_iff spelled', first, others, List.forall_mem_append]

theorem yields_readItemsMarked {element : FieldType}
    (each : ∀ path, (element.readMarked path).Yields element.Recovered) (path : Path) (i count : Nat) :
    (readItemsMarked element.readMarked path i count).Yields fun used found =>
      SpellsItems element count used found.1 ∧
        (Value.EveryLeafIn (fun leaf => ∀ s, leaf = .text s → ShortText s) found.1 →
          Rewritten (SpellsItems element count) (joined? element.wire? found.1) used found) := by
  induction count generalizing i with
  | zero =>
    apply Reading.yields_pure
    exact ⟨.nil, fun _ => ⟨[], rfl, .nil, by simp⟩⟩
  | succ count inductionHypothesis =>
    apply (each (path.element i)).bind
    intro item first head
    apply (inductionHypothesis (i + 1)).bind
    intro items rest tail
    apply Reading.yields_pure
    rw [List.append_nil]
    refine ⟨.cons head.1 tail.1, fun short => ?_⟩
    obtain ⟨bytes, written, spelled, same⟩ := head.2 short.1
    obtain ⟨more, writtenRest, spelledRest, sameRest⟩ := tail.2 short.2
    exact ⟨bytes ++ more, joined?_cons_eq_some_iff.mpr ⟨bytes, more, written, writtenRest, rfl⟩,
      .cons spelled spelledRest, plain_append_iff spelled head.1 same sameRest⟩

theorem yields_readFieldsMarked {fields : List Field} (distinct : (fields.map Prod.fst).Nodup)
    (each : ∀ field ∈ fields, ∀ path, (field.2.readMarked path).Yields field.2.Recovered) (path : Path) :
    (readFieldsMarked fields path).Yields fun used found =>
      SpellsFields fields used found.1 ∧
        (Value.EveryLeafOf (fun leaf => ∀ s, leaf = .text s → ShortText s) found.1 →
          Rewritten (SpellsFields fields) (wireFields? fields (found.1.lookup ·)) used found) := by
  induction fields with
  | nil =>
    rw [readFieldsMarked]
    apply Reading.yields_pure
    exact ⟨.nil, fun _ => ⟨[], rfl, .nil, by simp⟩⟩
  | cons field fields inductionHypothesis =>
    obtain ⟨name, ty⟩ := field
    rw [List.map_cons, List.nodup_cons] at distinct
    rw [readFieldsMarked]
    apply (each (name, ty) List.mem_cons_self (path.member name)).bind
    intro value first head
    apply (inductionHypothesis distinct.2 fun field listed => each field (List.mem_cons_of_mem _ listed)).bind
    intro members rest tail
    apply Reading.yields_pure
    rw [List.append_nil]
    refine ⟨.cons head.1 tail.1, fun short => ?_⟩
    obtain ⟨bytes, written, spelled, same⟩ := head.2 short.1
    obtain ⟨more, writtenRest, spelledRest, sameRest⟩ := tail.2 short.2
    refine ⟨bytes ++ more, ?_, .cons spelled spelledRest, plain_append_iff spelled head.1 same sameRest⟩
    apply wireFields?_cons_eq_some_iff.mpr
    exact ⟨value.1, bytes, more, by simp, written, (wireFields?_lookup_cons distinct.1 _ _).trans writtenRest, rfl⟩

theorem yields_readVariantMarked {variants : List Field}
    (each : ∀ variant ∈ variants, ∀ path, (variant.2.readMarked path).Yields variant.2.Recovered)
    (index : Nat) (path : Path) (fault : CodecError) :
    (readVariantMarked variants index path fault).Yields fun used found =>
      ∃ name ty payload, variants[index]? = some (name, ty) ∧ found.1 = .enum name payload ∧
        ty.Recovered used (payload, found.2) := by
  induction variants generalizing index with
  | nil =>
    rw [readVariantMarked]
    intro s found s' impossible
    cases impossible
  | cons variant variants inductionHypothesis =>
    obtain ⟨name, ty⟩ := variant
    cases index with
    | zero =>
      rw [readVariantMarked]
      apply (each (name, ty) List.mem_cons_self (path.member name)).bind
      intro payload used recovered
      apply Reading.yields_pure
      rw [List.append_nil]
      exact ⟨name, ty, payload.1, rfl, rfl, recovered⟩
    | succ index =>
      rw [readVariantMarked]
      simpa using inductionHypothesis (fun variant listed => each variant (List.mem_cons_of_mem _ listed)) index

/-- Under distinct names, a payload is written as the variant that it was read as. -/
theorem recovered_enum {variants : List Field} (distinct : (variants.map Prod.fst).Nodup) {index : UInt8}
    {name : String} {ty : FieldType} (chosen : variants[index.toNat]? = some (name, ty)) {used : List UInt8}
    {payload : Value} {marks : List Mark} (recovered : ty.Recovered used (payload, marks)) :
    (enum variants).Recovered (index :: used) (.enum name payload, marks) := by
  refine ⟨.enum chosen recovered.1, fun short => ?_⟩
  obtain ⟨bytes, written, spelled, same⟩ := recovered.2 short
  obtain ⟨inside, found⟩ := List.getElem?_eq_some_iff.mp chosen
  have split : variants = variants.take index.toNat ++ (name, ty) :: variants.drop (index.toNat + 1) := by
    rw [← found, ← List.drop_eq_getElem_cons inside, List.take_append_drop]
  have position : (variants.take index.toNat).length = index.toNat := by
    rw [List.length_take]
    omega
  have fresh : ∀ variant ∈ variants.take index.toNat, variant.1 ≠ name := by
    rw [split, List.map_append, List.nodup_append] at distinct
    intro variant listed
    exact distinct.2.2 variant.1 (List.mem_map_of_mem listed) name (by simp)
  have small := index.toNat_lt
  refine ⟨index :: bytes, wire?_enum_eq_some_iff.mpr ⟨name, payload, _, ty, _, bytes, rfl, split, fresh, ?_,
    written, ?_⟩, .enum chosen spelled, ?_⟩
  · omega
  · simp [position]
  · simpa using same

theorem yields_readMarked (ty : FieldType) (structs : ty.EveryStruct fun fields => (fields.map Prod.fst).Nodup)
    (enums : ty.EveryEnum fun variants => (variants.map Prod.fst).Nodup) :
    ∀ path, (ty.readMarked path).Yields ty.Recovered := by
  induction ty with
  | scalar kind =>
    intro path
    rw [readMarked]
    · apply ((scalar kind).takes_read path).yields.bind
      intro v used spelled
      apply Reading.yields_pure
      rw [List.append_nil]
      apply recovered_of_unmarked spelled
      cases spelled with
      | scalar width => simp [wire?_scalar, Scalar.kind_ofWord, Scalar.bytes_ofWord width]
    all_goals simp
  | text =>
    intro path
    rw [readMarked]
    apply (Reading.takes_word _ 4).yields.bind
    rintro _ header ⟨width, rfl⟩
    apply (Reading.takes_bytes _ _).yields.bind
    rintro _ payload ⟨announced, rfl⟩
    apply Reading.yields_pure
    rw [List.append_nil]
    exact recovered_text width announced
  | bytes length =>
    intro path
    rw [readMarked]
    · apply ((bytes length).takes_read path).yields.bind
      intro v used spelled
      apply Reading.yields_pure
      rw [List.append_nil]
      apply recovered_of_unmarked spelled
      cases spelled with
      | bytes width => simp [wire?_bytes, width]
    all_goals simp
  | array element count each =>
    intro path
    rw [readMarked]
    apply (yields_readItemsMarked (each structs enums) path 0 count.toNat).bind
    intro items used found
    apply Reading.yields_pure
    rw [List.append_nil]
    refine ⟨.array found.1, fun short => ?_⟩
    obtain ⟨bytes, written, spelled, same⟩ := found.2 short
    exact ⟨bytes, by simp [wire?_array, found.1.length_items, written], .array spelled, same⟩
  | option inner each =>
    intro path
    rw [readMarked]
    apply (Reading.takes_byte _).yields.bind
    rintro flag _ rfl
    by_cases zero : flag = 0
    · subst zero
      rw [if_pos rfl]
      apply Reading.yields_pure
      exact ⟨.absent, fun _ => ⟨[0], rfl, .absent, by simp [Mark.Plain]⟩⟩
    · rw [if_neg zero]
      apply (each structs enums path).bind
      intro found used recovered
      apply Reading.yields_pure
      rw [List.append_nil]
      refine ⟨.present zero recovered.1, fun short => ?_⟩
      obtain ⟨bytes, written, spelled, same⟩ := recovered.2 short
      refine ⟨1 :: bytes, by simp [wire?_option, written], .present (by decide) spelled, ?_⟩
      have plain : (Mark.presence flag).Plain ↔ 1 = flag := by simp [Mark.Plain, zero, eq_comm]
      simp only [List.singleton_append, List.cons.injEq, List.forall_mem_cons, same, plain]
  | struct fields each =>
    intro path
    have fieldwise := fun field listed => each field listed (everyStructIn_iff.mp structs.2 field listed)
      (everyEnumIn_iff.mp enums field listed)
    rw [readMarked]
    apply (yields_readFieldsMarked structs.1 fieldwise path).bind
    intro members used found
    apply Reading.yields_pure
    rw [List.append_nil]
    refine ⟨.struct found.1, fun short => ?_⟩
    obtain ⟨bytes, written, spelled, same⟩ := found.2 short
    exact ⟨bytes, by simpa [wire?_struct] using written, .struct spelled, same⟩
  | enum variants each =>
    intro path
    have variantwise := fun variant listed => each variant listed (everyStructIn_iff.mp structs variant listed)
      (everyEnumIn_iff.mp enums.2 variant listed)
    rw [readMarked]
    apply (Reading.takes_byte _).yields.bind
    rintro index _ rfl
    apply (yields_readVariantMarked variantwise index.toNat path _).mono
    intro used found ⟨name, ty, payload, chosen, same, recovered⟩
    obtain ⟨v, marks⟩ := found
    obtain rfl : v = .enum name payload := same
    exact recovered_enum enums.1 chosen recovered

end FieldType

/-! ## Whole values -/

/-- What was decoded encodes to bytes that decode to it again, bit for bit.  They are the bytes that
were decoded exactly if each presence byte among these is zero or one and each text is UTF-8. -/
theorem encode_decode {ty : FieldType} (structs : ty.EveryStruct fun fields => (fields.map Prod.fst).Nodup)
    (enums : ty.EveryEnum fun variants => (variants.map Prod.fst).Nodup) {bytes : List UInt8} {v : Value}
    (decoded : Value.decode ty bytes = .ok v)
    (short : v.EveryText fun s => (Utf8.encode s).length ≤ 2 ^ 32 - 1) :
    ∃ canonical marks, v.encode ty = .ok canonical ∧ Value.decode ty canonical = .ok v ∧
      Value.decodeMarked ty bytes = .ok (v, marks) ∧ (canonical = bytes ↔ ∀ mark ∈ marks, mark.Plain) := by
  obtain ⟨marks, marked⟩ := Value.decodeMarked_of_decode decoded
  obtain ⟨s, finished, read⟩ := Value.decodeMarked_eq_ok marked
  obtain ⟨used, rest, -, rewritten⟩ := ty.yields_readMarked structs enums Path.root _ _ _ read
  obtain rfl : bytes = used := by simpa [Source.ofBytes, finished] using rest
  obtain ⟨canonical, written, spelled, same⟩ := rewritten short
  exact ⟨canonical, marks, Value.encode_eq_ok_iff.mpr written, Value.decode_eq_ok_iff.mpr spelled, marked, same⟩

/-- A presence byte of seven and a text that is not UTF-8: the value stays, and its bytes change. -/
theorem encode_decode_replaced :
    let ty : FieldType :=
      .struct [("note", .option .text), ("level", .enum [("off", .struct []), ("on", .scalar .u8)])]
    let bytes : List UInt8 := [7, 1, 0, 0, 0, 0xFF, 1, 9]
    let v : Value := .struct [("note", .present (.text "\uFFFD")), ("level", .enum "on" (.scalar (.u8 9)))]
    Value.decode ty bytes = .ok v ∧
      ∃ canonical, v.encode ty = .ok canonical ∧ Value.decode ty canonical = .ok v ∧ canonical ≠ bytes := by
  intro ty bytes v
  have decoded : Value.decode ty bytes = .ok v := rfl
  have structs : ty.EveryStruct fun fields => (fields.map Prod.fst).Nodup := by
    simp [ty, FieldType.EveryStruct, FieldType.EveryStructIn]
  have enums : ty.EveryEnum fun variants => (variants.map Prod.fst).Nodup := by
    simp [ty, FieldType.EveryEnum, FieldType.EveryEnumIn]
  have short : v.EveryText fun s => (Utf8.encode s).length ≤ 2 ^ 32 - 1 := by
    simp only [v, Value.EveryText, Value.EveryLeaf, Value.EveryLeafOf, Value.text.injEq, forall_eq',
      reduceCtorEq, false_implies, implies_true, and_true]
    decide
  obtain ⟨canonical, marks, encoded, again, marked, same⟩ := encode_decode structs enums decoded short
  refine ⟨decoded, canonical, encoded, again, fun unchanged => ?_⟩
  obtain rfl : [.presence 7, .payload [0xFF]] = marks := by
    have found : Value.decodeMarked ty bytes = .ok (v, [.presence 7, .payload [0xFF]]) := rfl
    rw [found] at marked
    exact (Prod.mk.inj (Except.ok.inj marked)).2
  simpa [Mark.Plain] using same.mp unchanged (.presence 7) List.mem_cons_self

end PackedRecord
