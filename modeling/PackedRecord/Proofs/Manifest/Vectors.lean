import Mathlib.Data.List.Forall2
import PackedRecord.Manifest.Vectors
import PackedRecord.Proofs.Compile.Storable
import PackedRecord.Proofs.Json.Objects
import PackedRecord.Proofs.Manifest.Reading
import PackedRecord.Proofs.Plan.RoundTrip
import PackedRecord.Proofs.Value.Json

/-!
# Golden vectors are the examples without a NUL

An example is encoded, and read and written again by plan.  Reading gives the value back, since no
number in it is NaN, and there is always room to write it.  What is written lacks the text behind a
NUL, and this is the one way in which an example that can be read may fail.

* `Case.vector_eq`: what becomes of one example.
* `Case.vectors_eq_ok_iff`, `Case.vectors_eq_error_iff`: what becomes of a case.
* `Manifest.vectorsJson_of_wellFormed`: what becomes of a manifest.
-/

namespace PackedRecord

/-- No text in the value has a NUL. -/
def Value.NulFree (v : Value) : Prop :=
  v.EveryText fun s => '\x00' ∉ s.toList

/-- Bytes that spell a value are those of the value without what follows a NUL exactly if there is no
NUL. -/
theorem FieldType.eq_cut_iff {ty : FieldType} {v : Value} {bytes cut : List UInt8}
    (written : ty.wire? v = some bytes) (spelled : ty.Spells bytes v)
    (writtenCut : ty.wire? v.visible = some cut) : cut = bytes ↔ v.NulFree := by
  rw [Value.NulFree, ← Value.visible_eq_self_iff]
  constructor
  · rintro rfl
    have decoded := Value.decode_eq_ok_iff.mpr spelled
    -- The bytes spell the value, what its type sees of it, and the same with texts cut: all three are one.
    have kept := Value.decode_eq_ok_iff.mpr (ty.spells_normalize v cut written)
    have shown := Value.decode_eq_ok_iff.mpr (ty.spells_normalize v.visible cut writtenCut)
    rw [decoded, Except.ok.injEq] at kept shown
    rw [← visible_normalize, ← kept] at shown
    exact shown.symm
  · intro same
    rw [same] at writtenCut
    exact Option.some.inj (writtenCut.symm.trans written)

namespace Case

/-- The example is a value of the record, without a NUL in any text. -/
def Replays (c : Case) (input : Json) : Prop :=
  ∃ v, Value.ofJson c.definition.toType input = .ok v ∧ v.NulFree

/-- These are the bytes of the example. -/
def Encodes (c : Case) (input : Json) (output : List UInt8) : Prop :=
  ∃ v, Value.ofJson c.definition.toType input = .ok v ∧ v.encode c.definition.toType = .ok output

/-- How the example of a number can fail. -/
inductive Misses (c : Case) (index : Nat) (input : Json) : Error → Prop where
  /-- It is no value of the record. -/
  | unread {why : CodecError} (failed : Value.ofJson c.definition.toType input = .error why) :
    Misses c index input (.codec why)
  /-- It is written without what follows a NUL. -/
  | cut {v : Value} {found expected : List UInt8} (read : Value.ofJson c.definition.toType input = .ok v)
    (nul : ¬ v.NulFree) (encoded : v.encode c.definition.toType = .ok expected)
    (shown : v.visible.encode c.definition.toType = .ok found) :
    Misses c index input (.vectorMismatch c.name index (.writing found expected))

/-- The example holds no number that is NaN, and no text too long to be written. -/
structure Writable (c : Case) (input : Json) : Prop where
  numbers : input.EveryNumber Numeral.NotNan
  short : ∀ v, Value.ofJson c.definition.toType input = .ok v → v.EveryText ShortText

variable {c : Case} {plan : Plan}

theorem plan_eq_ok_iff : c.plan = .ok plan ↔
    verify c.name c.definition = .ok () ∧ Plan.build c.definition.fields C.readerBase = .ok plan := by
  constructor
  · intro planned
    obtain ⟨⟨⟩, verified, built⟩ := bind_eq_ok planned
    exact ⟨verified, built⟩
  · intro ⟨verified, built⟩
    rw [Case.plan, verified]
    exact built

theorem carried (verified : verify c.name c.definition = .ok ()) {input : Json} {v : Value}
    (read : Value.ofJson c.definition.toType input = .ok v) (short : v.EveryText ShortText) :
    c.definition.toType.Carried v := by
  obtain ⟨structs, enums⟩ := composites_of_verify verified fun variants => variants.length ≤ 256
  rw [(verify_eq_ok verified).1] at read ⊢
  exact FieldType.carried_of_reads _ structs enums input v ⟨_, read⟩ short

theorem vector_eq (planned : c.plan = .ok plan) {input : Json} (writable : c.Writable input) {v : Value}
    (read : Value.ofJson c.definition.toType input = .ok v) (index : Nat) :
    ∃ expected found, v.encode c.definition.toType = .ok expected ∧
      v.visible.encode c.definition.toType = .ok found ∧ (found = expected ↔ v.NulFree) ∧
      c.vector plan index input = if found = expected then .ok expected
        else .error (.vectorMismatch c.name index (.writing found expected)) := by
  obtain ⟨verified, built⟩ := plan_eq_ok_iff.mp planned
  obtain ⟨isStruct, supported⟩ := verify_eq_ok verified
  obtain ⟨expected, written, spelled⟩ := carried verified read (writable.short v read)
  obtain ⟨found, writtenCut, shorter⟩ := FieldType.exists_wire?_visible _ v expected written
  have encoded := Value.encode_eq_ok_iff.mpr written
  have same := FieldType.eq_cut_iff written spelled writtenCut
  have itself : v.equal v = true :=
    v.equal_self (FieldType.selfEqual_of_reads _ input v ⟨_, read⟩ writable.numbers)
  refine ⟨expected, found, encoded, Value.encode_eq_ok_iff.mpr writtenCut, same, ?_⟩
  have replayed : plan.read expected = .ok v := by
    apply (Plan.read_eq_ok_iff built supported.distinct (everyScopeIn_of_flat supported.flat _)).mpr
    exact ⟨expected, [], by simp, isStruct ▸ spelled⟩
  have rewritten := Plan.write_of_fits built supported.nonempty (everyScopeIn_of_flat supported.flat _)
    (isStruct ▸ writtenCut) shorter
  simp only [vector, read, encoded, replayed, itself, rewritten, Written.payload, List.take_left, ite_not,
    Except.mapError, bind, Except.bind, Bool.not_true, Bool.false_eq_true, if_false, ne_eq]
  split <;> rfl

theorem vector_of_unread {input : Json} {why : CodecError}
    (failed : Value.ofJson c.definition.toType input = .error why) (index : Nat) :
    c.vector plan index input = .error (.codec why) := by
  rw [vector, failed]
  rfl

/-- An example gives its bytes exactly if it can be read and has no NUL. -/
theorem vector_eq_ok_iff (planned : c.plan = .ok plan) {input : Json} (writable : c.Writable input)
    {index : Nat} {output : List UInt8} :
    c.vector plan index input = .ok output ↔ c.Replays input ∧ c.Encodes input output := by
  cases read : Value.ofJson c.definition.toType input with
  | error why => simp [vector_of_unread read, Replays, Encodes, read]
  | ok v =>
    obtain ⟨expected, found, encoded, -, same, result⟩ := vector_eq planned writable read index
    by_cases agrees : found = expected
    · simp [result, agrees, Replays, Encodes, read, encoded, same.mp agrees]
    · simp [result, agrees, Replays, read, mt same.mpr agrees]

theorem vector_eq_error_iff (planned : c.plan = .ok plan) {input : Json} (writable : c.Writable input)
    {index : Nat} {e : Error} : c.vector plan index input = .error e ↔ c.Misses index input e := by
  constructor
  · intro failed
    cases read : Value.ofJson c.definition.toType input with
    | error why =>
      rw [vector_of_unread read] at failed
      cases failed
      exact .unread read
    | ok v =>
      obtain ⟨expected, found, encoded, shown, same, result⟩ := vector_eq planned writable read index
      rw [result] at failed
      split at failed
      · cases failed
      · rename_i differs
        cases failed
        exact .cut read (mt same.mpr differs) encoded shown
  · intro misses
    cases misses with
    | unread failed => exact vector_of_unread failed index
    | cut read nul encoded shown =>
      obtain ⟨expected, found, encoded', shown', same, result⟩ := vector_eq planned writable read index
      cases encoded.symm.trans encoded'
      cases shown.symm.trans shown'
      rw [result, if_neg (mt same.mp nul)]

theorem exists_encodes (planned : c.plan = .ok plan) {input : Json} (writable : c.Writable input)
    (replays : c.Replays input) : ∃ output, c.Encodes input output := by
  obtain ⟨v, read, -⟩ := replays
  obtain ⟨expected, -, encoded, -⟩ := vector_eq planned writable read 0
  exact ⟨expected, v, read, encoded⟩

/-! ## All examples of a case -/

theorem vectorsFrom_eq_ok_iff (planned : c.plan = .ok plan) {inputs : List Json}
    (writable : ∀ input ∈ inputs, c.Writable input) {index : Nat} {outputs : List (List UInt8)} :
    c.vectorsFrom plan index inputs = .ok outputs ↔
      (∀ input ∈ inputs, c.Replays input) ∧ List.Forall₂ c.Encodes inputs outputs := by
  induction inputs generalizing index outputs with
  | nil => simp [vectorsFrom, eq_comm]
  | cons input inputs inductionHypothesis =>
    obtain ⟨first, others⟩ := List.forall_mem_cons.mp writable
    rw [vectorsFrom, List.forall_mem_cons]
    constructor
    · intro passed
      obtain ⟨output, one, passed⟩ := bind_eq_ok passed
      obtain ⟨rest, more, passed⟩ := bind_eq_ok passed
      cases passed
      obtain ⟨replays, encodes⟩ := (vector_eq_ok_iff planned first).mp one
      obtain ⟨replay, encode⟩ := (inductionHypothesis others).mp more
      exact ⟨⟨replays, replay⟩, .cons encodes encode⟩
    · intro ⟨⟨replays, replay⟩, related⟩
      cases related with
      | cons encodes encode =>
        rw [(vector_eq_ok_iff planned first).mpr ⟨replays, encodes⟩,
          (inductionHypothesis others).mpr ⟨replay, encode⟩]
        rfl

theorem vectorsFrom_eq_error_iff (planned : c.plan = .ok plan) {inputs : List Json}
    (writable : ∀ input ∈ inputs, c.Writable input) {index : Nat} {e : Error} :
    c.vectorsFrom plan index inputs = .error e ↔ ∃ front input back, inputs = front ++ input :: back ∧
      (∀ earlier ∈ front, c.Replays earlier) ∧ c.Misses (index + front.length) input e := by
  -- The number counts up along the examples, so the statement is about examples from any number on.
  induction inputs generalizing index with
  | nil => simp [vectorsFrom]
  | cons input inputs inductionHypothesis =>
    obtain ⟨first, others⟩ := List.forall_mem_cons.mp writable
    rw [vectorsFrom]
    constructor
    · intro failed
      rcases bind_eq_error failed with one | ⟨output, one, failed⟩
      · exact ⟨[], input, inputs, rfl, by simp, (vector_eq_error_iff planned first).mp one⟩
      · rcases bind_eq_error failed with more | ⟨rest, -, impossible⟩
        · obtain ⟨front, input', back, rfl, earlier, misses⟩ := (inductionHypothesis others).mp more
          refine ⟨input :: front, input', back, rfl, ?_, ?_⟩
          · exact List.forall_mem_cons.mpr ⟨((vector_eq_ok_iff planned first).mp one).1, earlier⟩
          · rwa [List.length_cons, Nat.add_comm front.length, ← Nat.add_assoc]
        · cases impossible
    · intro ⟨front, input', back, parted, earlier, misses⟩
      cases front with
      | nil =>
        obtain ⟨rfl, rfl⟩ := List.cons.inj parted
        have failed : c.vector plan index input = .error e := (vector_eq_error_iff planned first).mpr misses
        rw [failed]
        rfl
      | cons input front =>
        obtain ⟨rfl, rfl⟩ := List.cons.inj parted
        obtain ⟨replays, earlier⟩ := List.forall_mem_cons.mp earlier
        obtain ⟨output, encodes⟩ := exists_encodes planned first replays
        rw [List.length_cons, Nat.add_comm front.length, ← Nat.add_assoc] at misses
        rw [(vector_eq_ok_iff planned first).mpr ⟨replays, encodes⟩,
          (inductionHypothesis others).mpr ⟨front, input', back, rfl, earlier, misses⟩]
        rfl

/-- The record of the case can be compiled as far as its plan, and all examples can be replayed. -/
structure Sound (c : Case) : Prop where
  verified : verify c.name c.definition = .ok ()
  planned : ∃ plan, Plan.build c.definition.fields C.readerBase = .ok plan
  replays : ∀ input ∈ c.examples, c.Replays input

/-- How a case can fail: by its plan, and if there is one by the first example that does. -/
inductive Fails (c : Case) : Error → Prop where
  | unplanned {why : CompileError} (failed : c.plan = .error why) : Fails c (.compile why)
  | misses {plan : Plan} {front back : List Json} {input : Json} {e : Error} (planned : c.plan = .ok plan)
    (parted : c.examples = front ++ input :: back) (earlier : ∀ input ∈ front, c.Replays input)
    (first : c.Misses front.length input e) : Fails c e

theorem vectors_eq_ok_iff (writable : ∀ input ∈ c.examples, c.Writable input) {outputs : List (List UInt8)} :
    c.vectors = .ok outputs ↔ c.Sound ∧ List.Forall₂ c.Encodes c.examples outputs := by
  constructor
  · intro passed
    obtain ⟨plan, planned, passed⟩ := bind_eq_ok passed
    have planned := mapError_eq_ok_iff.mp planned
    obtain ⟨verified, built⟩ := plan_eq_ok_iff.mp planned
    obtain ⟨replays, encodes⟩ := (vectorsFrom_eq_ok_iff planned writable).mp passed
    exact ⟨⟨verified, ⟨plan, built⟩, replays⟩, encodes⟩
  · intro ⟨⟨verified, ⟨plan, built⟩, replays⟩, encodes⟩
    have planned := plan_eq_ok_iff.mpr ⟨verified, built⟩
    rw [vectors, mapError_eq_ok_iff.mpr planned]
    exact (vectorsFrom_eq_ok_iff planned writable).mpr ⟨replays, encodes⟩

theorem vectors_eq_error_iff (writable : ∀ input ∈ c.examples, c.Writable input) {e : Error} :
    c.vectors = .error e ↔ c.Fails e := by
  constructor
  · intro failed
    rcases bind_eq_error failed with refused | ⟨plan, planned, failed⟩
    · obtain ⟨why, unplanned, rfl⟩ := mapError_eq_error_iff.mp refused
      exact .unplanned unplanned
    · have planned := mapError_eq_ok_iff.mp planned
      obtain ⟨front, input, back, parted, earlier, misses⟩ :=
        (vectorsFrom_eq_error_iff planned writable).mp failed
      exact .misses planned parted earlier (by simpa using misses)
  · intro fails
    cases fails with
    | unplanned failed =>
      rw [vectors, failed]
      rfl
    | misses planned parted earlier first =>
      rw [vectors, mapError_eq_ok_iff.mpr planned]
      exact (vectorsFrom_eq_error_iff planned writable).mpr ⟨_, _, _, parted, earlier, by simpa using first⟩

theorem Replays.not_misses {input : Json} (replays : c.Replays input) {index : Nat} {e : Error} :
    ¬ c.Misses index input e := by
  obtain ⟨v, read, free⟩ := replays
  intro misses
  cases misses with
  | unread failed => cases read.symm.trans failed
  | cut read' nul encoded shown =>
    cases read.symm.trans read'
    exact nul free

theorem Sound.not_fails (sound : c.Sound) {e : Error} : ¬ c.Fails e := by
  intro fails
  cases fails with
  | unplanned failed =>
    obtain ⟨plan, built⟩ := sound.planned
    have planned := plan_eq_ok_iff.mpr ⟨sound.verified, built⟩
    cases planned.symm.trans failed
  | misses planned parted earlier first => exact (sound.replays _ (by simp [parted])).not_misses first

/-- How an example stands among the vectors: as it was given, with its bytes. -/
def Golden (c : Case) (input vector : Json) : Prop :=
  vector.get? "input" = some input ∧
    ∃ output, c.Encodes input output ∧
      vector.get? "output" = some (.array (output.map fun byte => .ofNat byte.toNat))

theorem golden_zipWith {inputs : List Json} {outputs : List (List UInt8)}
    (encodes : List.Forall₂ c.Encodes inputs outputs) :
    List.Forall₂ c.Golden inputs (List.zipWith vectorJson inputs outputs) := by
  induction encodes with
  | nil => exact .nil
  | cons first others inductionHypothesis => exact .cons ⟨rfl, _, first, rfl⟩ inductionHypothesis

/-- How a case stands among the vectors: as it was defined, with all its examples. -/
def Entered (c : Case) (entry : Json) : Prop :=
  entry.get? "definition" = some c.definition.toJson ∧
    ∃ vectors, entry.get? "examples" = some (.array vectors) ∧ List.Forall₂ c.Golden c.examples vectors

theorem vectorsJson_eq_ok (writable : ∀ input ∈ c.examples, c.Writable input) {entry : Json}
    (made : c.vectorsJson = .ok entry) : c.Sound ∧ c.Entered entry := by
  obtain ⟨outputs, found, made⟩ := bind_eq_ok made
  obtain ⟨sound, encodes⟩ := (vectors_eq_ok_iff writable).mp found
  cases made
  exact ⟨sound, rfl, _, rfl, golden_zipWith encodes⟩

theorem vectorsJson_eq_error_iff (writable : ∀ input ∈ c.examples, c.Writable input) {e : Error} :
    c.vectorsJson = .error e ↔ c.Fails e := by
  rw [← vectors_eq_error_iff writable, vectorsJson]
  cases c.vectors <;> simp [bind, Except.bind, pure, Except.pure]

theorem exists_vectorsJson_iff (writable : ∀ input ∈ c.examples, c.Writable input) :
    (∃ entry, c.vectorsJson = .ok entry) ↔ c.Sound := by
  constructor
  · intro ⟨entry, made⟩
    exact (vectorsJson_eq_ok writable made).1
  · intro sound
    cases result : c.vectorsJson with
    | ok entry => exact ⟨entry, rfl⟩
    | error e => exact absurd ((vectorsJson_eq_error_iff writable).mp result) sound.not_fails

end Case

/-! ## Manifests -/

namespace Manifest

variable {m : Manifest}

def namedEntry (c : Case) : Except Error (String × Json) :=
  (fun entry => (c.name, entry)) <$> c.vectorsJson

/-- All cases have an entry, or the first that has none says why. -/
theorem vectorsJson_eq (m : Manifest) : m.vectorsJson = Json.ofMembers <$> m.cases.mapM namedEntry := by
  have each : (fun c : Case => do return (c.name, ← c.vectorsJson)) = namedEntry := by
    funext c
    rw [namedEntry]
    cases c.vectorsJson <;> rfl
  rw [vectorsJson, each]
  cases m.cases.mapM namedEntry <;> rfl

theorem namedEntry_eq_ok_iff {c : Case} {named : String × Json} :
    namedEntry c = .ok named ↔ ∃ entry, c.vectorsJson = .ok entry ∧ named = (c.name, entry) := by
  rw [namedEntry]
  cases c.vectorsJson <;> simp [Functor.map, Except.map, eq_comm]

theorem namedEntry_eq_error_iff {c : Case} {e : Error} :
    namedEntry c = .error e ↔ c.vectorsJson = .error e := by
  rw [namedEntry]
  cases c.vectorsJson <;> simp [Functor.map, Except.map]

theorem names_of_entries {cases : List Case} {entries : List (String × Json)}
    (each : List.Forall₂ (fun c named => namedEntry c = .ok named) cases entries) :
    entries.map Prod.fst = cases.map Case.name := by
  induction each with
  | nil => rfl
  | cons first others inductionHypothesis =>
    obtain ⟨outputs, -, rfl⟩ := namedEntry_eq_ok_iff.mp first
    rw [List.map_cons, List.map_cons, inductionHypothesis]

/-- The vectors of a manifest are those of its cases, each under its name. -/
theorem vectorsJson_eq_ok {json : Json} (passed : m.vectorsJson = .ok json)
    (distinct : (m.cases.map Case.name).Nodup) :
    ∀ c ∈ m.cases, ∃ entry, c.vectorsJson = .ok entry ∧ json.get? c.name = some entry := by
  rw [vectorsJson_eq] at passed
  obtain ⟨entries, made, rfl⟩ := map_eq_ok passed
  have each := mapM_eq_ok_iff.mp made
  intro c listed
  obtain ⟨named, among, made⟩ := exists_right_of_mem each listed
  obtain ⟨entry, found, rfl⟩ := namedEntry_eq_ok_iff.mp made
  exact ⟨entry, found, Json.get?_ofMembers (names_of_entries each ▸ distinct) among⟩

theorem vectorsJson_eq_error_iff {e : Error} :
    m.vectorsJson = .error e ↔ ∃ front c back, m.cases = front ++ c :: back ∧
      (∀ earlier ∈ front, ∃ entry, earlier.vectorsJson = .ok entry) ∧ c.vectorsJson = .error e := by
  have whole : m.vectorsJson = .error e ↔ m.cases.mapM namedEntry = .error e := by
    rw [vectorsJson_eq]
    cases m.cases.mapM namedEntry <;> simp [Functor.map, Except.map]
  have has : ∀ c, (∃ named, namedEntry c = .ok named) ↔ ∃ entry, c.vectorsJson = .ok entry := by
    intro c
    simp [namedEntry_eq_ok_iff]
  simp only [whole, mapM_eq_error_iff, has, namedEntry_eq_error_iff]

/-- Every manifest that was read is well-formed.  Golden vectors of a well-formed manifest are there exactly
if all its cases are sound, and then hold the bytes of every example.  Otherwise the first case that fails
says why: it has no plan, an example is no value of the record, or a text has a NUL in it. -/
theorem vectorsJson_of_wellFormed :
    (∀ text m, ofText text = .ok m → m.WellFormed) ∧
    ∀ m : Manifest, m.WellFormed →
      (∀ c ∈ m.cases, ∀ input ∈ c.examples, ∀ v, Value.ofJson c.definition.toType input = .ok v →
        v.EveryText fun s => (Utf8.encode s).length ≤ 2 ^ 32 - 1) →
      ((∃ json, m.vectorsJson = .ok json) ↔ ∀ c ∈ m.cases, c.Sound) ∧
        (∀ json, m.vectorsJson = .ok json → ∀ c ∈ m.cases, ∃ entry,
          json.get? c.name = some entry ∧ c.Entered entry) ∧
        ∀ e, m.vectorsJson = .error e ↔ ∃ front c back, m.cases = front ++ c :: back ∧
          (∀ earlier ∈ front, earlier.Sound) ∧ c.Fails e := by
  refine ⟨fun text m read => wellFormed_of_ofText read, fun m wellFormed short => ?_⟩
  have writable : ∀ c ∈ m.cases, ∀ input ∈ c.examples, c.Writable input :=
    fun c listed input among => ⟨wellFormed.numbers c listed input among, short c listed input among⟩
  have failing : ∀ e, m.vectorsJson = .error e ↔ ∃ front c back, m.cases = front ++ c :: back ∧
      (∀ earlier ∈ front, earlier.Sound) ∧ c.Fails e := by
    intro e
    rw [vectorsJson_eq_error_iff]
    constructor
    · intro ⟨front, c, back, parted, earlier, failed⟩
      refine ⟨front, c, back, parted, fun c listed => ?_, ?_⟩
      · exact (Case.exists_vectorsJson_iff (writable c (by simp [parted, listed]))).mp (earlier c listed)
      · exact (Case.vectorsJson_eq_error_iff (writable c (by simp [parted]))).mp failed
    · intro ⟨front, c, back, parted, earlier, fails⟩
      refine ⟨front, c, back, parted, fun c listed => ?_, ?_⟩
      · exact (Case.exists_vectorsJson_iff (writable c (by simp [parted, listed]))).mpr (earlier c listed)
      · exact (Case.vectorsJson_eq_error_iff (writable c (by simp [parted]))).mpr fails
  refine ⟨⟨?_, ?_⟩, ?_, failing⟩
  · intro ⟨json, passed⟩ c listed
    obtain ⟨entry, made, -⟩ := vectorsJson_eq_ok passed wellFormed.distinct c listed
    exact (Case.vectorsJson_eq_ok (writable c listed) made).1
  · intro sound
    cases result : m.vectorsJson with
    | ok json => exact ⟨json, rfl⟩
    | error e =>
      obtain ⟨front, c, back, parted, -, fails⟩ := (failing e).mp result
      exact absurd fails (sound c (by simp [parted])).not_fails
  · intro json passed c listed
    obtain ⟨entry, made, held⟩ := vectorsJson_eq_ok passed wellFormed.distinct c listed
    exact ⟨entry, held, (Case.vectorsJson_eq_ok (writable c listed) made).2⟩

/-- A record with one text.  An example of it stands with its bytes, unless the text has a NUL: then it would
be written without what follows. -/
theorem vectorsJson_of_wellFormed_text :
    let manifest : List Json → Manifest := fun examples => ⟨[⟨"r", ⟨.struct, [("s", .text)]⟩, examples⟩]⟩
    let plain : Json := .object [("s", .string "A")]
    let nul : Json := .object [("s", .string "A\x00B")]
    (∃ json entry vector, (manifest [plain]).vectorsJson = .ok json ∧ json.get? "r" = some entry ∧
      entry.get? "examples" = some (.array [vector]) ∧ vector.get? "input" = some plain ∧
      vector.get? "output" = some (.array [.ofNat 1, .ofNat 0, .ofNat 0, .ofNat 0, .ofNat 65])) ∧
    (manifest [plain, nul]).vectorsJson =
      .error (.vectorMismatch "r" 1 (.writing [1, 0, 0, 0, 65] [3, 0, 0, 0, 65, 0, 66])) := by
  intro manifest plain nul
  let c : List Json → Case := fun examples => ⟨"r", ⟨.struct, [("s", .text)]⟩, examples⟩
  let value : String → Value := fun s => .struct [("s", .text s)]
  have every : ∀ good s, (value s).EveryText good ↔ good s := by
    simp [value, Value.EveryText, Value.EveryLeaf, Value.EveryLeafOf]
  have wellFormed : ∀ examples, examples <+: [plain, nul] → (manifest examples).WellFormed := by
    intro examples front
    refine ⟨by simp [manifest], fun c' listed input among => ?_⟩
    obtain rfl : c' = c examples := by simpa [manifest, c] using listed
    have either : input = plain ∨ input = nul := by simpa using front.subset among
    rcases either with rfl | rfl <;> simp [plain, nul, Json.EveryNumber, Json.EveryNumberOf]
  have short : ∀ examples, examples <+: [plain, nul] → ∀ c' ∈ (manifest examples).cases,
      ∀ input ∈ c'.examples, ∀ v, Value.ofJson c'.definition.toType input = .ok v →
        v.EveryText fun s => (Utf8.encode s).length ≤ 2 ^ 32 - 1 := by
    intro examples front c' listed input among v described
    obtain rfl : c' = c examples := by simpa [manifest, c] using listed
    have either : input = plain ∨ input = nul := by simpa using front.subset among
    rcases either with rfl | rfl
    · obtain rfl : value "A" = v := Except.ok.inj described
      exact (every _ _).mpr (by decide)
    · obtain rfl : value "A\x00B" = v := Except.ok.inj described
      exact (every _ _).mpr (by decide)
  have replays : ∀ examples, (c examples).Replays plain := fun _ => ⟨value "A", rfl, (every _ _).mpr (by decide)⟩
  have verified : verify "r" ⟨.struct, [("s", .text)]⟩ = .ok () := rfl
  obtain ⟨plan, built⟩ : ∃ plan, Plan.build [("s", .text)] C.readerBase = .ok plan := ⟨_, rfl⟩
  obtain ⟨stands, entered, -⟩ := vectorsJson_of_wellFormed.2 (manifest [plain]) (wellFormed _ ⟨[nul], rfl⟩)
    (short _ ⟨[nul], rfl⟩)
  obtain ⟨-, -, fails⟩ := vectorsJson_of_wellFormed.2 (manifest [plain, nul]) (wellFormed _ ⟨[], rfl⟩)
    (short _ ⟨[], rfl⟩)
  constructor
  · have sound : (c [plain]).Sound :=
      ⟨verified, ⟨plan, built⟩, List.forall_mem_singleton.mpr (replays [plain])⟩
    obtain ⟨json, passed⟩ := stands.mpr (by simpa [manifest] using sound)
    obtain ⟨entry, found, -, vectors, listed, golden⟩ := entered json passed (c [plain]) (by simp [manifest, c])
    cases golden with
    | @cons _ vector _ _ first rest =>
      cases rest
      obtain ⟨input, output, ⟨v, described, encoded⟩, shown⟩ := first
      obtain rfl : value "A" = v := Except.ok.inj described
      obtain rfl : [1, 0, 0, 0, 65] = output := Except.ok.inj encoded
      exact ⟨json, entry, vector, passed, found, listed, input, shown⟩
  · apply (fails _).mpr
    have planned : (c [plain, nul]).plan = .ok plan := Case.plan_eq_ok_iff.mpr ⟨verified, built⟩
    refine ⟨[], c [plain, nul], [], rfl, by simp, ?_⟩
    apply @Case.Fails.misses _ plan [plain] [] nul _ planned rfl
      (List.forall_mem_singleton.mpr (replays [plain, nul]))
    exact @Case.Misses.cut (c [plain, nul]) 1 nul (value "A\x00B") _ _ rfl
      (fun free => (every _ _).mp free (by decide)) rfl rfl

end Manifest

end PackedRecord
