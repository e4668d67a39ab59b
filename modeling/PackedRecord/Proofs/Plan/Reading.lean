import PackedRecord.Proofs.Plan.Walk
import PackedRecord.Proofs.Value.Insertion

/-!
# Reading by plan agrees with reading by type

A plan reads fields at positions that are partly known in advance and partly kept by a cursor; a
type reads them one after the other.  Both take the same bytes for the same members.

* `Plan.Takes`: what a reading by plan takes, wherever the layout puts it.  It is closed under
  sequencing, also across the point at which the cursor starts.
* `Plan.takes_readSteps`: the steps of a layout take what spells its fields, and fill the record with
  the members.
* `Plan.read_agrees`: the two readers give the same record, or both find the buffer too short.
-/

namespace PackedRecord

/-! ## Bytes at a position -/

/-- These bytes stand in the buffer from a position on. -/
def Holds (buffer : List UInt8) (position : Nat) (used : List UInt8) : Prop :=
  ∃ before after, buffer = before ++ (used ++ after) ∧ before.length = position

theorem Holds.le {buffer used : List UInt8} {position : Nat} (holds : Holds buffer position used) :
    position + used.length ≤ buffer.length := by
  obtain ⟨before, after, rfl, rfl⟩ := holds
  simp only [List.length_append]
  omega

theorem holds_nil_iff {buffer : List UInt8} {position : Nat} :
    Holds buffer position [] ↔ position ≤ buffer.length := by
  constructor
  · exact Holds.le
  · intro inside
    exact ⟨buffer.take position, buffer.drop position, by simp, List.length_take_of_le inside⟩

/-- Two pieces stand there as one if the second starts where the first ends. -/
theorem holds_append_iff {buffer front back : List UInt8} {position : Nat} :
    Holds buffer position (front ++ back) ↔
      Holds buffer position front ∧ Holds buffer (position + front.length) back := by
  constructor
  · rintro ⟨before, after, rfl, rfl⟩
    exact ⟨⟨before, back ++ after, by simp, rfl⟩, ⟨before ++ front, after, by simp, by simp⟩⟩
  · rintro ⟨⟨before, after, rfl, rfl⟩, ⟨before', after', same, length⟩⟩
    rw [← List.append_assoc] at same
    obtain ⟨-, rest⟩ := List.append_inj same (by rw [length, List.length_append])
    exact ⟨before, after', by rw [rest, List.append_assoc], rfl⟩

theorem holds_zero_iff {buffer used : List UInt8} :
    Holds buffer 0 used ↔ ∃ rest, buffer = used ++ rest := by
  constructor
  · rintro ⟨before, after, rfl, empty⟩
    rw [List.length_eq_zero_iff] at empty
    exact ⟨after, by rw [empty, List.nil_append]⟩
  · rintro ⟨rest, rfl⟩
    exact ⟨[], rest, rfl, rfl⟩

theorem slice?_eq_some_iff {buffer bytes : List UInt8} {offset width : Nat} :
    slice? buffer offset width = some bytes ↔ bytes.length = width ∧ Holds buffer offset bytes := by
  constructor
  · intro sliced
    simp only [slice?] at sliced
    split at sliced
    · rename_i inside
      cases sliced
      refine ⟨by rw [List.length_take, List.length_drop]; omega, buffer.take offset,
        (buffer.drop offset).drop width, ?_, by rw [List.length_take]; omega⟩
      rw [List.take_append_drop, List.take_append_drop]
    · cases sliced
  · rintro ⟨rfl, holds⟩
    have inside := holds.le
    obtain ⟨before, after, rfl, rfl⟩ := holds
    rw [slice?, if_pos inside, List.drop_left, List.take_left]

namespace Plan

variable {α β : Type} {buffer : List UInt8}

/-! ## What a reading by plan takes -/

/-- A reading by plan takes from the buffer what `spells` the value that it yields, and gives up only
where the buffer is too short.  The bytes start at `before`, given the cursor, and end at `after`,
given the cursor that is left. -/
structure Takes (buffer : List UInt8) (before after : Access) (reader : Reader α)
    (spells : List UInt8 → α → Prop) : Prop where
  ok_iff : ∀ cursor, before.offset cursor ≤ buffer.length → ∀ v finish,
    (∃ cursor', reader cursor = .ok (v, cursor') ∧ after.offset cursor' = finish) ↔
      ∃ used, spells used v ∧ Holds buffer (before.offset cursor) used ∧
        finish = before.offset cursor + used.length
  fault : ∀ cursor, before.offset cursor ≤ buffer.length → ∀ fault, reader cursor = .error fault →
    fault = .bufferTooShort

theorem bind_eq_ok_iff {reader : Reader α} {next : α → Reader β} {cursor cursor' : Nat} {v : β} :
    (reader >>= next) cursor = .ok (v, cursor') ↔
      ∃ a mid, reader cursor = .ok (a, mid) ∧ next a mid = .ok (v, cursor') := by
  simp only [bind, StateT.bind, Except.bind]
  cases reader cursor with
  | ok result =>
    constructor
    · intro second
      exact ⟨result.1, result.2, rfl, second⟩
    · rintro ⟨_, _, ⟨⟩, second⟩
      exact second
  | error fault => simp

theorem Takes.congr {before after : Access} {reader : Reader α}
    {spells spells' : List UInt8 → α → Prop} (takes : Takes buffer before after reader spells)
    (same : ∀ used v, spells used v ↔ spells' used v) : Takes buffer before after reader spells' := by
  refine ⟨fun cursor inside v finish => ?_, takes.fault⟩
  rw [takes.ok_iff cursor inside v finish]
  simp only [same]

theorem takes_pure (access : Access) (a : α) :
    Takes buffer access access (pure a) (fun used v => used = [] ∧ v = a) := by
  refine ⟨fun cursor inside v finish => ⟨?_, ?_⟩, fun cursor inside fault failed => by cases failed⟩
  · rintro ⟨_, ⟨⟩, rfl⟩
    exact ⟨[], ⟨rfl, rfl⟩, holds_nil_iff.mpr inside, rfl⟩
  · rintro ⟨_, ⟨rfl, rfl⟩, -, rfl⟩
    exact ⟨cursor, rfl, rfl⟩

/-- One reading after another takes one piece after another.  The second is run only with what the
first can yield. -/
theorem Takes.bind_of_spells {before between after : Access} {reader : Reader α}
    {next : α → Reader β} {first : List UInt8 → α → Prop} {second : α → List UInt8 → β → Prop}
    (takesFirst : Takes buffer before between reader first)
    (takesSecond : ∀ a front, first front a → Takes buffer between after (next a) (second a)) :
    Takes buffer before after (reader >>= next) (fun used v =>
      ∃ a front back, used = front ++ back ∧ first front a ∧ second a back v) := by
  have firstPart : ∀ cursor, before.offset cursor ≤ buffer.length → ∀ a mid, reader cursor = .ok (a, mid) →
      ∃ front, first front a ∧ Holds buffer (before.offset cursor) front ∧
        between.offset mid = before.offset cursor + front.length ∧ between.offset mid ≤ buffer.length := by
    intro cursor inside a mid read
    obtain ⟨front, spelled, holds, finish⟩ := (takesFirst.ok_iff cursor inside a _).mp ⟨mid, read, rfl⟩
    exact ⟨front, spelled, holds, finish, finish ▸ holds.le⟩
  refine ⟨fun cursor inside v finish => ⟨?_, ?_⟩, fun cursor inside fault failed => ?_⟩
  · rintro ⟨cursor', read, rfl⟩
    obtain ⟨a, mid, readFirst, readSecond⟩ := bind_eq_ok_iff.mp read
    obtain ⟨front, spelledFirst, holdsFirst, endFirst, insideFirst⟩ := firstPart cursor inside a mid readFirst
    obtain ⟨back, spelledSecond, holdsSecond, endSecond⟩ :=
      ((takesSecond a front spelledFirst).ok_iff mid insideFirst v _).mp ⟨cursor', readSecond, rfl⟩
    rw [endFirst] at holdsSecond endSecond
    refine ⟨front ++ back, ⟨a, front, back, rfl, spelledFirst, spelledSecond⟩,
      holds_append_iff.mpr ⟨holdsFirst, holdsSecond⟩, ?_⟩
    rw [endSecond, List.length_append, Nat.add_assoc]
  · rintro ⟨_, ⟨a, front, back, rfl, spelledFirst, spelledSecond⟩, holds, rfl⟩
    obtain ⟨holdsFirst, holdsSecond⟩ := holds_append_iff.mp holds
    obtain ⟨mid, readFirst, endFirst⟩ :=
      (takesFirst.ok_iff cursor inside a _).mpr ⟨front, spelledFirst, holdsFirst, rfl⟩
    have insideFirst : between.offset mid ≤ buffer.length := endFirst ▸ holdsFirst.le
    rw [← endFirst] at holdsSecond
    obtain ⟨cursor', readSecond, endSecond⟩ :=
      ((takesSecond a front spelledFirst).ok_iff mid insideFirst v _).mpr
        ⟨back, spelledSecond, holdsSecond, rfl⟩
    refine ⟨cursor', bind_eq_ok_iff.mpr ⟨a, mid, readFirst, readSecond⟩, ?_⟩
    rw [endSecond, endFirst, List.length_append, Nat.add_assoc]
  · simp only [Bind.bind, StateT.bind, Except.bind] at failed
    cases read : reader cursor with
    | ok result =>
      rw [read] at failed
      obtain ⟨front, spelledFirst, -, -, insideFirst⟩ := firstPart cursor inside result.1 result.2 read
      exact (takesSecond result.1 front spelledFirst).fault result.2 insideFirst fault failed
    | error fault' =>
      rw [read] at failed
      cases failed
      exact takesFirst.fault cursor inside fault read

theorem Takes.bind {before between after : Access} {reader : Reader α} {next : α → Reader β}
    {first : List UInt8 → α → Prop} {second : α → List UInt8 → β → Prop}
    (takesFirst : Takes buffer before between reader first)
    (takesSecond : ∀ a, Takes buffer between after (next a) (second a)) :
    Takes buffer before after (reader >>= next) (fun used v =>
      ∃ a front back, used = front ++ back ∧ first front a ∧ second a back v) :=
  takesFirst.bind_of_spells fun a _ _ => takesSecond a

/-! ## Fields -/

theorem takes_readFixed (access : Access) (width : Nat) :
    Takes buffer access (access.shift width) (readFixed buffer access width)
      (fun used bytes => used.length = width ∧ bytes = used) := by
  have run : ∀ cursor, readFixed buffer access width cursor =
      (slice? buffer (access.offset cursor) width).elim (.error .bufferTooShort) fun bytes =>
        .ok (bytes, if access = .cursor then access.offset cursor + width else cursor) := by
    intro cursor
    cases access with
    | static offset =>
      simp only [readFixed, bind, StateT.bind, Except.bind, get, getThe, MonadStateOf.get, StateT.get,
        pure, Except.pure, Access.offset]
      cases slice? buffer offset width <;> rfl
    | cursor =>
      simp only [readFixed, bind, StateT.bind, Except.bind, get, getThe, MonadStateOf.get, StateT.get,
        pure, Except.pure, Access.offset]
      cases slice? buffer cursor width <;> rfl
  have finishes : ∀ cursor,
      (access.shift width).offset (if access = .cursor then access.offset cursor + width else cursor) =
        access.offset cursor + width := by
    intro cursor
    cases access <;> rfl
  refine ⟨fun cursor inside bytes finish => ⟨?_, ?_⟩, fun cursor inside fault failed => ?_⟩
  · rintro ⟨cursor', read, rfl⟩
    rw [run] at read
    cases sliced : slice? buffer (access.offset cursor) width with
    | none =>
      rw [sliced] at read
      cases read
    | some found =>
      rw [sliced] at read
      cases read
      obtain ⟨long, holds⟩ := slice?_eq_some_iff.mp sliced
      exact ⟨bytes, ⟨long, rfl⟩, holds, by rw [finishes, long]⟩
  · rintro ⟨used, ⟨long, rfl⟩, holds, rfl⟩
    refine ⟨_, ?_, by rw [finishes, long]⟩
    rw [run, slice?_eq_some_iff.mpr ⟨long, holds⟩]
    rfl
  · rw [run] at failed
    cases sliced : slice? buffer (access.offset cursor) width with
    | none =>
      rw [sliced] at failed
      cases failed
      rfl
    | some found =>
      rw [sliced] at failed
      cases failed

/-- What bytes that were taken decode to, if they do. -/
theorem takes_decoded (access : Access) (ty : FieldType) (bytes : List UInt8) :
    Takes buffer access access
      (match Value.decode ty bytes with
      | .ok v => pure v
      | .error _ => throw .bufferTooShort)
      (fun used v => used = [] ∧ ty.Spells bytes v) := by
  cases decoded : Value.decode ty bytes with
  | ok w =>
    refine (takes_pure access w).congr fun used v => ?_
    rw [← Value.decode_eq_ok_iff, decoded, Except.ok.injEq, eq_comm (a := w)]
  | error fault =>
    refine ⟨fun cursor inside v finish => ⟨?_, ?_⟩, fun cursor inside fault failed => ?_⟩
    · rintro ⟨_, ⟨⟩, -⟩
    · rintro ⟨used, ⟨-, spelled⟩, -⟩
      rw [← Value.decode_eq_ok_iff, decoded] at spelled
      cases spelled
    · cases failed
      rfl

theorem takes_readValue {ty : FieldType} {width : Nat} (fixed : ty.fixedWidth? = some width)
    (access : Access) :
    Takes buffer access (access.shift width) (readValue buffer access ty width) ty.Spells := by
  refine ((takes_readFixed access width).bind fun bytes =>
    takes_decoded (access.shift width) ty bytes).congr fun used v => ⟨?_, ?_⟩
  · rintro ⟨_, front, _, rfl, ⟨-, rfl⟩, rfl, spelled⟩
    rwa [List.append_nil]
  · intro spelled
    exact ⟨used, used, [], by simp, ⟨FieldType.Spells.length_eq ty width fixed used v spelled, rfl⟩,
      rfl, spelled⟩

theorem takes_readFlag :
    Takes buffer .cursor .cursor (readFlag buffer)
      (fun used flag => ∃ b : UInt8, used = [b] ∧ flag = decide (b ≠ 0)) := by
  refine ((takes_readFixed .cursor 1).bind fun bytes => takes_pure .cursor _).congr fun used flag => ⟨?_, ?_⟩
  · rintro ⟨_, front, _, rfl, ⟨long, rfl⟩, rfl, rfl⟩
    obtain ⟨b, rfl⟩ := List.length_eq_one_iff.mp long
    exact ⟨b, by simp, by simp⟩
  · rintro ⟨b, rfl, rfl⟩
    exact ⟨[b], [b], [], rfl, ⟨rfl, rfl⟩, rfl, by simp⟩

theorem takes_readText : Takes buffer .cursor .cursor (readText buffer) FieldType.text.Spells := by
  refine ((takes_readFixed .cursor 4).bind fun header =>
    (takes_readFixed .cursor (ofLittleEndian header)).bind fun payload =>
      takes_pure .cursor (Value.text (Utf8.decodeLossy payload))).congr fun used v => ⟨?_, ?_⟩
  · rintro ⟨_, header, _, rfl, ⟨width, rfl⟩, _, payload, _, rfl, ⟨announced, rfl⟩, rfl, rfl⟩
    rw [List.append_nil]
    exact .text width announced
  · intro spelled
    cases spelled with
    | @text header payload width announced =>
      exact ⟨header, header, payload, rfl, ⟨width, rfl⟩, payload, payload, [], by simp,
        ⟨announced, rfl⟩, rfl, rfl⟩

theorem takes_readTexts (count : Nat) :
    Takes buffer .cursor .cursor (readTexts buffer count) (FieldType.SpellsItems .text count) := by
  induction count with
  | zero =>
    refine (takes_pure .cursor []).congr fun used items => ⟨?_, ?_⟩
    · rintro ⟨rfl, rfl⟩
      exact .nil
    · intro spelled
      cases spelled with
      | nil => exact ⟨rfl, rfl⟩
  | succ count inductionHypothesis =>
    refine (takes_readText.bind fun item => inductionHypothesis.bind fun items =>
      takes_pure .cursor (item :: items)).congr fun used items => ⟨?_, ?_⟩
    · rintro ⟨item, first, _, rfl, head, items, rest, _, rfl, tail, rfl, rfl⟩
      rw [List.append_nil]
      exact .cons head tail
    · intro spelled
      cases spelled with
      | cons head tail => exact ⟨_, _, _, rfl, head, _, _, [], by simp, tail, rfl, rfl⟩

theorem takes_readOption {inner : FieldType} {reader : Reader Value}
    (takesInner : Takes buffer .cursor .cursor reader inner.Spells) :
    Takes buffer .cursor .cursor
      (do if ← readFlag buffer then return Value.present (← reader) else return Value.absent)
      (FieldType.option inner).Spells := by
  have takesRest : ∀ flag : Bool, Takes buffer .cursor .cursor
      (if flag then (do return Value.present (← reader)) else return Value.absent) (fun used v =>
        if flag then ∃ w, inner.Spells used w ∧ v = .present w else used = [] ∧ v = .absent) := by
    intro flag
    cases flag with
    | false => exact takes_pure .cursor Value.absent
    | true =>
      refine (takesInner.bind fun w => takes_pure .cursor (Value.present w)).congr fun used v => ⟨?_, ?_⟩
      · rintro ⟨w, front, _, rfl, spelled, rfl, rfl⟩
        exact ⟨w, by rwa [List.append_nil], rfl⟩
      · rintro ⟨w, spelled, rfl⟩
        exact ⟨w, used, [], by simp, spelled, rfl, rfl⟩
  refine (takes_readFlag.bind takesRest).congr fun used v => ⟨?_, ?_⟩
  · rintro ⟨_, _, back, rfl, ⟨b, rfl, rfl⟩, value⟩
    by_cases zero : b = 0
    · simp only [zero, ne_eq, not_true_eq_false, decide_false, Bool.false_eq_true, ↓reduceIte] at value
      obtain ⟨rfl, rfl⟩ := value
      exact zero ▸ .absent
    · simp only [zero, ne_eq, not_false_eq_true, decide_true, ↓reduceIte] at value
      obtain ⟨w, spelled, rfl⟩ := value
      exact .present zero spelled
  · intro spelled
    cases spelled with
    | absent => exact ⟨false, [0], [], rfl, ⟨0, rfl, by simp⟩, by simp⟩
    | @present _ presence bytes w announced value =>
      exact ⟨true, [presence], bytes, rfl, ⟨presence, rfl, by simp [announced]⟩, by simpa using value⟩

theorem takes_readTransfer_of_fixed {ty : FieldType} {width : Nat} {transfer : Access → Transfer}
    (moved : MovedFixed ty width transfer) (access : Access) :
    Takes buffer access (access.shift width) (readTransfer buffer (transfer access)) ty.Spells := by
  cases moved with
  | scalar kind => exact takes_readValue rfl access
  | block fixed => exact takes_readValue fixed access

theorem takes_readTransfer_atCursor {ty : FieldType} {transfer : Transfer}
    (moved : MovedAtCursor ty transfer) :
    Takes buffer .cursor .cursor (readTransfer buffer transfer) ty.Spells := by
  cases moved with
  | text => exact takes_readText
  | @texts count small =>
    refine ((takes_readTexts count.toNat).bind fun items =>
      takes_pure .cursor (Value.array items)).congr fun used v => ⟨?_, ?_⟩
    · rintro ⟨items, front, _, rfl, each, rfl, rfl⟩
      rw [List.append_nil]
      exact .array each
    · intro spelled
      cases spelled with
      | array each => exact ⟨_, used, [], by simp, each, rfl, rfl⟩
  | optionalText => exact takes_readOption takes_readText
  | optionalScalar kind => exact takes_readOption (takes_readValue rfl .cursor)

/-! ## Steps -/

theorem readSteps_append (record : Value) (steps more : List Step) :
    readSteps buffer record (steps ++ more) =
      (readSteps buffer record steps >>= fun record => readSteps buffer record more) := by
  induction steps generalizing record with
  | nil => rfl
  | cons step steps inductionHypothesis =>
    cases step with
    | seedCursor offset =>
      simp only [List.cons_append, readSteps, bind_assoc, inductionHypothesis]
    | move place transfer =>
      simp only [List.cons_append, readSteps, bind_assoc, inductionHypothesis]

/-- Starting the cursor takes no bytes: it then says what was known before. -/
theorem takes_readSteps_seed {state : LayoutState} {after : Access} {record : Value}
    {steps : List Step} {spells : List UInt8 → Value → Prop}
    (takes : Takes buffer .cursor after (readSteps buffer record steps) spells) :
    Takes buffer state.access after (readSteps buffer record (state.seed ++ steps)) spells := by
  by_cases dynamic : state.dynamic = true
  · rw [LayoutState.access, LayoutState.seed, if_pos dynamic, if_pos dynamic]
    exact takes
  · rw [LayoutState.access, LayoutState.seed, if_neg dynamic, if_neg dynamic]
    exact ⟨fun cursor inside => takes.ok_iff state.staticOffset inside,
      fun cursor inside => takes.fault state.staticOffset inside⟩

theorem takes_readSteps_move {before between after : Access} {record : Value} (place : Place)
    {transfer : Transfer} {steps : List Step} {ty : FieldType} {fields : List Field}
    (first : Takes buffer before between (readTransfer buffer transfer) ty.Spells)
    (rest : ∀ v, Takes buffer between after (readSteps buffer (record.insertPath place.path v) steps)
      (fun used result => ∃ members, FieldType.SpellsFields fields used members ∧
        result = (record.insertPath place.path v).insertMembers place.scope.members members)) :
    Takes buffer before after (readSteps buffer record (.move place transfer :: steps))
      (fun used result => ∃ members, FieldType.SpellsFields ((place.name, ty) :: fields) used members ∧
        result = record.insertMembers place.scope.members members) := by
  refine (first.bind rest).congr fun used result => ⟨?_, ?_⟩
  · rintro ⟨v, front, back, rfl, head, members, tail, rfl⟩
    exact ⟨(place.name, v) :: members, .cons head tail, rfl⟩
  · rintro ⟨_, spelled, rfl⟩
    cases spelled with
    | cons head tail => exact ⟨_, _, _, rfl, head, _, tail, rfl⟩

/-- The steps of a layout take what spells its fields, and fill the struct at their scope with the
members.  Names must be new there, and a nested struct must have a field that brings it into being. -/
theorem takes_readSteps {fields : List Field} {state final : LayoutState} {steps : List Step}
    (laid : LaidOut fields state steps final) {record : Value} {outer : List (String × Value)}
    (opened : record.membersAt? state.scope.members = some outer)
    (distinct : (outer.map Prod.fst ++ fields.map Prod.fst).Nodup)
    (scopes : FieldType.EveryScopeIn (fun inner => inner ≠ [] ∧ (inner.map Prod.fst).Nodup) fields) :
    Takes buffer state.access final.access (readSteps buffer record steps) (fun used result =>
      ∃ members, FieldType.SpellsFields fields used members ∧
        result = record.insertMembers state.scope.members members) := by
  -- By induction on the layout, for any record that is open at the scope: each step adds a member there,
  -- so what the fields after it find is a record with one more member, still with distinct names.
  induction laid generalizing record outer with
  | nil =>
    refine (takes_pure _ record).congr fun used result => ⟨?_, ?_⟩
    · rintro ⟨rfl, rfl⟩
      exact ⟨[], .nil, rfl⟩
    · rintro ⟨_, ⟨⟩, rfl⟩
      exact ⟨rfl, rfl⟩
  | @fixed name ty fields state next final width transfer access steps moved advanced rest
      inductionHypothesis =>
    obtain ⟨accessBefore, accessAfter⟩ := LayoutState.advance?_access advanced
    obtain ⟨fresh, distinctRest⟩ := Value.fresh_of_nodup distinct
    have first : Takes buffer state.access next.access (readTransfer buffer (transfer access))
        ty.Spells := by
      rw [accessBefore, accessAfter]
      exact takes_readTransfer_of_fixed moved access
    rw [(LayoutState.advance?_frame advanced).1] at inductionHypothesis
    refine takes_readSteps_move ⟨state.scope, name⟩ first fun v => ?_
    exact inductionHypothesis (Value.membersAt?_insertPath opened fresh v) (by simpa using distinctRest)
      scopes.2
  | @atCursor name ty fields state final transfer steps moved rest inductionHypothesis =>
    obtain ⟨fresh, distinctRest⟩ := Value.fresh_of_nodup distinct
    refine takes_readSteps_seed (takes_readSteps_move ⟨state.scope, name⟩
      (takes_readTransfer_atCursor moved) fun v => ?_)
    exact inductionHypothesis (Value.membersAt?_insertPath opened fresh v) (by simpa using distinctRest)
      scopes.2
  | @nested name inner fields state last final innerSteps steps within rest inductionWithin
      inductionRest =>
    obtain ⟨fresh, distinctRest⟩ := Value.fresh_of_nodup distinct
    obtain ⟨⟨⟨nonempty, distinctInner⟩, scopesInner⟩, scopesRest⟩ := scopes
    have scope : last.ascend.scope.members = state.scope.members := by rw [within.scope_ascend]
    have takesInner := inductionWithin (Value.membersAt?_enter opened fresh) distinctInner scopesInner
    have whole : ∀ used members, FieldType.SpellsFields inner used members →
        record.insertMembers (state.scope.members ++ [name]) members =
          record.insertPath (state.scope.members ++ [name]) (.struct members) := by
      intro used members spelled
      have names := spelled.names_eq
      refine Value.insertMembers_enter opened fresh ?_ (names ▸ distinctInner)
      rintro rfl
      exact nonempty (List.map_eq_nil_iff.mp names.symm)
    have takesRest : ∀ result front, (∃ members, FieldType.SpellsFields inner front members ∧
        result = record.insertMembers (state.descend name).scope.members members) →
        Takes buffer last.access final.access (readSteps buffer result steps) (fun used final =>
          ∃ members, FieldType.SpellsFields fields used members ∧
            final = result.insertMembers state.scope.members members) := by
      rintro result front ⟨members, spelled, rfl⟩
      have filled := Value.membersAt?_insertPath opened fresh (.struct members)
      rw [← whole front members spelled, ← scope] at filled
      have takes := inductionRest filled (by simpa using distinctRest) scopesRest
      rw [scope] at takes
      exact takes
    rw [readSteps_append]
    refine (takesInner.bind_of_spells takesRest).congr fun used result => ⟨?_, ?_⟩
    · rintro ⟨_, front, back, rfl, ⟨members, inside, rfl⟩, others, tail, rfl⟩
      refine ⟨(name, .struct members) :: others, .cons (.struct inside) tail, ?_⟩
      exact congrArg (Value.insertMembers · state.scope.members others) (whole front members inside)
    · rintro ⟨_, spelled, rfl⟩
      cases spelled with
      | cons head tail =>
        cases head with
        | @struct _ _ members inside =>
          refine ⟨_, _, _, rfl, ⟨members, inside, rfl⟩, _, tail, ?_⟩
          exact congrArg (Value.insertMembers · state.scope.members _) (whole _ members inside).symm

end Plan

/-! ## The two readers -/

/-- Reading a field that is moved at the cursor can only run out of bytes. -/
theorem MovedAtCursor.onlyRunsOut {ty : FieldType} {transfer : Transfer}
    (moved : MovedAtCursor ty transfer) (path : Path) : (ty.read path).OnlyRunsOut := by
  have text : ∀ path, (FieldType.text.read path).OnlyRunsOut := by
    intro path
    rw [FieldType.read_text]
    exact (Reading.onlyRunsOut_text path).map Value.text
  have option : ∀ inner : FieldType, (∀ path, (inner.read path).OnlyRunsOut) →
      ((FieldType.option inner).read path).OnlyRunsOut := by
    intro inner only
    rw [FieldType.read_option]
    refine (Reading.onlyRunsOut_byte path).bind fun presence => ?_
    split
    · exact Reading.onlyRunsOut_pure _
    · exact (only path).map Value.present
  cases moved with
  | text => exact text path
  | @texts count small =>
    rw [FieldType.read_array]
    exact (FieldType.onlyRunsOut_readItems text path 0 count.toNat).map Value.array
  | optionalText => exact option _ text
  | optionalScalar kind => exact option _ fun path => FieldType.onlyRunsOut_read _ _ rfl path

/-- What is laid out has no enum in it, so reading it by type can only run out of bytes. -/
theorem LaidOut.onlyRunsOut {fields : List Field} {state final : LayoutState} {steps : List Step}
    (laid : LaidOut fields state steps final) (path : Path) :
    (FieldType.readFields fields path).OnlyRunsOut := by
  have cons : ∀ {name ty fields path}, (FieldType.read ty (path.member name)).OnlyRunsOut →
      (FieldType.readFields fields path).OnlyRunsOut →
      (FieldType.readFields ((name, ty) :: fields) path).OnlyRunsOut := by
    intro name ty fields path first rest
    rw [FieldType.readFields_cons]
    exact first.bind fun v => rest.bind fun members => Reading.onlyRunsOut_pure ((name, v) :: members)
  induction laid generalizing path with
  | nil =>
    rw [FieldType.readFields_nil]
    exact Reading.onlyRunsOut_pure []
  | fixed moved advanced rest inductionHypothesis =>
    exact cons (FieldType.onlyRunsOut_read _ _ moved.fixedWidth? _) (inductionHypothesis path)
  | atCursor moved rest inductionHypothesis =>
    exact cons (moved.onlyRunsOut _) (inductionHypothesis path)
  | nested within rest inductionWithin inductionRest =>
    refine cons ?_ (inductionRest path)
    rw [FieldType.read_struct]
    exact (inductionWithin _).map Value.struct

namespace Plan

variable {buffer : List UInt8} {fields : List Field} {base : String} {plan : Plan}

/-- A plan reads by its steps once the buffer has the part with known positions. -/
theorem read_eq_ok_iff_readSteps {v : Value} :
    plan.read buffer = .ok v ↔ plan.fixedSize ≤ buffer.length ∧
      ∃ cursor, readSteps buffer (.struct []) plan.steps plan.fixedSize = .ok (v, cursor) := by
  by_cases short : buffer.length < plan.fixedSize
  · simp only [read, if_pos short, reduceCtorEq, false_iff, not_and]
    omega
  · rw [read, if_neg short]
    simp only [StateT.run', Functor.map, Except.map]
    cases readSteps buffer (.struct []) plan.steps plan.fixedSize with
    | ok result =>
      obtain ⟨w, cursor⟩ := result
      simp only [Except.ok.injEq, Prod.mk.injEq]
      exact ⟨fun same => ⟨by omega, cursor, same, rfl⟩, fun ⟨_, _, same, _⟩ => same⟩
    | error fault => simp

/-- The steps of a plan take a record from the start of the buffer. -/
theorem takes_readSteps_of_build (built : build fields base = .ok plan)
    (distinct : (fields.map Prod.fst).Nodup)
    (scopes : FieldType.EveryScopeIn (fun inner => inner ≠ [] ∧ (inner.map Prod.fst).Nodup) fields) :
    ∃ after, Takes buffer (.static 0) after (readSteps buffer (.struct []) plan.steps)
      (FieldType.struct fields).Spells := by
  obtain ⟨final, laid, -⟩ := laidOut_of_build built
  have takes : Takes buffer (.static 0) final.access (readSteps buffer (.struct []) plan.steps) _ :=
    takes_readSteps laid rfl distinct scopes
  refine ⟨final.access, takes.congr fun used v => ⟨?_, ?_⟩⟩
  · rintro ⟨members, spelled, rfl⟩
    change (FieldType.struct fields).Spells used ((Value.struct []).insertMembers [] members)
    rw [Value.insertMembers_empty (spelled.names_eq ▸ distinct)]
    exact .struct spelled
  · intro spelled
    cases spelled with
    | @struct _ _ members each =>
      exact ⟨members, each, (Value.insertMembers_empty (each.names_eq ▸ distinct)).symm⟩

/-- A plan reads exactly the buffers that start with a record. -/
theorem read_eq_ok_iff (built : build fields base = .ok plan) (distinct : (fields.map Prod.fst).Nodup)
    (scopes : FieldType.EveryScopeIn (fun inner => inner ≠ [] ∧ (inner.map Prod.fst).Nodup) fields)
    {v : Value} :
    plan.read buffer = .ok v ↔
      ∃ used rest, buffer = used ++ rest ∧ (FieldType.struct fields).Spells used v := by
  obtain ⟨after, takes⟩ := takes_readSteps_of_build built distinct scopes
  rw [read_eq_ok_iff_readSteps]
  constructor
  · rintro ⟨-, cursor, run⟩
    obtain ⟨used, spelled, holds, -⟩ :=
      (takes.ok_iff plan.fixedSize (Nat.zero_le _) v _).mp ⟨cursor, run, rfl⟩
    obtain ⟨rest, split⟩ := holds_zero_iff.mp holds
    exact ⟨used, rest, split, spelled⟩
  · rintro ⟨used, rest, split, spelled⟩
    obtain ⟨cursor, run, -⟩ := (takes.ok_iff plan.fixedSize (Nat.zero_le _) v _).mpr
      ⟨used, spelled, holds_zero_iff.mpr ⟨rest, split⟩, rfl⟩
    obtain ⟨final, laid, size⟩ := laidOut_of_build built
    cases spelled with
    | struct each =>
      have long : final.staticOffset ≤ 0 + used.length := (laid.staticOffset_of_spells each).1
      refine ⟨?_, cursor, run⟩
      rw [size, split, List.length_append]
      omega

/-- A plan gives up only where the buffer is too short. -/
theorem read_fault (built : build fields base = .ok plan) (distinct : (fields.map Prod.fst).Nodup)
    (scopes : FieldType.EveryScopeIn (fun inner => inner ≠ [] ∧ (inner.map Prod.fst).Nodup) fields)
    {fault : Fault} (failed : plan.read buffer = .error fault) : fault = .bufferTooShort := by
  obtain ⟨after, takes⟩ := takes_readSteps_of_build built distinct scopes
  simp only [read] at failed
  split at failed
  · cases failed
    rfl
  · simp only [StateT.run', Functor.map, Except.map] at failed
    split at failed
    · rename_i run
      cases failed
      exact takes.fault plan.fixedSize (Nat.zero_le _) fault run
    · cases failed

/-- Reading by plan and reading by type give the same record, whatever follows it in the buffer, or
both find that the buffer is too short. -/
theorem read_agrees (built : build fields base = .ok plan) (distinct : (fields.map Prod.fst).Nodup)
    (scopes : FieldType.EveryScopeIn (fun inner => inner ≠ [] ∧ (inner.map Prod.fst).Nodup) fields)
    (buffer : List UInt8) :
    match (FieldType.struct fields).read Path.root (Source.ofBytes buffer) with
    | .ok v _ => plan.read buffer = .ok v
    | .error fault _ =>
      (∃ path, fault = .unexpectedEnd path) ∧ plan.read buffer = .error .bufferTooShort := by
  have reference := FieldType.takes_read (.struct fields) Path.root (Source.ofBytes buffer)
  cases read : (FieldType.struct fields).read Path.root (Source.ofBytes buffer) with
  | ok v s =>
    obtain ⟨used, spelled, split, -⟩ := (reference v s).mp read
    exact (read_eq_ok_iff built distinct scopes).mpr ⟨used, s.rest, split, spelled⟩
  | error fault s =>
    constructor
    · obtain ⟨final, laid, -⟩ := laidOut_of_build built
      rw [FieldType.read_struct] at read
      exact (laid.onlyRunsOut Path.root).map Value.struct _ _ _ read
    · cases planned : plan.read buffer with
      | ok v =>
        obtain ⟨used, rest, split, spelled⟩ := (read_eq_ok_iff built distinct scopes).mp planned
        rw [(reference v ⟨rest, 0 + used.length⟩).mpr ⟨used, spelled, split, rfl⟩] at read
        cases read
      | error fault' => rw [read_fault built distinct scopes planned]

/-- A record with a text in a nested struct: the cursor starts inside the struct and goes on after
it.  The whole record is read and what follows is not looked at; without its last byte there is no
record. -/
theorem read_agrees_nested :
    ∃ plan, build [("id", .scalar .u16), ("inner", .struct [("label", .text), ("tag", .scalar .u8)]),
        ("flag", .option (.scalar .u8))] "out" = .ok plan ∧
      plan.read [1, 0, 1, 0, 0, 0, 65, 9, 1, 5, 77] = .ok (.struct [("id", .scalar (.u16 1)),
        ("inner", .struct [("label", .text "A"), ("tag", .scalar (.u8 9))]),
        ("flag", .present (.scalar (.u8 5)))]) ∧
      plan.read [1, 0, 1, 0, 0, 0, 65, 9, 1] = .error .bufferTooShort := by
  have scopes : FieldType.EveryScopeIn (fun inner => inner ≠ [] ∧ (inner.map Prod.fst).Nodup)
      [("id", .scalar .u16), ("inner", .struct [("label", .text), ("tag", .scalar .u8)]),
        ("flag", .option (.scalar .u8))] := by
    simp [FieldType.EveryScopeIn, FieldType.EveryScope]
  refine ⟨_, rfl, ?_, ?_⟩
  · exact read_agrees rfl (by decide) scopes [1, 0, 1, 0, 0, 0, 65, 9, 1, 5, 77]
  · exact (read_agrees rfl (by decide) scopes [1, 0, 1, 0, 0, 0, 65, 9, 1]).2

end Plan

end PackedRecord
