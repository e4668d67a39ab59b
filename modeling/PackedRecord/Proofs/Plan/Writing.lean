import PackedRecord.Proofs.Plan.Walk
import PackedRecord.Proofs.Value.Insertion
import PackedRecord.Proofs.Value.Visible

/-!
# Writing by plan agrees with writing by type

A plan writes fields at positions that are partly known in advance and partly kept by a cursor, looks
members up by path, and may find at any field that the buffer is too short or that the value does not
fit its type.  A type writes its fields one after the other, and knows of no buffer.

* `Plan.Puts`: what a writing by plan does to a buffer of zeros of any size.  It is closed under
  sequencing, also across the point at which the cursor starts.
* `Plan.puts_writeSteps`: the steps of a layout put out the bytes of its fields.
* `Plan.write_eq_ok_iff`: the two writers give the same bytes, for every capacity.
* `Plan.writeNew_agrees`: so they do in a new buffer, if there can be one of that capacity.
-/

namespace PackedRecord

/-- The fields so far end at `position`.  Before the cursor has started, it stands where it stood in
the beginning. -/
def Access.Stands (start : Nat) (access : Access) (cursor position : Nat) : Prop :=
  match access with
  | .static offset => position = offset ∧ cursor = start
  | .cursor => position = cursor

namespace Plan

variable {start : Nat}

/-! ## What a writing by plan puts out -/

/-- A writing by plan that puts out `wire?` behind what is done: it fails if there is nothing to put
out, and finds the buffer too short exactly if there are more bytes than room. -/
structure Puts (start : Nat) (before after : Access) (writer : Writer Unit)
    (wire? : Option (List UInt8)) : Prop where
  fails : wire? = none → ∀ done room cursor, before.Stands start cursor done.length →
    ∃ e, writer ⟨done ++ List.replicate room 0, cursor⟩ = .error e
  fits : ∀ bytes, wire? = some bytes → ∀ done left cursor, before.Stands start cursor done.length →
    ∃ cursor', writer ⟨done ++ List.replicate (bytes.length + left) 0, cursor⟩ =
        .ok ((), ⟨(done ++ bytes) ++ List.replicate left 0, cursor'⟩) ∧
      after.Stands start cursor' (done ++ bytes).length
  short : ∀ bytes, wire? = some bytes → ∀ done room cursor, before.Stands start cursor done.length →
    room < bytes.length →
    writer ⟨done ++ List.replicate room 0, cursor⟩ = .error (.fault .bufferTooShort)

theorem puts_throw (before after : Access) (e : WriteError) : Puts start before after (throw e) none :=
  ⟨fun _ _ _ _ _ => ⟨e, rfl⟩, nofun, nofun⟩

theorem puts_pure (access : Access) : Puts start access access (pure ()) (some []) := by
  refine ⟨nofun, ?_, ?_⟩
  · rintro _ ⟨⟩ done left cursor stands
    exact ⟨cursor, by rw [List.append_nil, List.length_nil, Nat.zero_add]; rfl, by simpa using stands⟩
  · rintro _ ⟨⟩ done room cursor stands impossible
    simp at impossible

theorem bind_of_error {α : Type} {writer : Writer α} {next : α → Writer Unit} {w : Written}
    {e : WriteError} (failed : writer w = .error e) : (writer >>= next) w = .error e := by
  simp only [bind, StateT.bind, Except.bind, failed]

theorem bind_of_ok {α : Type} {writer : Writer α} {next : α → Writer Unit} {w w' : Written} {a : α}
    (wrote : writer w = .ok (a, w')) : (writer >>= next) w = next a w' := by
  simp only [bind, StateT.bind, Except.bind, wrote]

/-- One writing after another puts out one piece after another. -/
theorem Puts.andThen {before between after : Access} {writer next : Writer Unit}
    {wire? wire'? : Option (List UInt8)} (first : Puts start before between writer wire?)
    (second : Puts start between after next wire'?) :
    Puts start before after (writer >>= fun _ => next)
      (wire?.bind fun front => wire'?.map (front ++ ·)) := by
  have afterFirst : ∀ front, wire? = some front → ∀ done left cursor,
      before.Stands start cursor done.length →
      ∃ cursor', between.Stands start cursor' (done ++ front).length ∧
        (writer >>= fun _ => next) ⟨done ++ List.replicate (front.length + left) 0, cursor⟩ =
          next ⟨(done ++ front) ++ List.replicate left 0, cursor'⟩ := by
    intro front piece done left cursor stands
    obtain ⟨cursor', wrote, standsBetween⟩ := first.fits front piece done left cursor stands
    exact ⟨cursor', standsBetween, bind_of_ok wrote⟩
  refine ⟨fun nothing done room cursor stands => ?_, ?_, ?_⟩
  · cases piece : wire? with
    | none =>
      obtain ⟨e, failed⟩ := first.fails piece done room cursor stands
      exact ⟨e, bind_of_error failed⟩
    | some front =>
      have nothing' : wire'? = none := by simpa [piece] using nothing
      by_cases fits : front.length ≤ room
      · obtain ⟨left, rfl⟩ := Nat.exists_eq_add_of_le fits
        obtain ⟨cursor', standsBetween, run⟩ := afterFirst front piece done left cursor stands
        rw [run]
        exact second.fails nothing' _ _ _ standsBetween
      · exact ⟨_, bind_of_error (first.short front piece done room cursor stands (by omega))⟩
  · intro bytes pieces done left cursor stands
    obtain ⟨front, piece, back, piece', rfl⟩ :
        ∃ front, wire? = some front ∧ ∃ back, wire'? = some back ∧ front ++ back = bytes := by
      simpa [Option.bind_eq_some_iff, Option.map_eq_some_iff] using pieces
    obtain ⟨cursor', standsBetween, run⟩ := afterFirst front piece done (back.length + left) cursor stands
    obtain ⟨cursor'', wrote, standsAfter⟩ := second.fits back piece' _ left cursor' standsBetween
    refine ⟨cursor'', ?_, by simpa using standsAfter⟩
    rw [List.length_append, Nat.add_assoc, run, wrote, List.append_assoc done]
  · intro bytes pieces done room cursor stands tooLong
    obtain ⟨front, piece, back, piece', rfl⟩ :
        ∃ front, wire? = some front ∧ ∃ back, wire'? = some back ∧ front ++ back = bytes := by
      simpa [Option.bind_eq_some_iff, Option.map_eq_some_iff] using pieces
    by_cases fits : front.length ≤ room
    · obtain ⟨left, rfl⟩ := Nat.exists_eq_add_of_le fits
      obtain ⟨cursor', standsBetween, run⟩ := afterFirst front piece done left cursor stands
      rw [run]
      rw [List.length_append] at tooLong
      exact second.short back piece' _ _ _ standsBetween (by omega)
    · exact bind_of_error (first.short front piece done room cursor stands (by omega))

/-! ## Fields -/

/-- Bytes written behind what is done replace as many of the rest. -/
theorem overwrite_append (done rest bytes : List UInt8) :
    overwrite (done ++ rest) done.length bytes = (done ++ bytes) ++ rest.drop bytes.length := by
  rw [overwrite, List.take_left, List.drop_append, List.drop_eq_nil_of_le (Nat.le_add_right _ _),
    Nat.add_sub_cancel_left, List.nil_append]

theorem puts_writeFixed (access : Access) (bytes : List UInt8) :
    Puts start access (access.shift bytes.length) (writeFixed access bytes) (some bytes) := by
  have run : ∀ w : Written, writeFixed access bytes w =
      if access.offset w.cursor + bytes.length ≤ w.bytes.length then
        .ok ((), ⟨overwrite w.bytes (access.offset w.cursor) bytes,
          if access = .cursor then access.offset w.cursor + bytes.length else w.cursor⟩)
      else .error (.fault .bufferTooShort) := by
    intro w
    cases access <;> exact apply_ite (fun writer : Writer Unit => writer w) _ _ _
  have offset : ∀ cursor position, access.Stands start cursor position →
      access.offset cursor = position := by
    intro cursor position stands
    cases access with
    | static offset => exact stands.1.symm
    | cursor => exact stands.symm
  refine ⟨nofun, ?_, ?_⟩
  · rintro _ ⟨⟩ done left cursor stands
    rw [run, offset cursor _ stands, if_pos (by simp), overwrite_append, List.drop_replicate,
      Nat.add_sub_cancel_left]
    refine ⟨_, rfl, ?_⟩
    cases access with
    | static offset => exact ⟨by rw [List.length_append, stands.1], by simpa using stands.2⟩
    | cursor => simp [Access.shift, Access.Stands]
  · rintro _ ⟨⟩ done room cursor stands tooLong
    rw [run, offset cursor _ stands, if_neg (by simp; omega)]

/-- What depends on the value at a place is put out if there is one. -/
theorem puts_lookUp {before after : Access} (record : Value) (place : Place) {next : Value → Writer Unit}
    {wire? : Value → Option (List UInt8)} (each : ∀ v, Puts start before after (next v) (wire? v)) :
    Puts start before after (lookUp record place >>= next) ((record.getPath? place.path).bind wire?) := by
  cases found : record.getPath? place.path with
  | none =>
    have failed : lookUp record place = throw (.missingMember place.dotted) := by rw [lookUp, found]
    rw [failed]
    exact puts_throw before after _
  | some v =>
    have looked : lookUp record place = pure v := by rw [lookUp, found]
    rw [looked, pure_bind]
    exact each v

/-- What depends on the bytes of a value is put out if it has any. -/
theorem puts_encoded {before after : Access} (v : Value) (ty : FieldType) {next : List UInt8 → Writer Unit}
    {wire? : List UInt8 → Option (List UInt8)}
    (each : ∀ bytes, ty.wire? v = some bytes → Puts start before after (next bytes) (wire? bytes)) :
    Puts start before after (encoded v ty >>= next) ((ty.wire? v).bind wire?) := by
  cases written : v.encode ty with
  | ok bytes =>
    have wire := Value.encode_eq_ok_iff.mp written
    have ready : encoded v ty = pure bytes := by rw [encoded, written]
    rw [ready, pure_bind, wire]
    exact each bytes wire
  | error e =>
    have nothing : ty.wire? v = none := by
      cases wire : ty.wire? v with
      | none => rfl
      | some bytes =>
        rw [Value.encode_eq_ok_iff.mpr wire] at written
        cases written
    have failed : encoded v ty = throw (.codec e) := by rw [encoded, written]
    rw [failed, nothing]
    exact puts_throw before after _

theorem puts_value {ty : FieldType} {width : Nat} (fixed : ty.fixedWidth? = some width) (access : Access)
    (v : Value) :
    Puts start access (access.shift width) (encoded v ty >>= writeFixed access) (ty.wire? v.visible) := by
  have each : ∀ bytes, ty.wire? v = some bytes →
      Puts start access (access.shift width) (writeFixed access bytes) (some bytes) := by
    intro bytes written
    rw [← FieldType.length_of_wire? fixed written]
    exact puts_writeFixed access bytes
  have puts := puts_encoded v ty each
  rwa [Option.bind_fun_some, ← ty.wire?_visible_of_fixed width fixed] at puts

theorem puts_writeText (place : Place) (v : Value) :
    Puts start .cursor .cursor (writeText place v) (FieldType.text.wire? v.visible) := by
  cases v with
  | text s =>
    simp only [Value.visible, FieldType.wire?_text, textBytes?, Value.encode_cutText]
    by_cases short : (visibleBytes s).length ≤ maxTextLength
    · have run : writeText place (.text s) = (do
          writeFixed .cursor (littleEndian 4 (visibleBytes s).length)
          writeFixed .cursor (visibleBytes s)) := by
        rw [writeText, if_neg (by omega)]
      rw [if_pos short, run]
      exact (puts_writeFixed .cursor _).andThen (puts_writeFixed .cursor _)
    · have run : writeText place (.text s) = throw (.fault .bufferTooShort) := by
        rw [writeText, if_pos (by omega)]
        rfl
      rw [if_neg short, run]
      exact puts_throw .cursor .cursor _
  | _ => exact puts_throw .cursor .cursor _

theorem puts_writeTexts (place : Place) (items : List Value) :
    Puts start .cursor .cursor (writeTexts place items)
      (FieldType.joined? FieldType.text.wire? (items.map Value.visible)) := by
  induction items with
  | nil => exact puts_pure .cursor
  | cons item items inductionHypothesis => exact (puts_writeText place item).andThen inductionHypothesis

theorem puts_writeTransfer_of_fixed {ty : FieldType} {width : Nat} {transfer : Access → Transfer}
    (moved : MovedFixed ty width transfer) (access : Access) (record : Value) (place : Place) :
    Puts start access (access.shift width) (writeTransfer record place (transfer access))
      ((record.getPath? place.path).bind fun v => ty.wire? v.visible) := by
  cases moved with
  | scalar kind => exact puts_lookUp record place fun v => puts_value rfl access v
  | block fixed => exact puts_lookUp record place fun v => puts_value fixed access v

theorem puts_writeTransfer_atCursor {ty : FieldType} {transfer : Transfer}
    (moved : MovedAtCursor ty transfer) (record : Value) (place : Place) :
    Puts start .cursor .cursor (writeTransfer record place transfer)
      ((record.getPath? place.path).bind fun v => ty.wire? v.visible) := by
  cases moved with
  | text => exact puts_lookUp record place fun v => puts_writeText place v
  | @texts count small =>
    refine puts_lookUp record place fun v => ?_
    cases v with
    | array items =>
      simp only [Value.visible, FieldType.wire?_array, Value.visibleItems_eq_map, List.length_map]
      split
      · exact puts_writeTexts place items
      · exact puts_throw .cursor .cursor _
    | _ => exact puts_throw .cursor .cursor _
  | optionalText =>
    refine puts_lookUp record place fun v => ?_
    cases v with
    | absent => exact puts_writeFixed .cursor [0]
    | present inner =>
      rw [Value.visible, FieldType.wire?_option]
      exact (puts_writeFixed .cursor [1]).andThen (puts_writeText place inner)
    | _ => exact puts_throw .cursor .cursor _
  | optionalScalar kind =>
    refine puts_lookUp record place fun v => ?_
    cases v with
    | absent => exact puts_writeFixed .cursor [0]
    | present inner =>
      simp only [Value.visible, FieldType.wire?_option,
        FieldType.wire?_visible_of_fixed (.scalar kind) kind.width rfl, Option.map_eq_bind]
      exact puts_encoded inner (.scalar kind) fun bytes _ =>
        (puts_writeFixed .cursor [1]).andThen (puts_writeFixed .cursor bytes)
    | _ => exact puts_throw .cursor .cursor _

end Plan

/-! ## Members by path -/

/-- The members that are found below a place, cut as C sees them. -/
def Value.visibleAt (record : Value) (path : List String) (name : String) : Option Value :=
  (record.getPath? (path ++ [name])).map visible

/-- The bytes of a struct at a path are those of the members that are found below it, as long as
there is a field that needs the struct to be there. -/
theorem FieldType.wireFields?_visibleAt {fields : List Field} (nonempty : fields ≠ []) (record : Value)
    (path : List String) :
    wireFields? fields (record.visibleAt path) =
      (record.getPath? path).bind fun v => (struct fields).wire? v.visible := by
  have below : ∀ name, record.visibleAt path name =
      ((record.getPath? path).bind (·.get? name)).map Value.visible := by
    intro name
    rw [Value.visibleAt, Value.getPath?_append]
    cases record.getPath? path with
    | none => rfl
    | some v =>
      simp only [Value.getPath?, Option.bind_eq_bind, Option.bind_some]
      cases v.get? name <;> rfl
  have missing : ∀ find : String → Option Value, (∀ name, find name = none) →
      wireFields? fields find = none := by
    intro find none
    cases fields with
    | nil => exact absurd rfl nonempty
    | cons field fields => simp only [wireFields?, joined?, none, Option.bind_none]
  cases found : record.getPath? path with
  | none => exact missing _ fun name => by rw [below, found]; rfl
  | some v =>
    cases v with
    | struct members =>
      simp only [Option.bind_some, Value.visible, wire?_struct, Value.lookup_visibleMembers]
      congr
      funext name
      rw [below, found]
      rfl
    | _ => exact missing _ fun name => by rw [below, found]; rfl

namespace Plan

variable {start : Nat}

/-! ## Steps -/

theorem writeSteps_append (record : Value) (steps more : List Step) :
    writeSteps record (steps ++ more) = (writeSteps record steps >>= fun _ => writeSteps record more) := by
  induction steps with
  | nil => rfl
  | cons step steps inductionHypothesis =>
    cases step with
    | seedCursor offset =>
      simp only [List.cons_append, writeSteps, bind_assoc, inductionHypothesis]
    | move place transfer =>
      simp only [List.cons_append, writeSteps, bind_assoc, inductionHypothesis]

/-- Starting the cursor puts out nothing: it then says what was known before. -/
theorem puts_writeSteps_seed {state : LayoutState} {after : Access} {record : Value} {steps : List Step}
    {wire? : Option (List UInt8)} (puts : Puts start .cursor after (writeSteps record steps) wire?) :
    Puts start state.access after (writeSteps record (state.seed ++ steps)) wire? := by
  by_cases dynamic : state.dynamic = true
  · rw [LayoutState.access, LayoutState.seed, if_pos dynamic, if_pos dynamic]
    exact puts
  · rw [LayoutState.access, LayoutState.seed, if_neg dynamic, if_neg dynamic]
    exact ⟨fun nothing done room cursor stands => puts.fails nothing done room _ stands.1,
      fun bytes wire done left cursor stands => puts.fits bytes wire done left _ stands.1,
      fun bytes wire done room cursor stands => puts.short bytes wire done room _ stands.1⟩

/-- The steps of a layout put out the bytes of its fields, whose members are found by path. -/
theorem puts_writeSteps {fields : List Field} {state final : LayoutState} {steps : List Step}
    (laid : LaidOut fields state steps final) (scopes : FieldType.EveryScopeIn (· ≠ []) fields)
    (record : Value) :
    Puts start state.access final.access (writeSteps record steps)
      (FieldType.wireFields? fields (record.visibleAt state.scope.members)) := by
  have member : ∀ (ty : FieldType) (place : Place),
      (record.visibleAt place.scope.members place.name).bind ty.wire? =
        (record.getPath? place.path).bind fun v => ty.wire? v.visible := by
    intro ty place
    exact Option.bind_map
  induction laid with
  | nil => exact puts_pure _
  | @fixed name ty fields state next final width transfer access steps moved advanced rest
      inductionHypothesis =>
    obtain ⟨accessBefore, accessAfter⟩ := LayoutState.advance?_access advanced
    have others := inductionHypothesis scopes.2
    have first : Puts start _ _ _ _ :=
      puts_writeTransfer_of_fixed moved access record ⟨state.scope, name⟩
    rw [(LayoutState.advance?_frame advanced).1, accessAfter] at others
    rw [← member] at first
    rw [accessBefore]
    exact first.andThen others
  | @atCursor name ty fields state final transfer steps moved rest inductionHypothesis =>
    have first : Puts start _ _ _ _ :=
      puts_writeTransfer_atCursor moved record ⟨state.scope, name⟩
    rw [← member] at first
    exact puts_writeSteps_seed (first.andThen (inductionHypothesis scopes.2))
  | @nested name inner fields state last final innerSteps steps within rest inductionWithin
      inductionRest =>
    obtain ⟨⟨nonempty, scopesInner⟩, scopesRest⟩ := scopes
    have first := inductionWithin scopesInner
    have others := inductionRest scopesRest
    have whole : FieldType.wireFields? inner (record.visibleAt (state.descend name).scope.members) =
        (record.visibleAt state.scope.members name).bind (FieldType.struct inner).wire? := by
      rw [FieldType.wireFields?_visibleAt nonempty, member _ ⟨state.scope, name⟩]
      rfl
    rw [whole] at first
    rw [LaidOut.scope_ascend within] at others
    rw [writeSteps_append]
    exact first.andThen others

/-! ## The two writers -/

variable {fields : List Field} {base : String} {plan : Plan}

/-- The steps of a plan put out the bytes of the record as C sees it, and leave the cursor behind
them, also if it has never moved. -/
theorem puts_writeSteps_of_build (built : build fields base = .ok plan) (nonempty : fields ≠ [])
    (scopes : FieldType.EveryScopeIn (· ≠ []) fields) (record : Value) :
    ∃ after : Access, (∀ cursor position, after.Stands plan.fixedSize cursor position → cursor = position) ∧
      Puts plan.fixedSize (.static 0) after (writeSteps record plan.steps)
        ((FieldType.struct fields).wire? record.visible) := by
  obtain ⟨final, laid, size⟩ := laidOut_of_build built
  refine ⟨final.access, ?_, ?_⟩
  -- A cursor that was never started still stands at the end of the fixed part, which is then all there is.
  · intro cursor position stands
    rw [LayoutState.access, size] at stands
    split at stands
    · exact stands.symm
    · exact stands.2.trans stands.1.symm
  · have puts : Puts plan.fixedSize _ _ _ _ := puts_writeSteps laid scopes record
    rwa [FieldType.wireFields?_visibleAt nonempty] at puts

/-- The bytes of a record are never fewer than the part with known positions. -/
theorem fixedSize_le (built : build fields base = .ok plan) {v : Value} {bytes : List UInt8}
    (written : (FieldType.struct fields).wire? v = some bytes) : plan.fixedSize ≤ bytes.length := by
  obtain ⟨final, laid, size⟩ := laidOut_of_build built
  have spelled := FieldType.spells_normalize _ v bytes written
  cases v with
  | struct members =>
    cases spelled with
    | struct each =>
      have atMost : final.staticOffset ≤ 0 + bytes.length := (laid.staticOffset_of_spells each).1
      omega
  | _ => cases written

theorem write_of_fits (built : build fields base = .ok plan) (nonempty : fields ≠ [])
    (scopes : FieldType.EveryScopeIn (· ≠ []) fields) {v : Value} {capacity : Nat} {bytes : List UInt8}
    (written : (FieldType.struct fields).wire? v.visible = some bytes) (fits : bytes.length ≤ capacity) :
    plan.write v capacity =
      .ok ⟨bytes ++ List.replicate (capacity - bytes.length) 0, bytes.length⟩ := by
  obtain ⟨after, rests, puts⟩ := puts_writeSteps_of_build built nonempty scopes v
  have long := fixedSize_le built written
  obtain ⟨cursor, run, stands⟩ :=
    puts.fits bytes written [] (capacity - bytes.length) plan.fixedSize ⟨rfl, rfl⟩
  rw [Nat.add_sub_cancel' fits] at run
  simp only [List.nil_append] at run stands
  obtain rfl := rests cursor _ stands
  rw [write, if_neg (by omega)]
  simp only [StateT.run, bind, Except.bind, run]
  rfl

/-- Where the record has no bytes as its type, or more than fit, nothing is written. -/
theorem write_of_not_fits (built : build fields base = .ok plan) (nonempty : fields ≠ [])
    (scopes : FieldType.EveryScopeIn (· ≠ []) fields) (v : Value) (capacity : Nat) :
    ((FieldType.struct fields).wire? v.visible = none → ∃ e, plan.write v capacity = .error e) ∧
    (∀ bytes, (FieldType.struct fields).wire? v.visible = some bytes → capacity < bytes.length →
      plan.write v capacity = .error (.fault .bufferTooShort)) := by
  obtain ⟨after, -, puts⟩ := puts_writeSteps_of_build built nonempty scopes v
  by_cases short : capacity < plan.fixedSize
  · rw [write, if_pos short]
    exact ⟨fun _ => ⟨_, rfl⟩, fun _ _ _ => rfl⟩
  · rw [write, if_neg short]
    simp only [StateT.run, bind, Except.bind]
    constructor
    · intro nothing
      obtain ⟨e, failed⟩ := puts.fails nothing [] capacity plan.fixedSize ⟨rfl, rfl⟩
      rw [List.nil_append] at failed
      exact ⟨e, by rw [failed]⟩
    · intro bytes written tooLong
      have failed := puts.short bytes written [] capacity plan.fixedSize ⟨rfl, rfl⟩ tooLong
      rw [List.nil_append] at failed
      rw [failed]

/-- Writing by plan succeeds exactly if the record, with every text cut before its first NUL, has bytes
as its type and they fit. -/
theorem write_eq_ok_iff (built : build fields base = .ok plan) (nonempty : fields ≠ [])
    (scopes : FieldType.EveryScopeIn (· ≠ []) fields) {v : Value} {capacity : Nat} {w : Written} :
    plan.write v capacity = .ok w ↔
      ∃ bytes, (FieldType.struct fields).wire? v.visible = some bytes ∧ bytes.length ≤ capacity ∧
        w = ⟨bytes ++ List.replicate (capacity - bytes.length) 0, bytes.length⟩ := by
  obtain ⟨fails, short⟩ := write_of_not_fits built nonempty scopes v capacity
  constructor
  · intro wrote
    cases written : (FieldType.struct fields).wire? v.visible with
    | none =>
      obtain ⟨e, failed⟩ := fails written
      rw [failed] at wrote
      cases wrote
    | some bytes =>
      by_cases fits : bytes.length ≤ capacity
      · rw [write_of_fits built nonempty scopes written fits] at wrote
        cases wrote
        exact ⟨bytes, rfl, fits, rfl⟩
      · rw [short bytes written (by omega)] at wrote
        cases wrote
  · rintro ⟨bytes, written, fits, rfl⟩
    exact write_of_fits built nonempty scopes written fits

/-! ## New buffers -/

theorem writeNew_of_le {capacity : Nat} (held : capacity ≤ maxBlock) (v : Value) :
    plan.writeNew v capacity = plan.write v capacity :=
  if_neg fun overflows => Nat.not_lt.mpr held overflows.2

theorem writeNew_of_lt (built : build fields base = .ok plan) {capacity : Nat}
    (overflows : maxBlock < capacity) (v : Value) :
    plan.writeNew v capacity = .error .capacityOverflow :=
  if_pos ⟨Nat.le_trans (fixedSize_le_maxLiteral built) (Nat.le_of_lt overflows), overflows⟩

/-- Writing by plan into a new buffer, for which there is memory, succeeds exactly if writing by type
does, with every text cut before its first NUL, and the bytes fit.  They are then followed by the zeros
that were in the buffer, and the cursor stands behind them.  If they do not fit, the buffer is too short. -/
theorem writeNew_agrees (built : build fields base = .ok plan) (nonempty : fields ≠ [])
    (scopes : FieldType.EveryScopeIn (· ≠ []) fields) (v : Value) (capacity : Nat) :
    (capacity ≤ 2 ^ 63 - 1 →
      (∀ w, plan.writeNew v capacity = .ok w ↔
        ∃ bytes, v.visible.encode (.struct fields) = .ok bytes ∧ bytes.length ≤ capacity ∧
          w = ⟨bytes ++ List.replicate (capacity - bytes.length) 0, bytes.length⟩) ∧
      ∀ bytes, v.visible.encode (.struct fields) = .ok bytes → capacity < bytes.length →
        plan.writeNew v capacity = .error (.fault .bufferTooShort)) ∧
    (2 ^ 63 - 1 < capacity → plan.writeNew v capacity = .error .capacityOverflow) := by
  refine ⟨fun held => ?_, fun overflows => writeNew_of_lt built overflows v⟩
  simp only [Value.encode_eq_ok_iff, writeNew_of_le held]
  exact ⟨fun w => write_eq_ok_iff built nonempty scopes,
    (write_of_not_fits built nonempty scopes v capacity).2⟩

/-- A text with a NUL in a nested struct: what stands behind the NUL is not written, the members may
come in any order, and one byte less than the record needs is too little. -/
theorem writeNew_agrees_cut :
    let v : Value :=
      .struct [("inner", .struct [("label", .text "A\x00B")]), ("id", .scalar (.u16 258))]
    ∃ plan, build [("id", .scalar .u16), ("inner", .struct [("label", .text)])] "in" = .ok plan ∧
      plan.writeNew v 9 = .ok ⟨[2, 1, 1, 0, 0, 0, 65, 0, 0], 7⟩ ∧
      plan.writeNew v 6 = .error (.fault .bufferTooShort) := by
  intro v
  have scopes : FieldType.EveryScopeIn (· ≠ [])
      [("id", .scalar .u16), ("inner", .struct [("label", .text)])] := by
    simp [FieldType.EveryScopeIn, FieldType.EveryScope]
  obtain ⟨fits, -⟩ := (writeNew_agrees rfl (by simp) scopes v 9).1 (by decide)
  obtain ⟨-, short⟩ := (writeNew_agrees rfl (by simp) scopes v 6).1 (by decide)
  refine ⟨_, rfl, ?_, ?_⟩
  · exact (fits _).mpr ⟨[2, 1, 1, 0, 0, 0, 65], rfl, by decide, rfl⟩
  · exact short [2, 1, 1, 0, 0, 0, 65] rfl (by decide)

/-- One byte fits in every buffer, but there is no memory for the largest ones. -/
theorem writeNew_overflow :
    let v : Value := .struct [("x", .scalar (.u8 7))]
    v.visible.encode (.struct [("x", .scalar .u8)]) = .ok [7] ∧
      ∃ plan, build [("x", .scalar .u8)] "in" = .ok plan ∧
        plan.writeNew v (2 ^ 63) = .error .capacityOverflow :=
  ⟨rfl, _, rfl, rfl⟩

end Plan

end PackedRecord
