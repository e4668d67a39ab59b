import PackedRecord.Proofs.C.Record

/-!
# Generated readers

`Loads` says what a run of generated statements does with a buffer: where bytes that `spells` allows
stand at its position, it stores them and goes on behind them; where none do, the function returns
that the buffer is too short.  No run leaves what C gives a meaning to.

* `loads_moveFixed`, `loads_moveText`, `loads_texts`, `loads_moveOptional`: the statements of one field.
* `loads_steps`: the statements of a layout load its fields.
* `runAll_reader`: a reader returns success exactly where the buffer starts with a record, and then
  every field holds its bytes.
-/

namespace PackedRecord.C

open Machine (Keeps)

variable {m : Machine}

/-! ## What single moves do -/

def Machine.receive (m : Machine) (x : Lvalue) (bytes : List UInt8) : Machine :=
  match x with
  | .var v => m.setVar v (ofLittleEndian bytes).toUInt64
  | x => m.setObject x bytes

theorem copyIn_object {position : Nat} {bytes : List UInt8} (holds : Holds m.buffer position bytes)
    (x : Lvalue) : Run.copyIn (.object x) position bytes.length m = .ok () (m.receive x bytes) := by
  refine run_change ?_
  rw [slice?_eq_some_iff.mpr ⟨rfl, holds⟩]
  cases x <;> rfl

theorem runAll_moveFixed_read_static {x : Lvalue} {offset width : Nat} {bytes : List UInt8}
    (small : offset + width < 2 ^ 64) (long : bytes.length = width)
    (holds : Holds m.buffer offset bytes) :
    Stmt.runAll (moveFixed .read x width (.static offset)) m = .ok () (m.receive x bytes) := by
  have copied : (Stmt.copy .read (.object x) (.literal offset) (.literal width)).run m =
      .ok () (m.receive x bytes) := by
    rw [run_copy_read rfl rfl, toNat_toUInt64 (by omega), toNat_toUInt64 (by omega), ← long,
      copyIn_object holds]
  rw [moveFixed, Stmt.runAll_cons_of_ok copied]
  rfl

theorem runAll_moveFixed_read_cursor {x : Lvalue} {width : Nat} {bytes : List UInt8}
    (room : m.offset.toNat + width ≤ m.length.toNat) (long : bytes.length = width)
    (holds : Holds m.buffer m.offset.toNat bytes) :
    Stmt.runAll (moveFixed .read x width .cursor) m = .ok () ((m.receive x bytes).advance width) := by
  have fits := m.length.toNat_lt
  have small : width.toUInt64.toNat = width := toNat_toUInt64 (by omega)
  have checked : (guardRoom (.literal width)).run m = .ok () m := by
    rw [run_guardRoom rfl (by omega), if_neg (by rw [small]; omega)]
  have copied : (Stmt.copy .read (.object x) (.var .offset) (.literal width)).run m =
      .ok () (m.receive x bytes) := by
    rw [run_copy_read rfl rfl, small, ← long]
    exact copyIn_object holds x
  rw [moveFixed, Stmt.runAll_cons_of_ok checked, Stmt.runAll_cons_of_ok copied,
    Stmt.runAll_cons_of_ok (run_increase rfl)]
  rfl

/-- The machine after a request for memory that was granted: a field points to a new block. -/
def Machine.withBlock (m : Machine) (x : Lvalue) (block : List UInt8) : Machine :=
  { m with
    requests := m.requests + 1
    blocks := m.blocks ++ [block]
    pointers := fun y => if y = m.locate x then some m.blocks.length else m.pointers y }

theorem run_allocate_of_granted {x : Lvalue} {size : Expr} {n : UInt64} (value : size.eval? m = some n)
    (granted : m.grants m.requests = true) :
    (Stmt.allocate x size).run m = .ok () (m.withBlock x (List.replicate n.toNat 0)) := by
  rw [Stmt.run, Run.bind_of_ok (run_eval value), Run.allocate]
  exact congrArg (EStateM.Result.ok ()) (if_pos granted)

@[simp]
theorem Machine.pointers_withBlock (m : Machine) (x : Lvalue) (block : List UInt8) :
    (m.withBlock x block).pointers ((m.withBlock x block).locate x) = some m.blocks.length :=
  if_pos rfl

theorem Machine.setPointee?_withBlock {x : Lvalue} {block bytes : List UInt8} {position : Nat}
    (inside : position + bytes.length ≤ block.length) :
    (m.withBlock x block).setPointee? x position bytes =
      some (m.withBlock x (overwrite block position bytes)) := by
  rw [setPointee?, pointers_withBlock]
  simp [withBlock, inside]

theorem run_terminate {x : Lvalue} {position : Var} {m' : Machine}
    (changed : m.setPointee? x (m.getVar position).toNat [0] = some m') :
    (Stmt.terminate x position).run m = .ok () m' := by
  have value : (Expr.var position).eval? m = some (m.getVar position) := rfl
  rw [Stmt.run]
  simp only [bind, EStateM.bind, run_eval value]
  exact run_change changed

theorem copyIn_pointee {x : Lvalue} {position : Nat} {bytes : List UInt8} {m' : Machine}
    (holds : Holds m.buffer position bytes) (changed : m.setPointee? x 0 bytes = some m') :
    Run.copyIn (.pointee x) position bytes.length m = .ok () m' := by
  refine run_change ?_
  rw [slice?_eq_some_iff.mpr ⟨rfl, holds⟩]
  exact changed

/-- Into the memory of a text go its payload and a NUL. -/
def textFill (x : Lvalue) : List Stmt :=
  [.copy .read (.pointee x) (.var .offset) (.var .len), .terminate x .len, .increase .offset (.var .len)]

/-- Behind the length of a text, a reader asks for memory and fills it. -/
def textBody (x : Lvalue) : List Stmt :=
  .allocate x (.add (.cast .size (.var .len)) (.literal 1)) ::
    .exitIf (.isNull x) (.fault .allocationFailure) :: textFill x

/-- Memory that was granted has room for the payload and a NUL. -/
theorem runAll_textBody_of_granted {x : Lvalue} (granted : m.grants m.requests = true) :
    Stmt.runAll (textBody x) m =
      Stmt.runAll (textFill x) (m.withBlock x (List.replicate (m.len.toNat + 1) 0)) := by
  have small := m.len.toNat_lt
  have size : (m.len.toUInt64 + 1).toNat = m.len.toNat + 1 := by
    rw [UInt64.toNat_add, UInt32.toNat_toUInt64]
    exact Nat.mod_eq_of_lt (by simp; omega)
  have allocated : (Stmt.allocate x (.add (.cast .size (.var .len)) (.literal 1))).run m =
      .ok () (m.withBlock x (List.replicate (m.len.toNat + 1) 0)) := by
    rw [← size]
    exact run_allocate_of_granted rfl granted
  have notNull : ∀ block, (Stmt.exitIf (.isNull x) (.fault .allocationFailure)).run (m.withBlock x block) =
      .ok () (m.withBlock x block) := by
    intro block
    have test : (Expr.isNull x).eval? (m.withBlock x block) = some (Expr.ofTest false) := by
      rw [Expr.eval?, Machine.pointers_withBlock]
      rfl
    rw [run_exitIf test]
    rfl
  rw [textBody, Stmt.runAll_cons_of_ok allocated, Stmt.runAll_cons_of_ok (notNull _)]

/-- The payload goes into fresh memory, with a NUL behind it. -/
theorem runAll_textBody {x : Lvalue} {payload : List UInt8} (len : m.len.toNat = payload.length)
    (holds : Holds m.buffer m.offset.toNat payload) (granted : m.grants m.requests = true) :
    Stmt.runAll (textBody x) m =
      .ok () ((m.withBlock x (payload ++ [0])).advance payload.length) := by
  have small := m.len.toNat_lt
  have wide : m.len.toUInt64.toNat = payload.length := by rw [UInt32.toNat_toUInt64, len]
  have copied : (Stmt.copy .read (.pointee x) (.var .offset) (.var .len)).run
      (m.withBlock x (List.replicate (payload.length + 1) 0)) = .ok () (m.withBlock x (payload ++ [0])) := by
    rw [run_copy_read rfl rfl]
    change Run.copyIn _ m.offset.toNat m.len.toUInt64.toNat _ = _
    rw [wide]
    refine copyIn_pointee holds ?_
    rw [Machine.setPointee?_withBlock (by simp)]
    simp [overwrite, List.drop_replicate]
  have terminated : (Stmt.terminate x .len).run (m.withBlock x (payload ++ [0])) =
      .ok () (m.withBlock x (payload ++ [0])) := by
    refine run_terminate ?_
    change Machine.setPointee? _ x m.len.toUInt64.toNat _ = _
    rw [wide, Machine.setPointee?_withBlock (by simp)]
    simp [overwrite]
  have same : m.len.toUInt64 = payload.length.toUInt64 := by
    rw [← UInt64.toNat_inj, wide, toNat_toUInt64 (by omega)]
  rw [runAll_textBody_of_granted granted, len, textFill, Stmt.runAll_cons_of_ok copied,
    Stmt.runAll_cons_of_ok terminated, Stmt.runAll_cons_of_ok (run_increase rfl)]
  change EStateM.Result.ok () (Machine.setVar _ .offset (m.offset + m.len.toUInt64)) = _
  rw [same]
  rfl

def Machine.withLength (m : Machine) (header : List UInt8) : Machine :=
  (m.receive (.var .len) header).advance lengthWidth

theorem Machine.toNat_len_withLength {header : List UInt8} (width : header.length = lengthWidth) :
    (m.withLength header).len.toNat = ofLittleEndian header := by
  have small := ofLittleEndian_lt header
  rw [width] at small
  change ((ofLittleEndian header).toUInt64.toUInt32).toNat = _
  simp only [Nat.toUInt64, UInt64.toNat_toUInt32, UInt64.toNat_ofNat']
  simp only [lengthWidth] at small
  omega

/-- A text starts with its length, and goes on with a check that its payload is there. -/
theorem runAll_moveText_read {x : Lvalue} {header : List UInt8} (known : m.length.toNat = m.buffer.length)
    (width : header.length = lengthWidth) (holds : Holds m.buffer m.offset.toNat header) :
    Stmt.runAll (moveText .read x) m =
      if m.buffer.length < m.offset.toNat + header.length + ofLittleEndian header then
        .error (.returned (.fault .bufferTooShort)) (m.withLength header)
      else Stmt.runAll (textBody x) (m.withLength header) := by
  have inside := holds.le
  have fits := m.length.toNat_lt
  have moved : Stmt.runAll (moveFixed .read (.var .len) lengthWidth .cursor) m =
      .ok () (m.withLength header) :=
    runAll_moveFixed_read_cursor (by omega) width holds
  have cursor : (m.withLength header).offset.toNat = m.offset.toNat + header.length := by
    rw [width]
    exact Machine.toNat_advance (by change m.offset.toNat + lengthWidth < _; omega)
  have announced : (Expr.var .len).eval? (m.withLength header) =
      some (m.withLength header).len.toUInt64 := rfl
  have checked := run_guardRoom announced (m := m.withLength header)
    (by rw [cursor]; change _ ≤ m.length.toNat; omega)
  rw [UInt32.toNat_toUInt64, Machine.toNat_len_withLength width, cursor] at checked
  rw [moveText, List.append_assoc, List.singleton_append, Stmt.runAll_cons_of_ok (run_declare _ m),
    Stmt.runAll_append_of_ok moved]
  change Stmt.runAll (guardRoom (.var .len) :: textBody x) (m.withLength header) = _
  split
  · rename_i short
    exact Stmt.runAll_cons_of_halt (checked.trans (if_pos (by change m.length.toNat < _; omega)))
  · rename_i long
    exact Stmt.runAll_cons_of_ok (checked.trans (if_neg (by change ¬ m.length.toNat < _; omega)))

def Machine.withFlag (m : Machine) (b : UInt8) : Machine :=
  (m.receive (.var .flag) [b]).advance flagWidth

/-- An optional field is absent if its presence byte is zero. -/
theorem run_moveOptional_read {present : Expr} {absent : Stmt} {body : List Stmt} {b : UInt8}
    (known : m.length.toNat = m.buffer.length) (holds : Holds m.buffer m.offset.toNat [b]) :
    (moveOptional .read present absent body).run m =
      if b = 0 then absent.run (m.withFlag b) else Stmt.runAll body (m.withFlag b) := by
  have flag : (m.withFlag b).flag = b := by
    change (ofLittleEndian [b]).toUInt64.toUInt8 = b
    rw [ofLittleEndian_singleton]
    simp
  have test : (Expr.not (.var .flag)).eval? (m.withFlag b) = some (Expr.ofTest (b = 0)) := by
    simp only [Expr.eval?, Machine.getVar, flag, Option.bind_eq_bind, Option.bind_some, pure,
      Option.some.injEq]
    congr 1
    rw [decide_eq_decide, ← UInt64.toNat_inj, ← UInt8.toNat_inj]
    simp
  have moved : Stmt.runAll (moveFixed .read (.var .flag) flagWidth .cursor) m = .ok () (m.withFlag b) :=
    runAll_moveFixed_read_cursor (known ▸ holds.le) rfl holds
  rw [moveOptional, Stmt.run, List.append_assoc, List.singleton_append,
    Stmt.runAll_cons_of_ok (run_declare _ m), Stmt.runAll_append_of_ok moved, Stmt.runAll_singleton, Stmt.run]
  simp only [bind, EStateM.bind, run_eval test]
  by_cases zero : b = 0
  · simp [zero, Expr.ofTest, Stmt.runAll_singleton]
  · simp [zero, Expr.ofTest]

/-! ## Loading -/

/-- The machine reads this buffer, whose length it was told, and its allocator never refuses. -/
structure Machine.Serves (m : Machine) (buffer : List UInt8) : Prop where
  buffer_eq : m.buffer = buffer
  known : m.length.toNat = buffer.length
  grants : ∀ n, m.grants n = true

/-- A run that loads what `spells` allows: from where `before` says, given the cursor, to where `after`
says.  It stores what was there and changes only lvalues of its own, or it returns that the buffer is
too short. -/
structure Loads {α : Type} (buffer : List UInt8) (before after : Access) (run : Run Unit)
    (spells : List UInt8 → α → Prop) (stores : Machine → List UInt8 → α → Prop)
    (owned : Lvalue → Prop) : Prop where
  goesOn : ∀ m : Machine, m.Serves buffer → ∀ used a, spells used a →
    Holds buffer (before.offset m.offset.toNat) used →
    ∃ m', run m = .ok () m' ∧ m'.Serves buffer ∧
      after.offset m'.offset.toNat = before.offset m.offset.toNat + used.length ∧
      stores m' used a ∧ m.Keeps owned m'
  stops : ∀ m : Machine, m.Serves buffer → before.offset m.offset.toNat ≤ buffer.length →
    (∀ used a, spells used a → ¬ Holds buffer (before.offset m.offset.toNat) used) →
    ∃ m', run m = .error (.returned (.fault .bufferTooShort)) m'

variable {α β γ : Type} {buffer : List UInt8}

/-- One load after another.  What the first has stored must not be the second's own. -/
theorem Loads.andThen {before between after : Access} {run next : Run Unit}
    {spells : List UInt8 → α → Prop} {spells' : List UInt8 → β → Prop}
    {stores : Machine → List UInt8 → α → Prop} {stores' : Machine → List UInt8 → β → Prop}
    {owned owned' : Lvalue → Prop}
    (first : Loads buffer before between run spells stores owned)
    (second : Loads buffer between after next spells' stores' owned')
    (lasts : ∀ m m' used a, stores m used a → m.Keeps owned' m' → stores m' used a) :
    Loads buffer before after (do run; next)
      (fun used (ab : α × β) => ∃ front back, used = front ++ back ∧ spells front ab.1 ∧ spells' back ab.2)
      (fun m used ab => ∃ front back, used = front ++ back ∧ spells front ab.1 ∧ spells' back ab.2 ∧
        stores m front ab.1 ∧ stores' m back ab.2)
      (fun x => owned x ∨ owned' x) := by
  refine ⟨?_, ?_⟩
  · rintro m serves _ ⟨a, b⟩ ⟨front, back, rfl, spelled, spelled'⟩ holds
    obtain ⟨holdsFront, holdsBack⟩ := holds_append_iff.mp holds
    obtain ⟨mid, ran, servesMid, position, stored, keeps⟩ := first.goesOn m serves front a spelled holdsFront
    rw [← position] at holdsBack
    obtain ⟨m', ran', serves', position', stored', keeps'⟩ :=
      second.goesOn mid servesMid back b spelled' holdsBack
    refine ⟨m', (Run.bind_of_ok ran).trans ran', serves', ?_, ?_, ?_⟩
    · rw [position', position, List.length_append, Nat.add_assoc]
    · exact ⟨front, back, rfl, spelled, spelled', lasts mid m' front a stored keeps', stored'⟩
    · exact (keeps.mono fun x => .inl).trans (keeps'.mono fun x => .inr)
  · intro m serves inside nothing
    by_cases there : ∃ front a, spells front a ∧ Holds buffer (before.offset m.offset.toNat) front
    · obtain ⟨front, a, spelled, holdsFront⟩ := there
      obtain ⟨mid, ran, servesMid, position, -, -⟩ := first.goesOn m serves front a spelled holdsFront
      rw [Run.bind_of_ok ran]
      refine second.stops mid servesMid (position ▸ holdsFront.le) fun back b spelled' holdsBack => ?_
      rw [position] at holdsBack
      exact nothing (front ++ back) (a, b) ⟨front, back, rfl, spelled, spelled'⟩
        (holds_append_iff.mpr ⟨holdsFront, holdsBack⟩)
    · obtain ⟨m', ran⟩ := first.stops m serves inside fun front a spelled holdsFront =>
        there ⟨front, a, spelled, holdsFront⟩
      exact ⟨m', Run.bind_of_halt ran⟩

theorem Loads.congr {before after : Access} {run : Run Unit} {spells : List UInt8 → α → Prop}
    {spells' : List UInt8 → β → Prop} {stores : Machine → List UInt8 → α → Prop}
    {stores' : Machine → List UInt8 → β → Prop} {owned owned' : Lvalue → Prop}
    (loads : Loads buffer before after run spells stores owned)
    (only : ∀ used a, spells used a → ∃ b, spells' used b)
    (every : ∀ used b, spells' used b → ∃ a, spells used a ∧ ∀ m, stores m used a → stores' m used b)
    (more : ∀ x, owned x → owned' x) : Loads buffer before after run spells' stores' owned' := by
  refine ⟨fun m serves used b spelled' holds => ?_, fun m serves inside nothing => ?_⟩
  · obtain ⟨a, spelled, stored⟩ := every used b spelled'
    obtain ⟨m', ran, serves', position, stores, keeps⟩ := loads.goesOn m serves used a spelled holds
    exact ⟨m', ran, serves', position, stored m' stores, keeps.mono more⟩
  · refine loads.stops m serves inside fun used a spelled => ?_
    obtain ⟨b, spelled'⟩ := only used a spelled
    exact nothing used b spelled'

/-! ## Fields -/

theorem exists_holds {position width : Nat} (inside : position + width ≤ buffer.length) :
    ∃ bytes, bytes.length = width ∧ Holds buffer position bytes := by
  have sliced : slice? buffer position width = some ((buffer.drop position).take width) := if_pos inside
  exact ⟨_, slice?_eq_some_iff.mp sliced⟩

theorem Machine.Serves.advance {position : Nat} (serves : m.Serves buffer) {used : List UInt8}
    (start : m.offset.toNat = position) (holds : Holds buffer position used) :
    (m.advance used.length).offset.toNat = position + used.length := by
  have inside := holds.le
  have fits := m.length.toNat_lt
  rw [serves.known] at fits
  rw [Machine.toNat_advance (by omega), start]

theorem Machine.Keeps.advance {owned : Lvalue → Prop} {m' : Machine} (keeps : m.Keeps owned m') (n : Nat) :
    m.Keeps owned (m'.advance n) :=
  ⟨keeps.objects, keeps.pointers, keeps.blocks⟩

/-- A field of fixed width is copied as it is.  Where its position is known in advance, there is no
check of its own. -/
theorem loads_moveFixed {ty : FieldType} {width : Nat} (fixed : ty.fixedWidth? = some width)
    (small : width < 2 ^ 64) (access : Access)
    (covered : ∀ offset, access = .static offset → offset + width ≤ buffer.length) (place : Place) :
    Loads buffer access (access.shift width)
      (Stmt.runAll (moveFixed .read (.field place) width access)) ty.Spells
      (fun m used _ => m.objects (.field place) = used) (· = .field place) := by
  have keeps : ∀ (m : Machine) bytes, m.Keeps (· = .field place) (m.setObject (.field place) bytes) :=
    fun m bytes => ⟨fun x other => if_neg other, fun _ _ => rfl, List.prefix_rfl⟩
  have always : ∀ position, position + width ≤ buffer.length →
      ¬ ∀ used v, ty.Spells used v → ¬ Holds buffer position used := by
    intro position inside nothing
    obtain ⟨bytes, long, holds⟩ := exists_holds inside
    obtain ⟨v, spelled⟩ := ty.exists_spells width fixed bytes long
    exact nothing bytes v spelled holds
  constructor
  · intro m serves used v spelled holds
    have long := FieldType.Spells.length_eq ty width fixed used v spelled
    have known := serves.known
    rw [← serves.buffer_eq] at known holds
    have inside := holds.le
    have fits := m.length.toNat_lt
    cases access with
    | static offset =>
      change offset + used.length ≤ m.buffer.length at inside
      refine ⟨_, runAll_moveFixed_read_static (by omega) long holds, ⟨serves.1, serves.2, serves.3⟩, ?_,
        if_pos rfl, keeps m used⟩
      rw [long]
      rfl
    | cursor =>
      change m.offset.toNat + used.length ≤ m.buffer.length at inside
      refine ⟨_, runAll_moveFixed_read_cursor (by omega) long holds, ⟨serves.1, serves.2, serves.3⟩, ?_,
        if_pos rfl, (keeps m used).advance width⟩
      rw [serves.buffer_eq] at holds
      rw [← long]
      exact Machine.Serves.advance (m := m.setObject (.field place) used) ⟨serves.1, serves.2, serves.3⟩
        rfl holds
  · intro m serves inside nothing
    cases access with
    | static offset => exact absurd nothing (always offset (covered offset rfl))
    | cursor =>
      by_cases fits : m.offset.toNat + width ≤ buffer.length
      · exact absurd nothing (always _ fits)
      · have known := serves.known
        change m.offset.toNat ≤ buffer.length at inside
        rw [← serves.buffer_eq] at known inside fits
        exact ⟨m, runAll_moveFixed_cursor_of_short (known ▸ inside) small (by omega)⟩

/-- A text where its bytes are: the payload goes into memory of its own. -/
theorem moveText_goesOn {x : Lvalue} (serves : m.Serves buffer) {used : List UInt8} {v : Value}
    (spelled : FieldType.text.Spells used v) (holds : Holds buffer m.offset.toNat used) :
    ∃ m', Stmt.runAll (moveText .read x) m = .ok () m' ∧ m'.Serves buffer ∧
      m'.offset.toNat = m.offset.toNat + used.length ∧ m'.StoresText (m.locate x) used ∧
      m.Keeps (· = m.locate x) m' := by
  cases spelled with
  | @text header payload width announced =>
    obtain ⟨holdsHeader, holdsPayload⟩ := holds_append_iff.mp holds
    have known := serves.known
    have inside := holdsPayload.le
    have cursor : (m.withLength header).offset.toNat = m.offset.toNat + header.length := by
      rw [Machine.withLength, lengthWidth, ← width]
      exact Machine.Serves.advance (m := m.receive (.var .len) header)
        ⟨serves.1, serves.2, serves.3⟩ rfl holdsHeader
    have filled : Stmt.runAll (textBody x) (m.withLength header) = .ok () _ :=
      runAll_textBody (by rw [Machine.toNat_len_withLength width, announced])
        (by rw [cursor]; exact serves.buffer_eq ▸ holdsPayload) (serves.grants _)
    rw [← serves.buffer_eq] at known holdsHeader
    refine ⟨((m.withLength header).withBlock x (payload ++ [0])).advance payload.length, ?_,
      ⟨serves.1, serves.2, serves.3⟩, ?_, ?_, ?_⟩
    · rw [runAll_moveText_read known width holdsHeader,
        if_neg (by rw [← announced, serves.buffer_eq]; omega), filled]
    · rw [List.length_append, ← Nat.add_assoc, ← cursor]
      exact Machine.Serves.advance (m := (m.withLength header).withBlock x (payload ++ [0]))
        ⟨serves.1, serves.2, serves.3⟩ rfl (cursor ▸ holdsPayload)
    · refine ⟨header, payload, rfl, width, m.blocks.length, if_pos rfl, ?_⟩
      exact List.getElem?_concat_length ..
    · exact ⟨fun _ _ => rfl, fun y other => if_neg other, List.prefix_append _ _⟩

/-- A text where there is none: its length or its payload ends behind the buffer. -/
theorem moveText_stops {x : Lvalue} (serves : m.Serves buffer) (inside : m.offset.toNat ≤ buffer.length)
    (nothing : ∀ used v, FieldType.text.Spells used v → ¬ Holds buffer m.offset.toNat used) :
    ∃ m', Stmt.runAll (moveText .read x) m = .error (.returned (.fault .bufferTooShort)) m' := by
  have known := serves.known
  by_cases header : m.offset.toNat + lengthWidth ≤ buffer.length
  · obtain ⟨header, width, holdsHeader⟩ := exists_holds header
    have short : buffer.length < m.offset.toNat + header.length + ofLittleEndian header := by
      refine Nat.lt_of_not_ge fun fits => ?_
      obtain ⟨payload, long, holdsPayload⟩ := exists_holds fits
      exact nothing _ _ (.text width long) (holds_append_iff.mpr ⟨holdsHeader, holdsPayload⟩)
    rw [← serves.buffer_eq] at known holdsHeader short
    exact ⟨_, (runAll_moveText_read known width holdsHeader).trans (if_pos short)⟩
  · rw [← serves.buffer_eq] at known inside header
    have stopped : Stmt.runAll (moveFixed .read (.var .len) lengthWidth .cursor) m = _ :=
      runAll_moveFixed_cursor_of_short (known ▸ inside) (by decide) (by omega)
    refine ⟨m, ?_⟩
    rw [moveText, List.append_assoc, List.singleton_append, Stmt.runAll_cons_of_ok (run_declare _ m),
      Stmt.runAll_append_of_halt stopped]

theorem loads_moveText (place : Place) :
    Loads buffer .cursor .cursor (Stmt.runAll (moveText .read (.field place))) FieldType.text.Spells
      (fun m used _ => m.StoresText (.field place) used) (· = .field place) :=
  ⟨fun _ serves _ _ spelled holds => moveText_goesOn serves spelled holds,
    fun _ serves inside nothing => moveText_stops serves inside nothing⟩

theorem loads_moveText_item (place : Place) (i : Nat) :
    Loads buffer .cursor .cursor
      (do
        modify fun m => { m with counter := i }
        Stmt.runAll (moveText .read (.item place .counter)))
      FieldType.text.Spells (fun m used _ => m.StoresText (.item place (.literal i)) used)
      (· = .item place (.literal i)) := by
  constructor
  · intro m serves used v spelled holds
    obtain ⟨m', ran, serves', position, stored, keeps⟩ :=
      moveText_goesOn (m := { m with counter := i }) (x := .item place .counter)
        ⟨serves.1, serves.2, serves.3⟩ spelled holds
    exact ⟨m', ran, serves', position, stored, ⟨keeps.1, keeps.2, keeps.3⟩⟩
  · intro m serves inside nothing
    exact moveText_stops (m := { m with counter := i }) (x := .item place .counter)
      ⟨serves.1, serves.2, serves.3⟩ inside nothing

/-- The loop loads texts into the elements from an index on. -/
theorem loads_texts (place : Place) (i count : Nat) :
    Loads buffer .cursor .cursor
      (Run.repeated (Stmt.runAll (moveText .read (.item place .counter))) i count)
      (FieldType.SpellsItems .text count) (fun m used _ => m.StoresTexts place i count used)
      (fun x => ∃ j, i ≤ j ∧ x = .item place (.literal j)) := by
  -- By induction on the rounds that are left; each one owns only the element at its own index.
  induction count generalizing i with
  | zero =>
    constructor
    · intro m serves used items spelled holds
      cases spelled
      exact ⟨m, rfl, serves, rfl, .nil, Keeps.refl _ m⟩
    · intro m serves inside nothing
      exact absurd (holds_nil_iff.mpr inside) (nothing [] [] .nil)
  | succ count inductionHypothesis =>
    have others : ∀ m m' used (v : Value), Machine.StoresText m (.item place (.literal i)) used →
        m.Keeps (fun x => ∃ j, i + 1 ≤ j ∧ x = .item place (.literal j)) m' →
        m'.StoresText (.item place (.literal i)) used := by
      intro m m' used v stored keeps
      refine stored.mono keeps ?_
      rintro ⟨j, above, same⟩
      cases same
      omega
    refine ((loads_moveText_item place i).andThen (inductionHypothesis (i + 1)) others).congr ?_ ?_ ?_
    · rintro _ ⟨v, items⟩ ⟨front, back, rfl, head, tail⟩
      exact ⟨v :: items, .cons head tail⟩
    · intro used items spelled
      cases spelled with
      | cons head tail =>
        refine ⟨(_, _), ⟨_, _, rfl, head, tail⟩, ?_⟩
        rintro m ⟨front, back, split, -, -, stored, storedRest⟩
        exact split ▸ .cons stored storedRest
    · rintro x (rfl | ⟨j, above, rfl⟩)
      · exact ⟨i, Nat.le_refl i, rfl⟩
      · exact ⟨j, by omega, rfl⟩

/-- A run that only sets lvalues of its own. -/
def Sets (run : Run Unit) (post : Machine → Prop) (owned : Lvalue → Prop) : Prop :=
  ∀ m, ∃ m', run m = .ok () m' ∧ (∀ buffer, m.Serves buffer → m'.Serves buffer) ∧
    m'.offset = m.offset ∧ post m' ∧ m.Keeps owned m'

theorem sets_assign (x : Place) (n : Nat) :
    Sets (Stmt.assign (.field x) (.literal n)).run
      (fun m => m.objects (.field x) = littleEndian 1 n.toUInt64.toNat) (· = .field x) := by
  intro m
  refine ⟨m.setObject (.field x) (littleEndian 1 n.toUInt64.toNat), ?_, ?_, rfl, if_pos rfl, ?_⟩
  · rw [Stmt.run]
    simp only [bind, EStateM.bind, run_eval (show (Expr.literal n).eval? m = some n.toUInt64 from rfl)]
    rfl
  · exact fun buffer serves => ⟨serves.1, serves.2, serves.3⟩
  · exact ⟨fun y other => if_neg other, fun _ _ => rfl, List.prefix_rfl⟩

theorem sets_assignNull (x : Place) :
    Sets (Stmt.assignNull (.field x)).run (fun m => m.pointers (.field x) = none) (· = .field x) := by
  intro m
  refine ⟨m.setPointer (.field x) none, ?_, ?_, rfl, if_pos rfl, ?_⟩
  · rw [Stmt.run]
    rfl
  · exact fun buffer serves => ⟨serves.1, serves.2, serves.3⟩
  · exact ⟨fun _ _ => rfl, fun y other => if_neg other, List.prefix_rfl⟩

theorem Sets.loads {run : Run Unit} {post : Machine → Prop} {owned : Lvalue → Prop}
    (sets : Sets run post owned) :
    Loads buffer .cursor .cursor run (fun used (_ : Unit) => used = []) (fun m _ _ => post m) owned := by
  constructor
  · rintro m serves _ _ rfl holds
    obtain ⟨m', ran, serves', position, post, keeps⟩ := sets m
    exact ⟨m', ran, serves' buffer serves, by rw [position]; rfl, post, keeps⟩
  · intro m serves inside nothing
    exact absurd (holds_nil_iff.mpr inside) (nothing [] () rfl)

/-- An optional field: the presence byte says whether the value is loaded or its absence is marked. -/
theorem loads_moveOptional {inner : FieldType} {body : List Stmt} {present : Expr} {absent : Stmt}
    {stores : Machine → List UInt8 → Value → Prop} {marked : Machine → Prop} {owned : Lvalue → Prop}
    (loads : Loads buffer .cursor .cursor (Stmt.runAll body) inner.Spells stores owned)
    (marks : Sets absent.run marked owned) :
    Loads buffer .cursor .cursor (moveOptional .read present absent body).run (FieldType.option inner).Spells
      (fun m used _ => (used = [0] ∧ marked m) ∨
        ∃ presence bytes w, used = presence :: bytes ∧ presence ≠ 0 ∧ stores m bytes w) owned := by
  have flagged : ∀ (m : Machine) b, m.Serves buffer → Holds buffer m.offset.toNat [b] →
      (m.withFlag b).Serves buffer ∧ (m.withFlag b).offset.toNat = m.offset.toNat + 1 := by
    intro m b serves holds
    exact ⟨⟨serves.1, serves.2, serves.3⟩,
      Machine.Serves.advance (m := m.receive (.var .flag) [b]) ⟨serves.1, serves.2, serves.3⟩ rfl holds⟩
  constructor
  · intro m serves used v spelled holds
    have known := serves.known
    cases spelled with
    | absent =>
      obtain ⟨servesFlag, cursor⟩ := flagged m 0 serves holds
      rw [← serves.buffer_eq] at known holds
      obtain ⟨m', ran, serves', position, post, keeps⟩ := marks (m.withFlag 0)
      refine ⟨m', ?_, serves' buffer servesFlag, ?_, .inl ⟨rfl, post⟩, ⟨keeps.1, keeps.2, keeps.3⟩⟩
      · rw [run_moveOptional_read known holds, if_pos rfl, ran]
      · rw [position]
        exact cursor
    | @present _ presence bytes w announced value =>
      change Holds buffer _ ([presence] ++ bytes) at holds
      obtain ⟨holdsFlag, holdsValue⟩ := holds_append_iff.mp holds
      obtain ⟨servesFlag, cursor⟩ := flagged m presence serves holdsFlag
      rw [← serves.buffer_eq] at known holdsFlag
      obtain ⟨m', ran, serves', position, stored, keeps⟩ :=
        loads.goesOn (m.withFlag presence) servesFlag bytes w value (cursor ▸ holdsValue)
      refine ⟨m', ?_, serves', ?_, .inr ⟨presence, bytes, w, rfl, announced, stored⟩,
        ⟨keeps.1, keeps.2, keeps.3⟩⟩
      · rw [run_moveOptional_read known holdsFlag, if_neg announced, ran]
      · rw [List.length_cons, Nat.add_comm bytes.length, ← Nat.add_assoc]
        exact position.trans (congrArg (· + bytes.length) cursor)
  · intro m serves inside nothing
    have known := serves.known
    by_cases flag : m.offset.toNat + flagWidth ≤ buffer.length
    · obtain ⟨flagBytes, long, holdsFlag⟩ := exists_holds flag
      obtain ⟨presence, rfl⟩ := List.length_eq_one_iff.mp long
      obtain ⟨servesFlag, cursor⟩ := flagged m presence serves holdsFlag
      have announced : presence ≠ 0 := by
        rintro rfl
        exact nothing [0] .absent .absent holdsFlag
      have nothingInner : ∀ used v, inner.Spells used v →
          ¬ Holds buffer (m.withFlag presence).offset.toNat used := by
        intro used v spelled holds
        rw [cursor] at holds
        have both : Holds buffer m.offset.toNat ([presence] ++ used) :=
          holds_append_iff.mpr ⟨holdsFlag, holds⟩
        exact nothing _ (.present v) (.present announced spelled) both
      obtain ⟨m', ran⟩ := loads.stops (m.withFlag presence) servesFlag (cursor ▸ holdsFlag.le) nothingInner
      rw [← serves.buffer_eq] at known holdsFlag
      exact ⟨m', by rw [run_moveOptional_read known holdsFlag, if_neg announced, ran]⟩
    · change m.offset.toNat ≤ buffer.length at inside
      rw [← serves.buffer_eq] at known inside flag
      have stopped : Stmt.runAll (moveFixed .read (.var .flag) flagWidth .cursor) m = _ :=
        runAll_moveFixed_cursor_of_short (known ▸ inside) (by decide) (by omega)
      refine ⟨m, ?_⟩
      rw [moveOptional, Stmt.run, List.append_assoc, List.singleton_append,
        Stmt.runAll_cons_of_ok (run_declare _ m), Stmt.runAll_append_of_halt stopped]

/-- The value of an optional number, with the mark that it is there. -/
theorem loads_markedScalar (kind : ScalarKind) (place : Place) :
    Loads buffer .cursor .cursor
      (Stmt.runAll (moveFixed .read (.field (place.member valueMember)) kind.width .cursor ++
        [.assign (.field (place.member presenceMember)) (.literal 1)]))
      (FieldType.scalar kind).Spells
      (fun m used _ => m.objects (.field (place.member presenceMember)) = [1] ∧
        m.objects (.field (place.member valueMember)) = used)
      (Owns place) := by
  have small : kind.width < 2 ^ 64 := by cases kind <;> decide
  have different : Lvalue.field (place.member valueMember) ≠ .field (place.member presenceMember) := by
    simp [Place.member, valueMember, presenceMember]
  have value : Loads buffer .cursor .cursor _ (FieldType.scalar kind).Spells _ _ :=
    loads_moveFixed rfl small .cursor (by simp) (place.member valueMember)
  have mark : Loads buffer .cursor .cursor _ _ _ _ :=
    (sets_assign (place.member presenceMember) 1).loads
  rw [Stmt.runAll_append, Stmt.runAll_singleton]
  refine (value.andThen mark ?_).congr ?_ ?_ ?_
  · intro m m' used v stored keeps
    rw [keeps.objects _ different, stored]
  · rintro _ ⟨v, ⟨⟩⟩ ⟨front, back, rfl, spelled, rfl⟩
    exact ⟨v, by rwa [List.append_nil]⟩
  · intro used v spelled
    refine ⟨(v, ()), ⟨used, [], by simp, spelled, rfl⟩, ?_⟩
    rintro m ⟨front, back, rfl, -, rfl, stored, marked⟩
    exact ⟨marked, by rw [List.append_nil]; exact stored⟩
  · rintro x (rfl | rfl)
    · exact .inr (.inr ⟨_, rfl⟩)
    · exact .inr (.inr ⟨_, rfl⟩)

theorem loads_moveField_of_fixed {ty : FieldType} {width : Nat} {transfer : Access → Transfer}
    (moved : MovedFixed ty width transfer) (small : width < 2 ^ 64) {access : Access}
    (covered : ∀ offset, access = .static offset → offset + width ≤ buffer.length) (place : Place) :
    Loads buffer access (access.shift width) (Stmt.runAll (moveField .read place (transfer access)))
      ty.Spells (fun m used _ => m.Stores place ty used) (Owns place) := by
  have fixed := moved.fixedWidth?
  have loads : Loads buffer access (access.shift width)
      (Stmt.runAll (moveFixed .read (.field place) width access)) ty.Spells
      (fun m used _ => m.Stores place ty used) (Owns place) := by
    refine (loads_moveFixed fixed small access covered place).congr (fun used v spelled => ⟨v, spelled⟩) ?_ ?_
    · intro used v spelled
      refine ⟨v, spelled, fun m stored => ?_⟩
      rw [← stored]
      exact .inPlace fixed
    · exact fun x same => .inl same
  cases moved with
  | scalar kind => exact loads
  | block fixed => exact loads

theorem loads_moveField_atCursor {ty : FieldType} {transfer : Transfer} (moved : MovedAtCursor ty transfer)
    (place : Place) :
    Loads buffer .cursor .cursor (Stmt.runAll (moveField .read place transfer)) ty.Spells
      (fun m used _ => m.Stores place ty used) (Owns place) := by
  cases moved with
  | text =>
    rw [moveField, Stmt.runAll_singleton, Stmt.run]
    refine (loads_moveText place).congr (fun used v spelled => ⟨v, spelled⟩) ?_ fun x same => .inl same
    exact fun used v spelled => ⟨v, spelled, fun m stored => .text stored⟩
  | @texts count small =>
    rw [moveField, Stmt.runAll_singleton, Stmt.run]
    refine (loads_texts place 0 count.toNat).congr ?_ ?_ ?_
    · exact fun used items spelled => ⟨.array items, .array spelled⟩
    · intro used v spelled
      cases spelled with
      | array each => exact ⟨_, each, fun m stored => .texts stored⟩
    · rintro x ⟨j, -, rfl⟩
      exact .inr (.inl ⟨_, rfl⟩)
  | optionalText =>
    rw [moveField, Stmt.runAll_singleton]
    refine (loads_moveOptional (loads_moveText place) (sets_assignNull place)).congr
      (fun used v spelled => ⟨v, spelled⟩) ?_ fun x same => .inl same
    refine fun used v spelled => ⟨v, spelled, fun m stored => ?_⟩
    obtain ⟨rfl, null⟩ | ⟨presence, bytes, w, rfl, announced, stored⟩ := stored
    · exact .absentText null
    · exact .presentText announced stored
  | optionalScalar kind =>
    rw [moveField, Stmt.runAll_singleton]
    have marks : Sets _ _ (Owns place) := fun m => by
      obtain ⟨m', ran, serves, position, post, keeps⟩ := sets_assign (place.member presenceMember) 0 m
      exact ⟨m', ran, serves, position, post, keeps.mono fun x same => .inr (.inr ⟨_, same⟩)⟩
    refine (loads_moveOptional (loads_markedScalar kind place) marks).congr
      (fun used v spelled => ⟨v, spelled⟩) ?_ fun x owns => owns
    refine fun used v spelled => ⟨v, spelled, fun m stored => ?_⟩
    obtain ⟨rfl, mark⟩ | ⟨presence, bytes, w, rfl, announced, mark, stored⟩ := stored
    · exact .absentScalar mark
    · exact stored ▸ .presentScalar announced mark

/-! ## Steps -/

/-- Starting the cursor takes no bytes: it then says what was known before. -/
theorem loads_seed {state : LayoutState} (covered : state.staticOffset ≤ buffer.length) {after : Access}
    {stmts : List Stmt} {spells : List UInt8 → α → Prop} {stores : Machine → List UInt8 → α → Prop}
    {owned : Lvalue → Prop}
    (loads : Loads buffer .cursor after (Stmt.runAll stmts) spells stores owned) :
    Loads buffer state.access after (Stmt.runAll (state.seed.flatMap (stepStmts .read) ++ stmts)) spells
      stores owned := by
  by_cases dynamic : state.dynamic = true
  · rw [LayoutState.access, LayoutState.seed, if_pos dynamic, if_pos dynamic]
    exact loads
  · rw [LayoutState.access, if_neg dynamic]
    have position : ∀ m : Machine, m.Serves buffer →
        (m.setVar .offset state.staticOffset.toUInt64).offset.toNat = state.staticOffset := by
      intro m serves
      have fits := m.length.toNat_lt
      rw [serves.known] at fits
      exact toNat_toUInt64 (by omega)
    constructor
    · intro m serves used a spelled holds
      rw [runAll_seed dynamic]
      obtain ⟨m', ran, serves', finish, stored, keeps⟩ :=
        loads.goesOn (m.setVar .offset state.staticOffset.toUInt64) ⟨serves.1, serves.2, serves.3⟩ used a
          spelled (by rw [Access.offset, position m serves]; exact holds)
      rw [Access.offset, position m serves] at finish
      exact ⟨m', ran, serves', finish, stored, ⟨keeps.1, keeps.2, keeps.3⟩⟩
    · intro m serves inside nothing
      rw [runAll_seed dynamic]
      refine loads.stops _ ⟨serves.1, serves.2, serves.3⟩ ?_ ?_
      · rw [Access.offset, position m serves]
        exact covered
      · rw [Access.offset, position m serves]
        exact nothing

/-- A field and the fields after it, which have other names. -/
theorem loads_cons {before between after : Access} {run next : Run Unit} {scope : Scope} {name : String}
    {ty : FieldType} {fields : List Field} (fresh : name ∉ fields.map Prod.fst)
    (first : Loads buffer before between run ty.Spells (fun m used _ => m.Stores ⟨scope, name⟩ ty used)
      (Owns ⟨scope, name⟩))
    (rest : Loads buffer between after next (FieldType.SpellsFields fields)
      (fun m used members => m.StoresFields scope fields used members)
      (fun x => ∃ field ∈ fields, Owns ⟨scope, field.1⟩ x)) :
    Loads buffer before after (do run; next) (FieldType.SpellsFields ((name, ty) :: fields))
      (fun m used members => m.StoresFields scope ((name, ty) :: fields) used members)
      (fun x => ∃ field ∈ (name, ty) :: fields, Owns ⟨scope, field.1⟩ x) := by
  refine (first.andThen rest ?_).congr ?_ ?_ ?_
  · intro m m' used v stored keeps
    refine stored.mono keeps ?_
    rintro x owns ⟨field, listed, owned⟩
    refine Owns.disjoint ?_ owns owned
    rintro rfl
    exact fresh (List.mem_map_of_mem listed)
  · rintro _ ⟨v, members⟩ ⟨front, back, rfl, head, tail⟩
    exact ⟨(name, v) :: members, .cons head tail⟩
  · intro used members spelled
    cases spelled with
    | cons head tail =>
      refine ⟨(_, _), ⟨_, _, rfl, head, tail⟩, ?_⟩
      rintro m ⟨front, back, split, spelledFirst, -, stored, storedRest⟩
      exact split ▸ .cons (Value.decode_eq_ok_iff.mpr spelledFirst) stored storedRest
  · rintro x (owns | ⟨field, listed, owns⟩)
    · exact ⟨(name, ty), List.mem_cons_self, owns⟩
    · exact ⟨field, List.mem_cons_of_mem _ listed, owns⟩

/-- The statements of a layout load its fields, each into lvalues of its own. -/
theorem loads_steps {fields : List Field} {state final : LayoutState} {steps : List Step}
    (laid : LaidOut fields state steps final) (covered : final.staticOffset ≤ buffer.length)
    (distinct : (fields.map Prod.fst).Nodup)
    (flat : ∀ field ∈ fields, ∀ inner, field.2 ≠ .struct inner) :
    Loads buffer state.access final.access (Stmt.runAll (steps.flatMap (stepStmts .read)))
      (FieldType.SpellsFields fields)
      (fun m used members => m.StoresFields state.scope fields used members)
      (fun x => ∃ field ∈ fields, Owns ⟨state.scope, field.1⟩ x) := by
  induction laid with
  | nil =>
    constructor
    · intro m serves used members spelled holds
      cases spelled
      exact ⟨m, rfl, serves, rfl, .nil, Keeps.refl _ m⟩
    · intro m serves inside nothing
      exact absurd (holds_nil_iff.mpr inside) (nothing [] [] .nil)
  | @fixed name ty fields state next final width transfer access steps moved advanced rest
      inductionHypothesis =>
    rw [List.map_cons, List.nodup_cons] at distinct
    have others := inductionHypothesis covered distinct.2 fun field listed =>
      flat field (List.mem_cons_of_mem _ listed)
    obtain ⟨accessBefore, accessAfter⟩ := LayoutState.advance?_access advanced
    rw [(LayoutState.advance?_frame advanced).1, accessAfter] at others
    obtain ⟨small, ends⟩ := LayoutState.advance?_ends advanced
    have within : ∀ offset, access = .static offset → offset + width ≤ buffer.length := by
      intro offset static
      rw [ends offset static]
      exact Nat.le_trans rest.staticOffset_le covered
    rw [accessBefore, List.flatMap_cons, Stmt.runAll_append]
    refine loads_cons distinct.1 (loads_moveField_of_fixed moved ?_ within ⟨state.scope, name⟩) others
    exact Nat.lt_of_le_of_lt small (by decide)
  | @atCursor name ty fields state final transfer steps moved rest inductionHypothesis =>
    rw [List.map_cons, List.nodup_cons] at distinct
    have others := inductionHypothesis covered distinct.2 fun field listed =>
      flat field (List.mem_cons_of_mem _ listed)
    have grows : state.staticOffset ≤ final.staticOffset := rest.staticOffset_le
    rw [List.flatMap_append]
    refine loads_seed (Nat.le_trans grows covered) ?_
    rw [List.flatMap_cons, Stmt.runAll_append]
    exact loads_cons distinct.1 (loads_moveField_atCursor moved ⟨state.scope, name⟩) others
  | nested within rest inductionWithin inductionRest => exact absurd rfl (flat _ List.mem_cons_self _)

/-! ## Whole readers -/

/-- A reader returns success where the buffer starts with a record, and then every field holds its
bytes.  Everywhere else it returns that the buffer is too short. -/
theorem runAll_reader {fields : List Field} {base : String} {plan : Plan}
    (built : Plan.build fields base = .ok plan) (distinct : (fields.map Prod.fst).Nodup)
    (flat : ∀ field ∈ fields, ∀ inner, field.2 ≠ .struct inner) (serves : m.Serves buffer) :
    (∀ used members, FieldType.SpellsFields fields used members → Holds buffer 0 used →
      ∃ m', Stmt.runAll (planStmts .read plan) m = .error (.returned .ok) m' ∧ m'.buffer = buffer ∧
        m'.StoresFields { base } fields used members) ∧
    ((∀ used members, FieldType.SpellsFields fields used members → ¬ Holds buffer 0 used) →
      ∃ m', Stmt.runAll (planStmts .read plan) m = .error (.returned (.fault .bufferTooShort)) m') := by
  obtain ⟨final, laid, size⟩ := Plan.laidOut_of_build built
  have known := serves.known
  rw [runAll_planStmts (Plan.fixedSize_lt built)]
  constructor
  · intro used members spelled holds
    have long : final.staticOffset ≤ 0 + used.length := (laid.staticOffset_of_spells spelled).1
    have inside := holds.le
    obtain ⟨m', ran, serves', -, stored, -⟩ :=
      (loads_steps laid (by omega) distinct flat).goesOn m serves used members spelled holds
    refine ⟨m', ?_, serves'.buffer_eq, stored⟩
    rw [if_neg (by omega), Stmt.runAll_exit ran]
  · intro nothing
    by_cases short : m.length.toNat < plan.fixedSize
    · exact ⟨m, if_pos short⟩
    · obtain ⟨m', ran⟩ := (loads_steps laid (by omega) distinct flat).stops m serves (Nat.zero_le _) nothing
      exact ⟨m', by rw [if_neg short, Stmt.runAll_append_of_halt ran]⟩

end PackedRecord.C
