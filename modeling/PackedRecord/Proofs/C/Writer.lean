import PackedRecord.Proofs.C.Record
import PackedRecord.Proofs.Plan.Writing

/-!
# Generated writers

`Saves` says what a run of generated statements does to the buffer: it puts `wire?` behind what is
done and moves on, or the function returns that the buffer is too short, also where there is nothing
that could be put out.  What comes behind in the buffer stays as it was, and so does the record.

* `saves_copy`: the one copy that everything at the cursor is made of.
* `saves_moveFixed`, `saves_moveText`, `saves_texts`, `saves_moveOptional`: the statements of one field.
* `saves_steps`: the statements of a layout save its fields.
* `runAll_writer`: a writer returns success exactly where the bytes of the record fit.
-/

namespace PackedRecord.C

open Plan (overwrite_append)

variable {m origin : Machine}

/-! ## What single moves do -/

/-- What a variable or field offers to a copy of some width. -/
def Machine.offer (m : Machine) (x : Lvalue) (width : Nat) : List UInt8 :=
  match x with
  | .var v => littleEndian width (m.getVar v).toNat
  | x => m.objects (m.locate x)

theorem copyOut_object {x : Lvalue} {bytes : List UInt8} {position : Nat}
    (source : m.offer x bytes.length = bytes) (inside : position + bytes.length ≤ m.buffer.length) :
    Run.copyOut (.object x) position bytes.length m =
      .ok () { m with buffer := overwrite m.buffer position bytes } := by
  have whole : slice? bytes 0 bytes.length = some bytes :=
    slice?_eq_some_iff.mpr ⟨rfl, holds_zero_iff.mpr ⟨[], by simp⟩⟩
  refine run_change ?_
  cases x <;> simp only [Machine.offer] at source <;>
    simp only [source, whole, Option.bind_eq_bind, Option.bind_some, inside, if_true] <;> rfl

theorem copyOut_pointee {x : Lvalue} {bytes rest : List UInt8} {position : Nat}
    (source : m.pointee? x = some (bytes ++ rest))
    (inside : position + bytes.length ≤ m.buffer.length) :
    Run.copyOut (.pointee x) position bytes.length m =
      .ok () { m with buffer := overwrite m.buffer position bytes } := by
  have front : slice? (bytes ++ rest) 0 bytes.length = some bytes :=
    slice?_eq_some_iff.mpr ⟨rfl, holds_zero_iff.mpr ⟨rest, rfl⟩⟩
  refine run_change ?_
  simp only [source, front, Option.bind_eq_bind, Option.bind_some, inside, if_true]
  rfl

theorem runAll_moveFixed_write_static {x : Lvalue} {offset width : Nat} {bytes : List UInt8}
    (known : m.length.toNat = m.buffer.length) (long : bytes.length = width)
    (source : m.offer x width = bytes) (inside : offset + width ≤ m.buffer.length) :
    Stmt.runAll (moveFixed .write x width (.static offset)) m =
      .ok () { m with buffer := overwrite m.buffer offset bytes } := by
  have fits := m.length.toNat_lt
  subst long
  rw [moveFixed, Stmt.runAll_singleton, run_copy_write rfl rfl, toNat_toUInt64 (by omega),
    toNat_toUInt64 (by omega), copyOut_object source inside]

/-! ## Saving -/

/-- The machine still has the record of another one, and the buffer is as long as it was told. -/
structure Machine.SameRecord (m origin : Machine) : Prop where
  objects : m.objects = origin.objects
  pointers : m.pointers = origin.pointers
  blocks : m.blocks = origin.blocks
  length : m.length = origin.length
  known : m.length.toNat = m.buffer.length

/-- A run that puts `wire?` behind what is done, from where `before` says, given the cursor, to where
`after` says, or returns that the buffer is too short. -/
structure Saves (pre post : Machine → Prop) (before after : Access) (run : Run Unit)
    (wire? : Option (List UInt8)) : Prop where
  goesOn : ∀ m, pre m → ∀ done rest bytes, wire? = some bytes → m.buffer = done ++ rest →
    before.offset m.offset.toNat = done.length → bytes.length ≤ rest.length →
    ∃ m', run m = .ok () m' ∧ post m' ∧ m'.buffer = (done ++ bytes) ++ rest.drop bytes.length ∧
      after.offset m'.offset.toNat = (done ++ bytes).length
  stops : ∀ m, pre m → ∀ done rest, m.buffer = done ++ rest →
    before.offset m.offset.toNat = done.length →
    (∀ bytes, wire? = some bytes → rest.length < bytes.length) →
    ∃ m', run m = .error (.returned (.fault .bufferTooShort)) m'

theorem Saves.andThen {pre mid post : Machine → Prop} {before between after : Access} {run next : Run Unit}
    {wire? wire'? : Option (List UInt8)} (first : Saves pre mid before between run wire?)
    (second : Saves mid post between after next wire'?) :
    Saves pre post before after (do run; next) (wire?.bind fun front => wire'?.map (front ++ ·)) := by
  constructor
  · intro m holds done rest bytes pieces split position fits
    obtain ⟨front, piece, back, piece', rfl⟩ :
        ∃ front, wire? = some front ∧ ∃ back, wire'? = some back ∧ front ++ back = bytes := by
      simpa [Option.bind_eq_some_iff, Option.map_eq_some_iff] using pieces
    rw [List.length_append] at fits
    obtain ⟨m₁, ran, holds₁, split₁, position₁⟩ :=
      first.goesOn m holds done rest front piece split position (by omega)
    obtain ⟨m₂, ran₂, holds₂, split₂, position₂⟩ :=
      second.goesOn m₁ holds₁ (done ++ front) (rest.drop front.length) back piece' split₁ position₁
        (by rw [List.length_drop]; omega)
    refine ⟨m₂, (Run.bind_of_ok ran).trans ran₂, holds₂, ?_, ?_⟩
    · rw [split₂, List.drop_drop, List.length_append, List.append_assoc done]
    · rw [position₂, List.append_assoc]
  · intro m holds done rest split position short
    by_cases fits : ∃ front, wire? = some front ∧ front.length ≤ rest.length
    · obtain ⟨front, piece, fits⟩ := fits
      obtain ⟨m₁, ran, holds₁, split₁, position₁⟩ :=
        first.goesOn m holds done rest front piece split position fits
      rw [Run.bind_of_ok ran]
      refine second.stops m₁ holds₁ _ _ split₁ position₁ fun back piece' => ?_
      have tooLong := short (front ++ back) (by simp [piece, piece'])
      rw [List.length_append] at tooLong
      rw [List.length_drop]
      omega
    · obtain ⟨m', ran⟩ := first.stops m holds done rest split position fun front piece =>
        Nat.lt_of_not_ge fun fewer => fits ⟨front, piece, fewer⟩
      exact ⟨m', Run.bind_of_halt ran⟩

theorem Saves.of_run {pre pre' post : Machine → Prop} {before after : Access} {run run' : Run Unit}
    {wire? : Option (List UInt8)} (saves : Saves pre post before after run wire?)
    (stronger : ∀ m, pre' m → pre m ∧ run' m = run m) : Saves pre' post before after run' wire? := by
  constructor
  · intro m holds
    rw [(stronger m holds).2]
    exact saves.goesOn m (stronger m holds).1
  · intro m holds
    rw [(stronger m holds).2]
    exact saves.stops m (stronger m holds).1

theorem Saves.weaken {pre post post' : Machine → Prop} {before after : Access} {run : Run Unit}
    {wire? : Option (List UInt8)} (saves : Saves pre post before after run wire?)
    (weaker : ∀ m, post m → post' m) : Saves pre post' before after run wire? := by
  refine ⟨fun m holds done rest bytes wire split position fits => ?_, saves.stops⟩
  obtain ⟨m', ran, holds', result⟩ := saves.goesOn m holds done rest bytes wire split position fits
  exact ⟨m', ran, weaker m' holds', result⟩

/-- What comes before a run may set variables, as long as the buffer and the cursor stay. -/
theorem Saves.prepared {pre mid post : Machine → Prop} {before after : Access} {run next : Run Unit}
    {wire? : Option (List UInt8)}
    (prepares : ∀ m, pre m → ∃ m', run m = .ok () m' ∧ mid m' ∧ m'.buffer = m.buffer ∧ m'.offset = m.offset)
    (saves : Saves mid post before after next wire?) : Saves pre post before after (do run; next) wire? := by
  constructor
  · intro m holds done rest bytes wire split position fits
    obtain ⟨m', ran, ready, sameBuffer, sameOffset⟩ := prepares m holds
    rw [Run.bind_of_ok ran]
    rw [← sameOffset] at position
    exact saves.goesOn m' ready done rest bytes wire (sameBuffer.trans split) position fits
  · intro m holds done rest split position short
    obtain ⟨m', ran, ready, sameBuffer, sameOffset⟩ := prepares m holds
    rw [Run.bind_of_ok ran]
    rw [← sameOffset] at position
    exact saves.stops m' ready done rest (sameBuffer.trans split) position short

theorem Saves.refused {pre : Machine → Prop} {run : Run Unit}
    (refuses : ∀ m, pre m → ∃ m', run m = .error (.returned (.fault .bufferTooShort)) m')
    (post : Machine → Prop) (before after : Access) : Saves pre post before after run none :=
  ⟨fun _ _ _ _ _ wire => absurd wire nofun, fun m holds _ _ _ _ _ => refuses m holds⟩

theorem Saves.nothing (holds : Machine → Prop) (access : Access) :
    Saves holds holds access access (pure ()) (some []) := by
  constructor
  · rintro m fine done rest _ ⟨⟩ split position -
    refine ⟨m, rfl, fine, ?_, ?_⟩
    · simpa using split
    · simpa using position
  · intro m fine done rest split position short
    exact absurd (short [] rfl) (Nat.not_lt_zero _)

/-! ## Fields -/

/-- What holds of a machine whatever stands in its buffer, and wherever its cursor is. -/
structure Steady (holds : Machine → Prop) : Prop where
  known : ∀ m, holds m → m.length.toNat = m.buffer.length
  moved : ∀ m, holds m → ∀ buffer offset, buffer.length = m.buffer.length →
    holds { m with buffer := buffer, offset := offset }

theorem steady_sameRecord (origin : Machine) : Steady (·.SameRecord origin) :=
  ⟨fun _ same => same.known,
    fun _ same _ _ long => ⟨same.objects, same.pointers, same.blocks, same.length, long ▸ same.known⟩⟩

/-- The statements of a copy at the cursor, which is checked first. -/
def copyStmts (memory : Memory) (count : Expr) : List Stmt :=
  [guardRoom count, .copy .write memory (.var .offset) count, .increase .offset count]

theorem saves_copy {holds : Machine → Prop} (steady : Steady holds) {memory : Memory} {count : Expr}
    {bytes : List UInt8} (small : bytes.length < 2 ^ 64)
    (counted : ∀ m, holds m → count.eval? m = some bytes.length.toUInt64)
    (copied : ∀ m, holds m → ∀ position, position + bytes.length ≤ m.buffer.length →
      Run.copyOut memory position bytes.length m =
        .ok () { m with buffer := overwrite m.buffer position bytes }) :
    Saves holds holds .cursor .cursor (Stmt.runAll (copyStmts memory count)) (some bytes) := by
  constructor
  · rintro m fine done rest _ ⟨⟩ split position fits
    change m.offset.toNat = done.length at position
    have known := steady.known m fine
    have fitsWord := m.length.toNat_lt
    have total : m.buffer.length = done.length + rest.length := by rw [split, List.length_append]
    have written : overwrite m.buffer m.offset.toNat bytes = (done ++ bytes) ++ rest.drop bytes.length := by
      rw [split, position, overwrite_append]
    have same : (overwrite m.buffer m.offset.toNat bytes).length = m.buffer.length := by
      rw [written, split]
      simp only [List.length_append, List.length_drop]
      omega
    have checked : (guardRoom count).run m = .ok () m := by
      rw [run_guardRoom (counted m fine) (by omega), toNat_toUInt64 small, if_neg (by omega)]
    have ran : (Stmt.copy .write memory (.var .offset) count).run m =
        .ok () { m with buffer := overwrite m.buffer m.offset.toNat bytes } := by
      rw [run_copy_write rfl (counted m fine), toNat_toUInt64 small]
      exact copied m fine _ (by change m.offset.toNat + _ ≤ _; omega)
    have moved := run_increase (v := .offset) (counted _ (steady.moved m fine _ m.offset same))
    refine ⟨_, ?_, steady.moved m fine _ (m.offset + bytes.length.toUInt64) same, written, ?_⟩
    · rw [copyStmts, Stmt.runAll_cons_of_ok checked, Stmt.runAll_cons_of_ok ran, Stmt.runAll_singleton]
      exact moved
    · rw [List.length_append, ← position]
      exact Machine.toNat_advance (by omega)
  · intro m fine done rest split position short
    change m.offset.toNat = done.length at position
    have known := steady.known m fine
    have total : m.buffer.length = done.length + rest.length := by rw [split, List.length_append]
    have tooLong := short bytes rfl
    refine ⟨m, Stmt.runAll_cons_of_halt ?_⟩
    rw [run_guardRoom (counted m fine) (by omega), toNat_toUInt64 small, if_pos (by omega)]

/-- Where the position of a field is known in advance, there is no check of its own. -/
theorem saves_moveFixed {holds : Machine → Prop} (steady : Steady holds) {x : Lvalue} {width : Nat}
    {bytes : List UInt8} (long : bytes.length = width) (source : ∀ m, holds m → m.offer x width = bytes)
    (small : width < 2 ^ 64) (access : Access)
    (covered : ∀ offset, access = .static offset → ∀ m, holds m → offset + width ≤ m.buffer.length) :
    Saves holds holds access (access.shift width) (Stmt.runAll (moveFixed .write x width access))
      (some bytes) := by
  subst long
  cases access with
  | cursor =>
    exact saves_copy steady small (fun m fine => rfl) fun m fine position inside =>
      copyOut_object (source m fine) inside
  | static offset =>
    constructor
    · rintro m fine done rest _ ⟨⟩ split position fits
      change offset = done.length at position
      have written : overwrite m.buffer offset bytes = (done ++ bytes) ++ rest.drop bytes.length := by
        rw [split, position, overwrite_append]
      refine ⟨_, runAll_moveFixed_write_static (steady.known m fine) rfl (source m fine)
        (covered offset rfl m fine), steady.moved m fine _ m.offset ?_, written, ?_⟩
      · rw [written, split]
        simp only [List.length_append, List.length_drop]
        omega
      · rw [List.length_append, ← position]
        rfl
    · intro m fine done rest split position short
      have inside := covered offset rfl m fine
      have tooLong := short bytes rfl
      change offset = done.length at position
      rw [split, List.length_append] at inside
      omega

theorem saves_object {place : Place} {width : Nat} (long : (origin.objects (.field place)).length = width)
    (small : width < 2 ^ 64) (access : Access)
    (covered : ∀ offset, access = .static offset → offset + width ≤ origin.length.toNat) :
    Saves (·.SameRecord origin) (·.SameRecord origin) access (access.shift width)
      (Stmt.runAll (moveFixed .write (.field place) width access))
      (some (origin.objects (.field place))) := by
  refine saves_moveFixed (steady_sameRecord origin) long ?_ small access ?_
  · intro m same
    exact congrFun same.objects (.field place)
  · intro offset static m same
    rw [← same.known, same.length]
    exact covered offset static

/-! ## Texts -/

/-- The bytes before the first NUL of a terminated text are those that the text shows. -/
theorem takeWhile_terminated (s : String) (rest : List UInt8) :
    (Utf8.encode s ++ 0 :: rest).takeWhile (· ≠ 0) = visibleBytes s := by
  rw [visibleBytes, List.takeWhile_append]
  split
  · rename_i all
    rw [List.takeWhile_cons_of_neg (by simp), List.append_nil]
    exact ((List.takeWhile_prefix _).eq_of_length all).symm
  · rfl

/-- A text that was measured: its length is known, and its bytes are at the pointer. -/
def Measured (origin : Machine) (x : Lvalue) (bytes : List UInt8) (m : Machine) : Prop :=
  m.SameRecord origin ∧ m.len.toNat = bytes.length ∧ ∃ rest, m.pointee? x = some (bytes ++ rest)

theorem steady_measured (origin : Machine) (x : Lvalue) (bytes : List UInt8) :
    Steady (Measured origin x bytes) :=
  ⟨fun _ measured => measured.1.known, fun m measured buffer offset long =>
    ⟨(steady_sameRecord origin).moved m measured.1 buffer offset long, measured.2⟩⟩

/-- The bytes of a text that was measured are put out behind its length. -/
theorem saves_payload (origin : Machine) (x : Lvalue) {bytes : List UInt8} (small : bytes.length < 2 ^ 64) :
    Saves (Measured origin x bytes) (Measured origin x bytes) .cursor .cursor
      (Stmt.runAll (copyStmts (.pointee x) (.var .len))) (some bytes) := by
  refine saves_copy (steady_measured origin x bytes) small ?_ ?_
  · rintro m ⟨-, len, -⟩
    refine congrArg some (UInt64.toNat_inj.mp ?_)
    change m.len.toUInt64.toNat = _
    rw [UInt32.toNat_toUInt64, len, toNat_toUInt64 small]
  · rintro m ⟨-, -, behind, pointee⟩ position inside
    exact copyOut_pointee pointee inside

def measureStmts (x : Lvalue) : List Stmt :=
  [.define .size (.cast .size (.textLength x)),
    .exitIf (.greater (.var .size) (.hexLiteral maxTextLength)) (.fault .bufferTooShort),
    .define .len (.cast .len (.var .size))]

theorem moveText_write (x : Lvalue) :
    moveText .write x =
      measureStmts x ++
        (moveFixed .write (.var .len) lengthWidth .cursor ++ copyStmts (.pointee x) (.var .len)) :=
  List.append_assoc ..

def Machine.measure (m : Machine) (n : Nat) : Machine :=
  { m with size := n.toUInt64, len := n.toUInt32 }

/-- A text too long for its length field ends the function. -/
theorem runAll_measureStmts {x : Lvalue} {block : List UInt8} {n : Nat}
    (pointee : m.pointee? x = some block) (terminated : block.contains 0 = true)
    (measured : (block.takeWhile (· ≠ 0)).length = n) (small : n < 2 ^ 64) :
    Stmt.runAll (measureStmts x) m =
      if maxTextLength < n then
        .error (.returned (.fault .bufferTooShort)) (m.setVar .size n.toUInt64)
      else .ok () (m.measure n) := by
  have length : (Expr.cast .size (.textLength x)).eval? m = some n.toUInt64 := by
    simp only [Expr.eval?, pointee, Option.bind_eq_bind, Option.bind_some, terminated, if_true, pure,
      measured]
    rfl
  have test : (Expr.greater (.var .size) (.hexLiteral maxTextLength)).eval? (m.setVar .size n.toUInt64) =
      some (Expr.ofTest (maxTextLength < n)) := by
    simp only [Expr.eval?, Machine.getVar, Machine.setVar, Option.bind_eq_bind, Option.bind_some, pure,
      gt_iff_lt, UInt64.lt_iff_toNat_lt, toNat_toUInt64 small,
      toNat_toUInt64 (show maxTextLength < 2 ^ 64 by decide)]
  rw [measureStmts, Stmt.runAll_cons_of_ok (run_define length)]
  split
  · rename_i tooLong
    refine Stmt.runAll_cons_of_halt ((run_exitIf test).trans ?_)
    rw [decide_eq_true tooLong]
    rfl
  · rename_i fits
    have passed : (Stmt.exitIf _ (.fault .bufferTooShort)).run (m.setVar .size n.toUInt64) = _ :=
      run_exitIf test
    rw [decide_eq_false fits] at passed
    have narrow : n.toUInt64.toUInt32.toUInt64.toUInt32 = n.toUInt32 := by simp
    rw [Stmt.runAll_cons_of_ok passed, Stmt.runAll_singleton, run_define rfl]
    simp only [Machine.setVar, Machine.getVar, narrow, Machine.measure]

theorem Machine.SameRecord.pointee?_eq {x y : Lvalue} {block : List UInt8} (same : m.SameRecord origin)
    (located : m.locate x = y) (points : origin.PointsTo y block) : m.pointee? x = some block := by
  obtain ⟨i, pointer, found⟩ := points
  simp only [Machine.pointee?, located, same.pointers, pointer, Option.bind_eq_bind, Option.bind_some,
    same.blocks, found]

/-- A text is put out up to its first NUL. -/
theorem saves_moveText {x y : Lvalue} {s : String} (carried : origin.CarriesText y s) :
    Saves (fun m => m.SameRecord origin ∧ m.locate x = y) (·.SameRecord origin) .cursor .cursor
      (Stmt.runAll (moveText .write x)) (FieldType.text.wire? (Value.text s).visible) := by
  obtain ⟨behind, points, bounded⟩ := carried
  have shown := takeWhile_terminated s behind
  have split := List.takeWhile_append_dropWhile (p := (· ≠ 0)) (l := Utf8.encode s ++ 0 :: behind)
  rw [shown] at split
  have small : (visibleBytes s).length < 2 ^ 64 := by
    have total := congrArg List.length split
    rw [List.length_append] at total
    omega
  have measuring : ∀ m : Machine, m.SameRecord origin ∧ m.locate x = y → _ := fun m holds =>
    runAll_measureStmts (holds.1.pointee?_eq holds.2 points) (by simp) (congrArg List.length shown) small
  rw [FieldType.wire?_text, moveText_write, Stmt.runAll_append]
  simp only [Value.visible, textBytes?, Value.encode_cutText]
  by_cases tooLong : maxTextLength < (visibleBytes s).length
  · rw [if_neg (by omega)]
    refine .refused ?_ _ _ _
    intro m holds
    refine ⟨m.setVar .size (visibleBytes s).length.toUInt64, ?_⟩
    exact Run.bind_of_halt ((measuring m holds).trans (if_pos tooLong))
  · rw [if_pos (by omega), Stmt.runAll_append]
    have header : Saves (Measured origin x (visibleBytes s)) _ .cursor .cursor _ _ :=
      saves_moveFixed (steady_measured origin x (visibleBytes s)) (x := .var .len)
        (length_littleEndian 4 (visibleBytes s).length) ?_ (by decide) .cursor (by simp)
    refine .prepared ?_ ((header.andThen (saves_payload origin x small)).weaken fun m measured => measured.1)
    · intro m holds
      refine ⟨m.measure (visibleBytes s).length, ?_, ⟨?_, ?_, ?_⟩, rfl, rfl⟩
      · rw [measuring m holds, if_neg tooLong]
      · exact ⟨holds.1.objects, holds.1.pointers, holds.1.blocks, holds.1.length, holds.1.known⟩
      · exact Nat.mod_eq_of_lt (by simp only [maxTextLength] at tooLong; omega)
      · exact ⟨_, split ▸ holds.1.pointee?_eq holds.2 points⟩
    · rintro m ⟨-, len, -⟩
      simp only [Machine.offer, Machine.getVar, UInt32.toNat_toUInt64, len]

/-- The texts of an array from an index on, by induction on how many are left. -/
theorem saves_texts {place : Place} (texts : List String) (i : Nat)
    (carried : ∀ j s, texts[j]? = some s → origin.CarriesText (.item place (.literal (i + j))) s) :
    Saves (·.SameRecord origin) (·.SameRecord origin) .cursor .cursor
      (Run.repeated (Stmt.runAll (moveText .write (.item place .counter))) i texts.length)
      (FieldType.joined? FieldType.text.wire? ((texts.map Value.text).map Value.visible)) := by
  induction texts generalizing i with
  | nil => exact .nothing _ _
  | cons s texts inductionHypothesis =>
    have others := inductionHypothesis (i + 1) fun j s found => by
      rw [Nat.add_assoc, Nat.add_comm 1 j]
      exact carried (j + 1) s found
    have first := (saves_moveText (x := .item place .counter) (carried 0 s rfl)).andThen others
    refine .prepared ?_ first
    intro m same
    exact ⟨{ m with counter := i }, rfl,
      ⟨⟨same.objects, same.pointers, same.blocks, same.length, same.known⟩, rfl⟩, rfl, rfl⟩

/-! ## Optional fields -/

theorem saves_flag {present : Expr} {b : Bool}
    (test : ∀ m : Machine, m.SameRecord origin → present.eval? m = some (Expr.ofTest b)) :
    Saves (·.SameRecord origin) (fun m => m.SameRecord origin ∧ m.flag.toUInt64 = Expr.ofTest b)
      .cursor .cursor
      (do (Stmt.define .flag present).run; Stmt.runAll (moveFixed .write (.var .flag) flagWidth .cursor))
      (some [if b then 1 else 0]) := by
  have steady : Steady fun m => m.SameRecord origin ∧ m.flag.toUInt64 = Expr.ofTest b :=
    ⟨fun _ holds => holds.1.known, fun m holds buffer offset long =>
      ⟨(steady_sameRecord origin).moved m holds.1 buffer offset long, holds.2⟩⟩
  have long : [if b then (1 : UInt8) else 0].length = flagWidth := rfl
  refine .prepared ?_ (saves_moveFixed steady (x := .var .flag) long ?_ (by decide) .cursor (by simp))
  · intro m same
    refine ⟨_, run_define (test m same),
      ⟨⟨same.objects, same.pointers, same.blocks, same.length, same.known⟩, ?_⟩, rfl, rfl⟩
    cases b <;> rfl
  · rintro m ⟨-, flag⟩
    simp only [Machine.offer, Machine.getVar, flag]
    cases b <;> rfl

/-- Behind the flag there is what the body saves if it is set, and nothing otherwise. -/
theorem saves_moveOptional {present : Expr} {absent : Stmt} {body : List Stmt} (b : Bool)
    (wire? : Option (List UInt8))
    (test : ∀ m : Machine, m.SameRecord origin → present.eval? m = some (Expr.ofTest b))
    (saves : b = true → Saves (·.SameRecord origin) (·.SameRecord origin) .cursor .cursor
      (Stmt.runAll body) wire?) :
    Saves (·.SameRecord origin) (·.SameRecord origin) .cursor .cursor
      (moveOptional .write present absent body).run
      (if b then wire?.map (1 :: ·) else some [0]) := by
  have behind : Saves (fun m => m.SameRecord origin ∧ m.flag.toUInt64 = Expr.ofTest b)
      (·.SameRecord origin) .cursor .cursor (Stmt.ifThen (.var .flag) body).run
      (if b then wire? else some []) := by
    have branch : ∀ m : Machine, m.flag.toUInt64 = Expr.ofTest b →
        (Stmt.ifThen (.var .flag) body).run m = if b then Stmt.runAll body m else .ok () m :=
      fun m flag => run_ifThen (congrArg some flag)
    cases b with
    | false =>
      exact (Saves.nothing (·.SameRecord origin) .cursor).of_run fun m holds =>
        ⟨holds.1, branch m holds.2⟩
    | true => exact (saves rfl).of_run fun m holds => ⟨holds.1, branch m holds.2⟩
  have both := (saves_flag test).andThen behind
  rw [moveOptional, Stmt.run, Stmt.runAll_append, Stmt.runAll_append, Stmt.runAll_singleton,
    Stmt.runAll_singleton]
  cases b <;> exact both

/-! ## Fields by their type -/

theorem saves_moveField_of_fixed {ty : FieldType} {width : Nat} {transfer : Access → Transfer}
    (moved : MovedFixed ty width transfer) (small : width < 2 ^ 64) {access : Access}
    (covered : ∀ offset, access = .static offset → offset + width ≤ origin.length.toNat) {place : Place}
    {v : Value} (carried : origin.Carries place ty v) :
    Saves (·.SameRecord origin) (·.SameRecord origin) access (access.shift width)
      (Stmt.runAll (moveField .write place (transfer access))) (ty.wire? v.visible) := by
  have fixed := moved.fixedWidth?
  have inPlace : ty.wire? v.visible = some (origin.objects (.field place)) := by
    rw [FieldType.wire?_visible_of_fixed ty width fixed]
    cases carried with
    | inPlace _ encoded => exact Value.encode_eq_ok_iff.mp encoded
    | text => cases fixed
    | texts => cases fixed
    | absentText => cases fixed
    | presentText => cases fixed
    | absentScalar => cases fixed
    | presentScalar => cases fixed
  rw [inPlace]
  have saves := saves_object (FieldType.length_of_wire? fixed inPlace) small access covered
  cases moved with
  | scalar kind => exact saves
  | block fixed => exact saves

theorem Machine.SameRecord.eval_isNotNull (same : m.SameRecord origin) (place : Place) :
    (Expr.isNotNull (.field place)).eval? m =
      some (Expr.ofTest (origin.pointers (.field place)).isSome) := by
  rw [← same.pointers]
  rfl

/-- An optional number is there if its mark is not zero. -/
theorem Machine.SameRecord.eval_mark (same : m.SameRecord origin) {place : Place} {presence : UInt8}
    (mark : origin.objects (.field place) = [presence]) :
    (Expr.differs (.load (.field place)) (.literal 0)).eval? m =
      some (Expr.ofTest (presence ≠ 0)) := by
  have small := presence.toNat_lt
  have loaded : (Expr.load (.field place)).eval? m = some presence.toNat.toUInt64 := by
    rw [← ofLittleEndian_singleton, ← mark, ← same.objects]
    rfl
  have zero : presence.toNat.toUInt64 = (0 : Nat).toUInt64 ↔ presence = 0 := by
    rw [← UInt64.toNat_inj, toNat_toUInt64 (by omega), ← UInt8.toNat_inj]
    rfl
  rw [Expr.eval?, loaded]
  simp only [Expr.eval?, Option.bind_eq_bind, Option.bind_some, pure, ne_eq, zero]

theorem saves_moveField_atCursor {ty : FieldType} {transfer : Transfer} (moved : MovedAtCursor ty transfer)
    {place : Place} {v : Value} (carried : origin.Carries place ty v) :
    Saves (·.SameRecord origin) (·.SameRecord origin) .cursor .cursor
      (Stmt.runAll (moveField .write place transfer)) (ty.wire? v.visible) := by
  have textField : ∀ s, origin.CarriesText (.field place) s →
      Saves (·.SameRecord origin) (·.SameRecord origin) .cursor .cursor
        (Stmt.runAll (moveText .write (.field place))) (FieldType.text.wire? (Value.text s).visible) :=
    fun s carried => (saves_moveText carried).of_run fun m same => ⟨⟨same, rfl⟩, rfl⟩
  cases moved with
  | text =>
    rw [moveField, Stmt.runAll_singleton, Stmt.run]
    cases carried with
    | inPlace fixed => cases fixed
    | text carried => exact textField _ carried
  | @texts count small =>
    rw [moveField, Stmt.runAll_singleton, Stmt.run]
    cases carried with
    | inPlace fixed => cases fixed
    | @texts _ texts full carried =>
      rw [FieldType.wire?_array, ← full]
      simp only [Value.visible, Value.visibleItems_eq_map, List.length_map, if_true]
      exact saves_texts texts 0 fun j s found => by
        rw [Nat.zero_add]
        exact carried j s found
  | optionalText =>
    rw [moveField, Stmt.runAll_singleton, FieldType.wire?_option]
    cases carried with
    | inPlace fixed => cases fixed
    | absentText null =>
      refine saves_moveOptional false none (fun m same => ?_) (by simp)
      rw [same.eval_isNotNull, null]
      rfl
    | presentText carried =>
      refine saves_moveOptional true _ (fun m same => ?_) fun _ => textField _ carried
      obtain ⟨rest, ⟨i, pointer, found⟩, bounded⟩ := carried
      rw [same.eval_isNotNull, pointer]
      rfl
  | optionalScalar kind =>
    rw [moveField, Stmt.runAll_singleton, FieldType.wire?_option]
    cases carried with
    | inPlace fixed => cases fixed
    | absentScalar mark =>
      exact saves_moveOptional false none (fun m same => same.eval_mark mark) (by simp)
    | @presentScalar s presence announced mark value =>
      have inPlace : (FieldType.scalar s.kind).wire? (.scalar s) =
          some (origin.objects (.field (place.member valueMember))) := by
        rw [FieldType.wire?_scalar, value]
        exact if_pos rfl
      have width : _ = s.kind.width := FieldType.length_of_wire? rfl inPlace
      refine saves_moveOptional true _ (fun m same => ?_) fun _ => ?_
      · rw [same.eval_mark mark, decide_eq_true announced]
      · rw [Value.visible, inPlace, List.append_nil]
        exact saves_object width (by cases s.kind <;> decide) .cursor (by simp)

/-! ## Steps -/

/-- Starting the cursor saves no bytes: it then says what was known before. -/
theorem saves_seed {state : LayoutState} {post : Machine → Prop} {after : Access} {stmts : List Stmt}
    {wire? : Option (List UInt8)}
    (saves : Saves (·.SameRecord origin) post .cursor after (Stmt.runAll stmts) wire?) :
    Saves (·.SameRecord origin) post state.access after
      (Stmt.runAll (state.seed.flatMap (stepStmts .write) ++ stmts)) wire? := by
  by_cases dynamic : state.dynamic = true
  · rw [LayoutState.access, LayoutState.seed, if_pos dynamic, if_pos dynamic]
    exact saves
  · rw [LayoutState.access, if_neg dynamic]
    have ready : ∀ m : Machine, m.SameRecord origin →
        (m.setVar .offset state.staticOffset.toUInt64).SameRecord origin :=
      fun m same => (steady_sameRecord origin).moved m same _ _ rfl
    have position : ∀ m : Machine, m.SameRecord origin → ∀ done rest, m.buffer = done ++ rest →
        state.staticOffset = done.length → state.staticOffset.toUInt64.toNat = done.length := by
      intro m same done rest split start
      have known := same.known
      have fits := m.length.toNat_lt
      rw [split, List.length_append] at known
      rw [toNat_toUInt64 (by omega), start]
    constructor
    · intro m same done rest bytes wire split start fits
      rw [runAll_seed dynamic]
      exact saves.goesOn _ (ready m same) done rest bytes wire split
        (position m same done rest split start) fits
    · intro m same done rest split start short
      rw [runAll_seed dynamic]
      exact saves.stops _ (ready m same) done rest split (position m same done rest split start) short

theorem visibleAt_root (v : Value) (name : String) :
    v.visibleAt [] name = (v.get? name).map Value.visible := by
  rw [Value.visibleAt, List.nil_append]
  simp only [Value.getPath?, Option.bind_eq_bind]
  cases v.get? name <;> rfl

theorem saves_steps {fields : List Field} {state final : LayoutState} {steps : List Step}
    (laid : LaidOut fields state steps final) (covered : final.staticOffset ≤ origin.length.toNat)
    (flat : ∀ field ∈ fields, ∀ inner, field.2 ≠ .struct inner) {v : Value}
    (carried : origin.CarriesFields state.scope fields v) :
    Saves (·.SameRecord origin) (·.SameRecord origin) state.access final.access
      (Stmt.runAll (steps.flatMap (stepStmts .write))) (FieldType.wireFields? fields (v.visibleAt [])) := by
  induction laid with
  | nil => exact .nothing _ _
  | @fixed name ty fields state next final width transfer access steps moved advanced rest
      inductionHypothesis =>
    obtain ⟨w, found, holds⟩ := carried (name, ty) List.mem_cons_self
    obtain ⟨accessBefore, accessAfter⟩ := LayoutState.advance?_access advanced
    have flatRest := fun field listed => flat field (List.mem_cons_of_mem _ listed)
    have others := inductionHypothesis covered flatRest fun field listed =>
      (LayoutState.advance?_frame advanced).1 ▸ carried field (List.mem_cons_of_mem _ listed)
    rw [accessAfter] at others
    obtain ⟨small, ends⟩ := LayoutState.advance?_ends advanced
    have within : ∀ offset, access = .static offset → offset + width ≤ origin.length.toNat := by
      intro offset static
      rw [ends offset static]
      exact Nat.le_trans rest.staticOffset_le covered
    have first := saves_moveField_of_fixed moved (Nat.lt_of_le_of_lt small (by decide)) within holds
    have both := first.andThen others
    rw [accessBefore, List.flatMap_cons, Stmt.runAll_append]
    rw [FieldType.wireFields?, FieldType.joined?, visibleAt_root, found]
    exact both
  | @atCursor name ty fields state final transfer steps moved rest inductionHypothesis =>
    obtain ⟨w, found, holds⟩ := carried (name, ty) List.mem_cons_self
    have flatRest := fun field listed => flat field (List.mem_cons_of_mem _ listed)
    have others := inductionHypothesis covered flatRest fun field listed =>
      carried field (List.mem_cons_of_mem _ listed)
    have both := (saves_moveField_atCursor moved holds).andThen others
    rw [List.flatMap_append]
    refine saves_seed ?_
    rw [List.flatMap_cons, Stmt.runAll_append, FieldType.wireFields?, FieldType.joined?, visibleAt_root,
      found]
    exact both
  | nested within rest inductionWithin inductionRest => exact absurd rfl (flat _ List.mem_cons_self _)

/-! ## Whole writers -/

/-- A writer returns success where the bytes of the record are there and fit, and then they are at the
front of the buffer, whose rest is as it was.  Everywhere else it returns that the buffer is too short. -/
theorem runAll_writer {fields : List Field} {base : String} {plan : Plan}
    (built : Plan.build fields base = .ok plan) (nonempty : fields ≠ [])
    (flat : ∀ field ∈ fields, ∀ inner, field.2 ≠ .struct inner) (known : m.length.toNat = m.buffer.length)
    {v : Value} (carried : m.CarriesFields { base } fields v) :
    (∀ bytes, (FieldType.struct fields).wire? v.visible = some bytes → bytes.length ≤ m.buffer.length →
      ∃ m', Stmt.runAll (planStmts .write plan) m = .error (.returned .ok) m' ∧
        m'.buffer = bytes ++ m.buffer.drop bytes.length) ∧
    ((∀ bytes, (FieldType.struct fields).wire? v.visible = some bytes → m.buffer.length < bytes.length) →
      ∃ m', Stmt.runAll (planStmts .write plan) m = .error (.returned (.fault .bufferTooShort)) m') := by
  obtain ⟨final, laid, size⟩ := Plan.laidOut_of_build built
  have same : m.SameRecord m := ⟨rfl, rfl, rfl, rfl, known⟩
  have wire : FieldType.wireFields? fields (v.visibleAt []) = (FieldType.struct fields).wire? v.visible :=
    FieldType.wireFields?_visibleAt nonempty v []
  have saves := fun covered => wire ▸ saves_steps laid covered flat carried
  rw [runAll_planStmts (Plan.fixedSize_lt built)]
  constructor
  · intro bytes written fits
    have long := Plan.fixedSize_le built written
    obtain ⟨m', ran, -, split, -⟩ :=
      (saves (by omega)).goesOn m same [] m.buffer bytes written rfl rfl fits
    refine ⟨m', ?_, split⟩
    rw [if_neg (by omega), Stmt.runAll_exit ran]
  · intro nothing
    by_cases short : m.length.toNat < plan.fixedSize
    · exact ⟨m, if_pos short⟩
    · obtain ⟨m', ran⟩ := (saves (by omega)).stops m same [] m.buffer rfl rfl nothing
      exact ⟨m', by rw [if_neg short, Stmt.runAll_append_of_halt ran]⟩

end PackedRecord.C
