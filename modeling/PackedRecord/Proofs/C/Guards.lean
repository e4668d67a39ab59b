import PackedRecord.Proofs.C.Mentions

/-!
# Every use of the buffer is guarded

A generated function tests once for the fixed part of the record and copies that part at known positions.
From the start of the cursor on it tests for the bytes of each copy in front of the copy, in the same block,
and moves the cursor over just these bytes behind it.

* `Covered` and `Checked` are the two kinds of copies, told from the lines around them.
* `Traced.checked`: copies among the lines of accesses are of the second kind.
* `codec_guarded`: no line of a function gets at the buffer in another way.
-/

namespace PackedRecord.C

open Stmt

/-! ## Copies and their guards -/

/-- A line that gets at the buffer. -/
def Touches (line : String) : Prop :=
  Mentions "alon_memcpy" line ∨ Mentions "buffer" line

/-- A line behind `front` that copies at a known position, in the fixed part, while there is no cursor. -/
def Covered (direction : Direction) (fixedSize : Nat) (front : List String) (line : String) : Prop :=
  ∃ memory : Memory, ∃ position width,
    line = indented 1 (copyText direction memory.text (toString position) (toString width)) ∧
    position + width ≤ fixedSize ∧ ∀ level offset, indented level (seedText offset) ∉ front

/-- A line that leaves the cursor alone and neither begins nor ends a block. -/
def Idle (line : String) : Prop :=
  ¬ Mentions "offset" line ∧ '\x7b' ∉ line.toList ∧ '\x7d' ∉ line.toList

/-- A line between `front` and `back` that copies at the cursor.  Behind `start` there is a test for the
bytes of the copy, in the block of the copy, and the next thing that happens to the cursor after the copy is
that it moves over these bytes. -/
def Checked (direction : Direction) (start front : List String) (line : String) (back : List String) :
    Prop :=
  ∃ level, ∃ memory : Memory, ∃ width : Width, ∃ before after finish,
    front = start ++ indented level (guardText width.text) :: before ∧
    line = indented level (copyText direction memory.text "offset" width.text) ∧
    back = after ++ indented level (advanceText width.text) :: finish ∧
    ∀ between ∈ before ++ after, Idle between

/-- The lines of a body use the buffer of a plan in a safe way. -/
structure Guarded (direction : Direction) (plan : Plan) (body : List String) : Prop where
  /-- The test for the fixed part is the first line, if there is such a part, and there is no other. -/
  check : ∃ rest, body = checkLines plan ++ rest ∧ ∀ level size, indented level (checkText size) ∉ rest
  /-- Every copy is in the fixed part, or behind the start of the cursor and with a test of its own. -/
  copy : ∀ front line back, body = front ++ line :: back → Touches line →
    Covered direction plan.fixedSize front line ∨
      ∃ start, Checked direction start front line back ∧ indented 1 (seedText plan.fixedSize) ∈ start
  /-- Without a start of the cursor there is no cursor, and the length is tested at most once. -/
  static : (∀ offset, Step.seedCursor offset ∉ plan.steps) → ∀ line ∈ body,
    ¬ Mentions "offset" line ∧ (Mentions "length" line → line = indented 1 (checkText plan.fixedSize))

theorem Checked.extend {direction : Direction} {start front back : List String} {line : String}
    (checked : Checked direction start front line back) (before : List String) :
    Checked direction (before ++ start) (before ++ front) line back := by
  obtain ⟨level, memory, width, between, after, finish, rfl, same, behind, idle⟩ := checked
  exact ⟨level, memory, width, between, after, finish, by simp, same, behind, idle⟩

/-- A copy behind a first line that is none is checked as it is without that line. -/
theorem exists_checked_cons {direction : Direction} {lines front back : List String} {first line : String}
    (other : ¬ Touches first) (touches : Touches line) (split : first :: lines = front ++ line :: back)
    (later : ∀ {front}, lines = front ++ line :: back → ∃ start, Checked direction start front line back) :
    ∃ start, Checked direction start front line back := by
  cases front with
  | nil =>
    obtain ⟨rfl, rfl⟩ := List.cons.inj split
    exact absurd touches other
  | cons same front =>
    obtain ⟨rfl, behind⟩ := List.cons.inj split
    obtain ⟨start, checked⟩ := later behind
    exact ⟨[first] ++ start, checked.extend [first]⟩

theorem split_unique {α : Type} {P : α → Prop} {list more front back : List α} {a b : α}
    (split : list ++ a :: more = front ++ b :: back) (holds : P b) (before : ∀ x ∈ list, ¬ P x)
    (after : ∀ x ∈ more, ¬ P x) : front = list ∧ b = a ∧ back = more := by
  rcases split_append split with ⟨between, rfl, -⟩ | ⟨between, rfl, rest⟩
  · exact absurd holds (before b (by simp))
  · cases between with
    | nil =>
      obtain ⟨rfl, rfl⟩ := List.cons.inj rest
      exact ⟨by simp, rfl, rfl⟩
    | cons c between =>
      obtain ⟨rfl, rfl⟩ := List.cons.inj rest
      exact absurd holds (after b (by simp))

/-! ## Lines of events -/

def StaticIn (fixedSize : Nat) (events : Trace) : Prop :=
  ∀ e ∈ events, ∃ memory position width,
    e = (1, .static memory position width) ∧ position + width ≤ fixedSize

def Event.isMoving : Event → Bool
  | loop _ | access .. => true
  | _ => false

/-- A line whose text mentions only other things does not touch the buffer. -/
theorem not_touches_of_text (level : Nat) {text : String} (allowed : List String)
    (only : ∀ name ∈ watched, Mentions name text → name ∈ allowed)
    (other : "alon_memcpy" ∉ allowed ∧ "buffer" ∉ allowed) : ¬ Touches (indented level text) := by
  rintro (mentions | mentions)
  · exact other.1 (only _ (by decide) (mentions.of_indented (by decide)))
  · exact other.2 (only _ (by decide) (mentions.of_indented (by decide)))

section

variable {direction : Direction} {base : String} {lines : List String} {events : Trace}
  (unwatched : base ∉ watched)

include unwatched

theorem not_touches_of_aside (level : Nat) {text : String} (aside : Aside base text) :
    ¬ Touches (indented level text) := by
  refine not_touches_of_text level [] (fun name among mentions => ?_) (by decide)
  exact absurd mentions (aside.not_mentions among unwatched)

theorem idle_of_aside (level : Nat) {text : String} (aside : Aside base text) (unbroken : Unbroken text) :
    Idle (indented level text) := by
  refine ⟨fun mentions => ?_, by simp [unbroken.2.1], by simp [unbroken.2.2]⟩
  exact aside.not_mentions (by decide) unwatched (mentions.of_indented (by decide))

theorem LineOf.exists_event {name line : String} (kind : LineOf direction base events line)
    (among : name ∈ watched) (mentions : Mentions name line) :
    ∃ level event text, (level, event) ∈ events ∧ event.Below base ∧ text ∈ event.lines direction ∧
      line = indented level text ∧ Mentions name text := by
  cases kind with
  | aside level aside => exact absurd (mentions.of_indented among) (aside.not_mentions among unwatched)
  | event listed below shown => exact ⟨_, _, _, listed, below, shown, rfl, mentions.of_indented among⟩

/-- The lines of copies at known positions mention neither the length of the buffer nor the cursor. -/
theorem Traced.mentions_of_static {fixedSize : Nat} (traced : Traced direction base lines events)
    (fixed : StaticIn fixedSize events) {name line : String} (among : name ∈ watched) (listed : line ∈ lines)
    (mentions : Mentions name line) :
    name ∈ ["alon_memcpy", "buffer"] ∧ ∃ memory : Memory, ∃ position width,
      line = indented 1 (copyText direction memory.text (toString position) (toString width)) ∧
      position + width ≤ fixedSize := by
  obtain ⟨level, event, text, happens, below, shown, rfl, inText⟩ :=
    (traced.lineOf_mem listed).exists_event unwatched among mentions
  obtain ⟨memory, position, width, same, inside⟩ := fixed _ happens
  obtain ⟨rfl, rfl⟩ := Prod.mk.inj same
  rw [Event.lines, List.mem_singleton] at shown
  subst shown
  exact ⟨mentions_staticCopy among unwatched below inText, memory, position, width, rfl, inside⟩

/-- Among the lines of accesses and loops, only guards mention the length of the buffer. -/
theorem Traced.guard_of_mentions_length (traced : Traced direction base lines events)
    (moving : ∀ e ∈ events, e.2.isMoving = true) {line : String} (listed : line ∈ lines)
    (mentions : Mentions "length" line) :
    ∃ level, ∃ width : Width, line = indented level (guardText width.text) := by
  have among : "length" ∈ watched := by decide
  obtain ⟨level, event, text, happens, below, shown, rfl, inText⟩ :=
    (traced.lineOf_mem listed).exists_event unwatched among mentions
  have moves := moving _ happens
  cases event with
  | check size | seed offset | static memory position width => cases moves
  | loop count =>
    rw [Event.lines, List.mem_singleton] at shown
    subst shown
    exact absurd inText (not_mentions_loop among count)
  | access memory width =>
    simp only [Event.lines, List.mem_cons, List.not_mem_nil, or_false] at shown
    rcases shown with rfl | rfl | rfl
    · exact ⟨level, width, rfl⟩
    · exact absurd (mentions_cursorCopy among unwatched below inText) (by decide)
    · exact absurd (mentions_advance among inText) (by decide)

theorem checked_of_access {memory : Memory} {before after front between : List String} {line : String}
    {level : Nat} {width : Width} (asides : ∀ text ∈ before ++ after, Aside base text ∧ Unbroken text)
    (split : (accessLines direction memory width before after).map (indented level) =
      front ++ line :: between)
    (touches : Touches line) (rest : List String) : Checked direction [] front line (between ++ rest) := by
  have shape : (accessLines direction memory width before after).map (indented level) =
      (indented level (guardText width.text) :: before.map (indented level)) ++
        indented level (copyText direction memory.text "offset" width.text) ::
          (after.map (indented level) ++ [indented level (advanceText width.text)]) := by
    simp [accessLines]
  have others : ∀ text ∈ before ++ after, ¬ Touches (indented level text) :=
    fun text listed => not_touches_of_aside unwatched level (asides text listed).1
  have guarding : ¬ Touches (indented level (guardText width.text)) :=
    not_touches_of_text level _ (fun _ among => mentions_guard among) (by decide)
  have advancing : ¬ Touches (indented level (advanceText width.text)) :=
    not_touches_of_text level _ (fun _ among => mentions_advance among) (by decide)
  rw [shape] at split
  rw [List.forall_mem_append] at others
  obtain ⟨rfl, rfl, rfl⟩ := split_unique split touches
    (List.forall_mem_cons.mpr ⟨guarding, List.forall_mem_map.mpr others.1⟩)
    (List.forall_mem_append.mpr ⟨List.forall_mem_map.mpr others.2, List.forall_mem_singleton.mpr advancing⟩)
  refine ⟨level, memory, width, before.map (indented level), after.map (indented level), rest, by simp, rfl,
    by simp, ?_⟩
  rw [← List.map_append, List.forall_mem_map]
  exact fun text listed => idle_of_aside unwatched level (asides text listed).1 (asides text listed).2

/-- A copy among the lines of accesses and loops stands in an access. -/
theorem Traced.checked (traced : Traced direction base lines events)
    (moving : ∀ e ∈ events, e.2.isMoving = true) {front back : List String} {line : String}
    (split : lines = front ++ line :: back) (touches : Touches line) :
    ∃ start, Checked direction start front line back := by
  -- By induction on the lines: outside of accesses no line touches the buffer.
  induction traced generalizing front with
  | nil => simp at split
  | aside level aside rest inductionHypothesis =>
    exact exists_checked_cons (not_touches_of_aside unwatched level aside) touches split
      (inductionHypothesis moving)
  | @event text event lines events level alone below rest inductionHypothesis =>
    obtain ⟨moves, others⟩ := List.forall_mem_cons.mp moving
    cases event with
    | check size | seed offset | static memory position width => cases moves
    | access memory width => simp [Event.lines] at alone
    | loop count =>
      obtain rfl : loopText count = text := by simpa [Event.lines] using alone
      have other := not_touches_of_text level [] (fun name among mentions =>
        absurd mentions (not_mentions_loop among count)) (by decide)
      exact exists_checked_cons other touches split (inductionHypothesis others)
  | access level width below asides rest inductionHypothesis =>
    obtain ⟨-, others⟩ := List.forall_mem_cons.mp moving
    rcases split_append split with ⟨between, within, rfl⟩ | ⟨between, rfl, behind⟩
    · exact ⟨[], checked_of_access unwatched asides within touches _⟩
    · obtain ⟨start, checked⟩ := inductionHypothesis others behind
      exact ⟨_, checked.extend _⟩

end

/-! ## The two parts of a function -/

/-- The lines of a plan behind the test for the fixed part. -/
inductive Parted (direction : Direction) (base : String) (plan : Plan) : List String → Prop where
  | fixed {lines : List String} {events : Trace} (traced : Traced direction base lines events)
    (static : StaticIn plan.fixedSize events) : Parted direction base plan lines
  | started {lines rest : List String} {events others : Trace}
    (traced : Traced direction base lines events) (static : StaticIn plan.fixedSize events)
    (seeded : .seedCursor plan.fixedSize ∈ plan.steps) (behind : Traced direction base rest others)
    (moving : ∀ e ∈ others, e.2.isMoving = true) :
    Parted direction base plan (lines ++ indented 1 (seedText plan.fixedSize) :: rest)

theorem staticIn_of_tiles {start finish : Nat} {steps : List Step} (tiles : Tiles start steps finish) :
    StaticIn finish (steps.flatMap stepEvents) := by
  induction tiles with
  | nil => simp [StaticIn]
  | @cons start width finish step steps extent rest inductionHypothesis =>
    have short := rest.le
    rw [List.flatMap_cons, StaticIn, List.forall_mem_append]
    refine ⟨?_, inductionHypothesis⟩
    rcases step with offset | ⟨place, transfer⟩
    · cases extent
    · cases transfer with
      | scalar kind access | block ty length access =>
        cases extent
        exact List.forall_mem_singleton.mpr ⟨_, _, _, rfl, short⟩
      | _ => cases extent

theorem moving_of_atCursor {step : Step} (atCursor : step.AtCursor) :
    ∀ e ∈ stepEvents step, e.2.isMoving = true := by
  obtain ⟨placed, cursor⟩ := atCursor
  rcases step with offset | ⟨place, transfer⟩
  · cases placed
  · cases transfer with
    | scalar kind access | block ty length access =>
      obtain rfl := cursor _ _ rfl
      exact List.forall_mem_singleton.mpr rfl
    | _ => simp [stepEvents, fieldEvents, textEvents, flagEvent, fixedEvents, Event.isMoving]

theorem parted_of_build {fields : List Field} {base : String} {plan : Plan}
    (built : Plan.build fields base = .ok plan) (baseIdentifier : isIdentifier base = true)
    (identified : (FieldType.struct fields).EveryScope Identified) (direction : Direction) :
    Parted direction base plan (linesOf 1 (plan.steps.flatMap (stepStmts direction)) ++ exitLines) := by
  have below := stepBelow_of_build built baseIdentifier identified
  have exit : Traced direction base exitLines [] := traced_exitLines direction
  obtain ⟨final, laid, size⟩ := Plan.laidOut_of_build built
  have staged : Staged plan.fixedSize (.static 0) plan.steps final.access := by
    rw [size]
    exact laid.staged
  -- The plan is taken apart so that the two shapes of its stages can stand for its steps.
  obtain ⟨planBase, fixedSize, steps⟩ := plan
  generalize final.access = after at staged
  change Staged fixedSize (.static 0) steps after at staged
  cases staged with
  | fixed tiles =>
    have traced := (traced_steps direction below).append exit
    rw [List.append_nil] at traced
    exact .fixed traced (staticIn_of_tiles tiles)
  | @started _ first static rest tiles varies behind =>
    obtain ⟨belowStatic, belowMore⟩ := List.forall_mem_append.mp below
    have later := (traced_steps direction (List.forall_mem_cons.mp belowMore).2).append exit
    rw [List.append_nil] at later
    have moving : ∀ e ∈ (first :: rest).flatMap stepEvents, e.2.isMoving = true := by
      intro e listed
      obtain ⟨step, among, listed⟩ := List.mem_flatMap.mp listed
      exact moving_of_atCursor (behind step among) e listed
    rw [List.flatMap_append, List.flatMap_cons, linesOf_append, linesOf_append, stepStmts, linesOf_seed,
      List.append_assoc, List.append_assoc]
    exact .started (traced_steps direction belowStatic) (staticIn_of_tiles tiles) (by simp) later moving

/-! ## Whole functions -/

section

variable {direction : Direction} {base : String} {plan : Plan} {rest : List String}
  (unwatched : base ∉ watched)

include unwatched

theorem covered_of_static {lines front back : List String} {line : String} {events : Trace}
    {fixedSize : Nat} (traced : Traced direction base lines events) (static : StaticIn fixedSize events)
    (split : lines = front ++ line :: back) (touches : Touches line) :
    Covered direction fixedSize front line := by
  have listed : line ∈ lines := by simp [split]
  obtain ⟨memory, position, width, same, inside⟩ : ∃ memory : Memory, ∃ position width,
      line = indented 1 (copyText direction memory.text (toString position) (toString width)) ∧
      position + width ≤ fixedSize := by
    rcases touches with mentions | mentions
    · exact (traced.mentions_of_static unwatched static (by decide) listed mentions).2
    · exact (traced.mentions_of_static unwatched static (by decide) listed mentions).2
  refine ⟨memory, position, width, same, inside, fun level offset seeded => ?_⟩
  have early : indented level (seedText offset) ∈ lines := by simp [split, seeded]
  have known := traced.mentions_of_static unwatched static (by decide) early (mentions_seedLine level offset)
  exact absurd known.1 (by decide)

namespace Parted

theorem not_check (parted : Parted direction base plan rest) (level size : Nat) :
    indented level (checkText size) ∉ rest := by
  have mentions := mentions_checkLine level size
  have among : "length" ∈ watched := by decide
  intro listed
  cases parted with
  | fixed traced static =>
    exact absurd (traced.mentions_of_static unwatched static among listed mentions).1 (by decide)
  | started traced static seeded behind moving =>
    rcases List.mem_append.mp listed with listed | listed
    · exact absurd (traced.mentions_of_static unwatched static among listed mentions).1 (by decide)
    · rcases List.mem_cons.mp listed with same | listed
      · rw [same] at mentions
        exact absurd (mentions_seed among (mentions.of_indented among)) (by decide)
      · obtain ⟨level', width, same⟩ := behind.guard_of_mentions_length unwatched moving listed mentions
        have cursor := mentions_guardLine level' width.text
        rw [← same] at cursor
        exact absurd (mentions_check (by decide) (cursor.of_indented (by decide))) (by decide)

theorem copy (parted : Parted direction base plan rest) {front back : List String} {line : String}
    (split : rest = front ++ line :: back) (touches : Touches line) :
    Covered direction plan.fixedSize front line ∨
      ∃ start, Checked direction start front line back ∧ indented 1 (seedText plan.fixedSize) ∈ start := by
  cases parted with
  | fixed traced static => exact .inl (covered_of_static unwatched traced static split touches)
  | started traced static seeded behind moving =>
    rcases split_append split with ⟨between, within, -⟩ | ⟨between, rfl, later⟩
    · exact .inl (covered_of_static unwatched traced static within touches)
    · cases between with
      | nil =>
        obtain ⟨rfl, -⟩ := List.cons.inj later
        exact absurd touches (not_touches_of_text 1 _ (fun _ among => mentions_seed among) (by decide))
      | cons first between =>
        obtain ⟨rfl, within⟩ := List.cons.inj later
        obtain ⟨start, checked⟩ := behind.checked unwatched moving within touches
        refine .inr ⟨_, (checked.extend [_]).extend _, ?_⟩
        simp

theorem not_mentions (parted : Parted direction base plan rest)
    (seedless : ∀ offset, Step.seedCursor offset ∉ plan.steps) :
    ∀ line ∈ rest, ¬ Mentions "offset" line ∧ ¬ Mentions "length" line := by
  intro line listed
  cases parted with
  | fixed traced static =>
    refine ⟨fun mentions => ?_, fun mentions => ?_⟩
    · exact absurd (traced.mentions_of_static unwatched static (by decide) listed mentions).1 (by decide)
    · exact absurd (traced.mentions_of_static unwatched static (by decide) listed mentions).1 (by decide)
  | started traced static seeded behind moving => exact absurd seeded (seedless _)

theorem guarded (parted : Parted direction base plan rest) :
    Guarded direction plan (checkLines plan ++ rest) := by
  have checkLine : ∀ line ∈ checkLines plan, line = indented 1 (checkText plan.fixedSize) := by
    intro line listed
    rw [checkLines] at listed
    split at listed
    · cases listed
    · exact List.mem_singleton.mp listed
  have onlyLength : ∀ {name line}, name ∈ watched → line ∈ checkLines plan → Mentions name line →
      name ∈ ["length"] := by
    intro name line among listed mentions
    rw [checkLine line listed] at mentions
    exact mentions_check among (mentions.of_indented among)
  refine ⟨⟨rest, rfl, parted.not_check unwatched⟩, fun front line back split touches => ?_,
    fun seedless line listed => ?_⟩
  · rcases split_append split with ⟨between, within, -⟩ | ⟨between, rfl, behind⟩
    · have listed : line ∈ checkLines plan := by simp [within]
      rcases touches with mentions | mentions
      · exact absurd (onlyLength (by decide) listed mentions) (by decide)
      · exact absurd (onlyLength (by decide) listed mentions) (by decide)
    · rcases parted.copy unwatched behind touches with covered | ⟨start, checked, seeded⟩
      · obtain ⟨memory, position, width, same, inside, early⟩ := covered
        refine .inl ⟨memory, position, width, same, inside, fun level offset listed => ?_⟩
        rcases List.mem_append.mp listed with listed | listed
        · exact absurd (onlyLength (by decide) listed (mentions_seedLine level offset)) (by decide)
        · exact early level offset listed
      · exact .inr ⟨_, checked.extend _, List.mem_append_right _ seeded⟩
  · rcases List.mem_append.mp listed with listed | listed
    · refine ⟨fun mentions => ?_, fun _ => checkLine line listed⟩
      exact absurd (onlyLength (by decide) listed mentions) (by decide)
    · obtain ⟨offset, length⟩ := parted.not_mentions unwatched seedless line listed
      exact ⟨offset, fun mentions => absurd mentions length⟩

end Parted

end

/-- In both functions of a record, whatever gets at the buffer is guarded.  The test for the fixed part comes
first, and only if there is a fixed part.  A copy at a known position is inside that part.  Any other copy is
behind the start of the cursor and has the test for its width in front of it, in the same block, and the
advance by its width behind it. -/
theorem codec_guarded {fields : List Field} {base symbol : String} {plan : Plan}
    (symbolIdentifier : isIdentifier symbol = true) (baseIdentifier : isIdentifier base = true)
    (unwatched : base ∉ watched) (identified : (FieldType.struct fields).EveryScope Identified)
    (built : Plan.build fields base = .ok plan) :
    Guarded .read plan (textLines (reader symbol plan).text).tail ∧
      Guarded .write plan (textLines (writer symbol plan).text).tail := by
  have guarded : ∀ direction, Guarded direction plan (textLines (codec symbol plan direction).text).tail := by
    intro direction
    rw [textLines_codec built symbolIdentifier baseIdentifier identified direction, List.tail_cons,
      linesOf_planStmts]
    exact (parted_of_build built baseIdentifier identified direction).guarded unwatched
  exact ⟨guarded .read, guarded .write⟩

/-- The fixed part of this record ends inside the nested struct, where the cursor starts.  One of its fields
has the name of the cursor. -/
theorem codec_guarded_nested :
    let fields : List Field := [("offset", .scalar .u16),
      ("inner", .struct [("key", .bytes 4), ("label", .text)]), ("tags", .array .text 3),
      ("size", .option (.scalar .u32))]
    ∃ plan, Plan.build fields "out" = .ok plan ∧ plan.fixedSize = 6 ∧
      Guarded .read plan (textLines (reader "alon_t" plan).text).tail ∧
      Guarded .write plan (textLines (writer "alon_t" plan).text).tail := by
  intro fields
  obtain ⟨plan, built⟩ : ∃ plan, Plan.build fields "out" = .ok plan := ⟨_, rfl⟩
  have size : plan.fixedSize = 6 := by
    cases built
    rfl
  have identified : (FieldType.struct fields).EveryScope Identified := by decide
  exact ⟨plan, built, size, codec_guarded (by decide) (by decide) (by decide) identified built⟩

end PackedRecord.C
