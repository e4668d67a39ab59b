import PackedRecord.Proofs.C.Trace
import PackedRecord.Proofs.Plan.Rebase

/-!
# Readers and writers mirror each other

The reader and the writer of a record test for room and move the cursor by the same lines, and copy the
same bytes in opposite directions.  Plans from the two base pointers have the same events up to the base,
and what the functions have besides events does not start like one.

* `Traced.filter_eq`: lines that start in a certain way are lines of events.
* `codec_mirror`: the lines of a reader against those of the writer.
-/

namespace PackedRecord.C

open Stmt

/-! ## Lines by how they start -/

/-- Whether a line starts with a text, apart from its indentation. -/
def starts (front line : String) : Bool :=
  front.toList.isPrefixOf (line.toList.dropWhile (· == ' '))

/-- Whether a line tests the length of the buffer, starts or advances the cursor, or is the head of a loop. -/
def steers (line : String) : Bool :=
  ["if (length", "uint64_t offset =", "offset +=", "for ("].any (starts · line)

def copies (line : String) : Bool :=
  starts "alon_memcpy(" line

theorem starts_indented (front : String) (level : Nat) (line : String) :
    starts front (indented level line) = starts front line := by
  simp [starts]

theorem steers_indented (level : Nat) (line : String) : steers (indented level line) = steers line := by
  simp [steers, starts_indented]

theorem copies_indented (level : Nat) (line : String) : copies (indented level line) = copies line :=
  starts_indented _ level line

/-- A start without a dash ends before the first dash of the line. -/
theorem starts_of_dash {front line lead : String} {rest : List Char} (undashed : '-' ∉ front.toList)
    (spelled : line.toList = lead.toList ++ '-' :: rest) : starts front line = starts front lead := by
  have dropped : line.toList.dropWhile (· == ' ') = lead.toList.dropWhile (· == ' ') ++ '-' :: rest := by
    rw [spelled]
    induction lead.toList with
    | nil => rfl
    | cons c l inductionHypothesis =>
      rw [List.cons_append, List.dropWhile_cons, List.dropWhile_cons]
      split
      · exact inductionHypothesis
      · rfl
  rw [starts, starts, dropped, Bool.eq_iff_iff, List.isPrefixOf_iff_prefix, List.isPrefixOf_iff_prefix]
  generalize lead.toList.dropWhile (· == ' ') = dropped
  refine ⟨fun within => ?_, fun within => within.trans (List.prefix_append _ _)⟩
  have upTo : dropped ++ ['-'] <+: dropped ++ '-' :: rest := ⟨rest, by simp⟩
  rcases List.prefix_or_prefix_of_prefix within upTo with short | long
  · rcases List.prefix_concat_iff.mp short with whole | short
    · exact absurd (by simp [whole]) undashed
    · exact short
  · exact absurd (long.subset (by simp)) undashed

/-! ## Events -/

theorem filter_steers_lines (direction : Direction) (event : Event) :
    (event.lines direction).filter steers =
      match event with
      | .static .. => []
      | .access _ width => [guardText width.text, advanceText width.text]
      | event => event.lines direction := by
  cases event with
  | check size =>
    unfold Event.lines checkText
    simp [steers, starts, List.isPrefixOf]
  | seed offset =>
    unfold Event.lines seedText
    simp [steers, starts, List.isPrefixOf]
  | loop count =>
    unfold Event.lines loopText
    simp [steers, starts, List.isPrefixOf]
  | static memory position width =>
    unfold Event.lines copyText
    simp [steers, starts, List.isPrefixOf]
  | access memory width =>
    unfold Event.lines copyText guardText advanceText
    simp [steers, starts, List.isPrefixOf]

theorem filter_copies_lines (direction : Direction) (event : Event) :
    (event.lines direction).filter copies =
      match event with
      | .static memory position width => [copyText direction memory.text (toString position) (toString width)]
      | .access memory width => [copyText direction memory.text "offset" width.text]
      | _ => [] := by
  cases event with
  | check size =>
    unfold Event.lines checkText
    simp [copies, starts, List.isPrefixOf]
  | seed offset =>
    unfold Event.lines seedText
    simp [copies, starts, List.isPrefixOf]
  | loop count =>
    unfold Event.lines loopText
    simp [copies, starts, List.isPrefixOf]
  | static memory position width =>
    unfold Event.lines copyText
    simp [copies, starts, List.isPrefixOf]
  | access memory width =>
    unfold Event.lines copyText guardText advanceText
    simp [copies, starts, List.isPrefixOf]

theorem Lvalue.Below.toList_text {base : String} {x : Lvalue} (below : x.Below base) :
    ∃ rest, x.text.toList = base.toList ++ '-' :: rest := by
  cases below with
  | @field place below => exact ⟨_, below.2 ▸ place.toList_text⟩
  | @item place below =>
    refine ⟨'>' :: (['.'].intercalate (place.path.map String.toList) ++ ['[', 'i', ']']), ?_⟩
    simp [Lvalue.text, Subscript.text, place.toList_text, below.2]

theorem Aside.not_starts {base : String} (known : base ∈ [readerBase, writerBase]) {line : String}
    (aside : Aside base line) : steers line = false ∧ copies line = false := by
  cases aside with
  | plain listed =>
    have each : ∀ line ∈ plainLines, steers line = false ∧ copies line = false := by decide
    exact each _ listed
  | @framed front back x listed below =>
    have each : ∀ sides ∈ framedLines, ∀ base ∈ [readerBase, writerBase],
        steers (sides.1 ++ base) = false ∧ copies (sides.1 ++ base) = false := by decide
    obtain ⟨rest, spelled⟩ := below.toList_text
    -- The dash of the arrow ends what a start can reach, so the base pointer stands for the whole lvalue.
    have whole : (front ++ x.text ++ back).toList =
        (front ++ base).toList ++ '-' :: (rest ++ back.toList) := by
      simp [spelled]
    have same : ∀ start : String, '-' ∉ start.toList →
        starts start (front ++ x.text ++ back) = starts start (front ++ base) :=
      fun start undashed => starts_of_dash undashed whole
    simpa [steers, copies, same] using each _ listed base known

theorem filter_accessLines {keep : String → Bool} {before after : List String} (direction : Direction)
    (memory : Memory) (width : Width) (dropped : ∀ line ∈ before ++ after, keep line = false) :
    (accessLines direction memory width before after).filter keep =
      ((Event.access memory width).lines direction).filter keep := by
  have front : before.filter keep = [] := by
    rw [List.filter_eq_nil_iff]
    exact fun line listed => by simp [dropped line (List.mem_append_left _ listed)]
  have back : after.filter keep = [] := by
    rw [List.filter_eq_nil_iff]
    exact fun line listed => by simp [dropped line (List.mem_append_right _ listed)]
  simp [accessLines, Event.lines, List.filter_cons, front, back]

/-- What is kept of some lines is what is kept of their events, if asides are dropped. -/
theorem Traced.filter_eq {keep : String → Bool} {direction : Direction} {base : String} {lines : List String}
    {events : Trace} (traced : Traced direction base lines events)
    (anyLevel : ∀ level line, keep (indented level line) = keep line)
    (asides : ∀ line, Aside base line → keep line = false) :
    lines.filter keep = events.flatMap fun e => ((e.2.lines direction).filter keep).map (indented e.1) := by
  have shift : ∀ level, keep ∘ indented level = keep := fun level => funext (anyLevel level)
  induction traced with
  | nil => rfl
  | aside level aside rest inductionHypothesis =>
    rw [List.filter_cons_of_neg (by simp [anyLevel, asides _ aside]), inductionHypothesis]
  | event level alone below rest inductionHypothesis =>
    rw [List.flatMap_cons, ← inductionHypothesis, alone, ← shift level, ← List.filter_map, shift level,
      ← List.filter_append]
    rfl
  | access level width below around rest inductionHypothesis =>
    rw [List.flatMap_cons, ← inductionHypothesis, List.filter_append, List.filter_map, shift level,
      filter_accessLines direction _ width fun line listed => asides line (around line listed).1]

/-! ## Another base pointer -/

def Lvalue.rebase (base : String) : Lvalue → Lvalue
  | var v => var v
  | field place => field (place.rebase base)
  | item place index => item (place.rebase base) index

def Memory.rebase (base : String) : Memory → Memory
  | object x => object (x.rebase base)
  | pointee x => pointee (x.rebase base)

def Event.rebase (base : String) : Event → Event
  | static memory position width => static (memory.rebase base) position width
  | access memory width => access (memory.rebase base) width
  | event => event

theorem stepEvents_rebase (base : String) (step : Step) :
    stepEvents (step.rebase base) = (stepEvents step).map fun e => (e.1, e.2.rebase base) := by
  cases step with
  | seedCursor offset => rfl
  | move place transfer =>
    cases transfer with
    | scalar kind access | block ty length access => cases access <;> rfl
    | _ => rfl

theorem planEvents_rebase (base : String) (plan : Plan) :
    planEvents (plan.rebase base) = (planEvents plan).map fun e => (e.1, e.2.rebase base) := by
  rw [planEvents, planEvents, List.map_append, List.map_flatMap]
  congr 1
  · rw [Plan.rebase]
    split <;> rfl
  · rw [Plan.rebase, List.flatMap_map]
    exact List.flatMap_congr fun step _ => stepEvents_rebase base step

theorem Memory.Below.rebase_eq {base : String} {memory : Memory} (below : memory.Below base) :
    memory.rebase base = memory := by
  have same : ∀ {x : Lvalue}, x.Below base → x.rebase base = x := by
    intro x below
    cases below with
    | field below | item below =>
      obtain ⟨-, rfl⟩ := below
      rfl
  cases below with
  | len => rfl
  | flag => rfl
  | object below => rw [Memory.rebase, same below]
  | pointee below => rw [Memory.rebase, same below]

/-! ## Whole functions -/

/-- A copy of a function: how deep it stands, what it moves, where that is in the buffer and how long. -/
structure Copied where
  level : Nat
  memory : Memory
  position : String
  width : String

/-- The line of a copy in the function with this base pointer that moves bytes this way. -/
def Copied.line (direction : Direction) (base : String) (copied : Copied) : String :=
  indented copied.level (copyText direction (copied.memory.rebase base).text copied.position copied.width)

def copiedBy : Nat × Event → List Copied
  | (level, .static memory position width) => [⟨level, memory, toString position, toString width⟩]
  | (level, .access memory width) => [⟨level, memory, "offset", width.text⟩]
  | _ => []

theorem starts_codecHead (symbol : String) (plan : Plan) (direction : Direction) :
    steers (codecHead symbol plan direction) = false ∧ copies (codecHead symbol plan direction) = false := by
  unfold codecHead
  cases direction <;>
    simp [codec, reader, writer, readerSignature, writerSignature, Signature.text, steers, copies, starts,
      List.isPrefixOf]

theorem isIdentifier_of_known {base : String} (known : base ∈ [readerBase, writerBase]) : isIdentifier base = true := by
  have each : ∀ base ∈ [readerBase, writerBase], isIdentifier base = true := by decide
  exact each base known

theorem filter_textLines {keep : String → Bool} {fields : List Field} {base symbol : String} {plan : Plan}
    (built : Plan.build fields base = .ok plan) (symbolIdentifier : isIdentifier symbol = true)
    (identified : (FieldType.struct fields).EveryScope Identified) (direction : Direction)
    (known : base ∈ [readerBase, writerBase]) (kept : keep = steers ∨ keep = copies) :
    (textLines (codec symbol plan direction).text).filter keep =
      (planEvents plan).flatMap fun e => ((e.2.lines direction).filter keep).map (indented e.1) := by
  have baseIdentifier := isIdentifier_of_known known
  have traced := traced_body direction (stepBelow_of_build built baseIdentifier identified)
  rw [textLines_codec built symbolIdentifier baseIdentifier identified direction]
  rcases kept with rfl | rfl
  · rw [List.filter_cons_of_neg (by simp [(starts_codecHead symbol plan direction).1])]
    exact traced.filter_eq steers_indented fun _ aside => (aside.not_starts known).1
  · rw [List.filter_cons_of_neg (by simp [(starts_codecHead symbol plan direction).2])]
    exact traced.filter_eq copies_indented fun _ aside => (aside.not_starts known).2

/-- The writer of a record has the same tests of the length, the same moves of the cursor and the same loops
as the reader, in the same order and at the same depth.  Each copy of the one is the copy in its place of the
other with source and target exchanged, from the base pointer of the other. -/
theorem codec_mirror {fields : List Field} {symbol : String} {readPlan : Plan}
    (symbolIdentifier : isIdentifier symbol = true)
    (identified : (FieldType.struct fields).EveryScope Identified)
    (built : Plan.build fields readerBase = .ok readPlan) :
    ∃ writePlan, Plan.build fields writerBase = .ok writePlan ∧
      (textLines (reader symbol readPlan).text).filter steers =
        (textLines (writer symbol writePlan).text).filter steers ∧
      ∃ copied : List Copied,
        (textLines (reader symbol readPlan).text).filter copies = copied.map (Copied.line .read readerBase) ∧
        (textLines (writer symbol writePlan).text).filter copies =
          copied.map (Copied.line .write writerBase) := by
  have rebuilt : Plan.build fields writerBase = .ok (readPlan.rebase writerBase) := by
    rw [Plan.build_rebase fields readerBase, built]
    rfl
  have read := fun keep =>
    @filter_textLines keep _ _ symbol _ built symbolIdentifier identified .read (by decide)
  have written := fun keep =>
    @filter_textLines keep _ _ symbol _ rebuilt symbolIdentifier identified .write (by decide)
  have below := (traced_body .read (stepBelow_of_build built (by decide) identified)).events_below
  simp only [planEvents_rebase, List.flatMap_map] at written
  refine ⟨readPlan.rebase writerBase, rebuilt, ?_, (planEvents readPlan).flatMap copiedBy, ?_, ?_⟩
  · refine (read steers (.inl rfl)).trans (.trans ?_ (written steers (.inl rfl)).symm)
    refine List.flatMap_congr fun e _ => ?_
    rw [filter_steers_lines, filter_steers_lines]
    cases e.2 <;> rfl
  · refine (read copies (.inr rfl)).trans ?_
    rw [List.map_flatMap]
    refine List.flatMap_congr fun e listed => ?_
    obtain ⟨level, event⟩ := e
    have same := below _ listed
    rw [filter_copies_lines]
    cases event with
    | static memory position width | access memory width =>
      simp [copiedBy, Copied.line, Memory.Below.rebase_eq same]
    | _ => rfl
  · refine (written copies (.inr rfl)).trans ?_
    rw [List.map_flatMap]
    refine List.flatMap_congr fun e _ => ?_
    obtain ⟨level, event⟩ := e
    rw [filter_copies_lines]
    cases event <;> rfl

/-- The two functions of a record with an array of texts, whose loop both have, and an optional number. -/
theorem codec_mirror_nested :
    let fields : List Field := [("id", .scalar .u16),
      ("inner", .struct [("key", .bytes 4), ("label", .text)]), ("tags", .array .text 3),
      ("size", .option (.scalar .u32))]
    ∃ readPlan writePlan, Plan.build fields "out" = .ok readPlan ∧ Plan.build fields "in" = .ok writePlan ∧
      (textLines (reader "alon_t" readPlan).text).filter steers =
        (textLines (writer "alon_t" writePlan).text).filter steers ∧
      ∃ copied : List Copied,
        (textLines (reader "alon_t" readPlan).text).filter copies = copied.map (Copied.line .read "out") ∧
        (textLines (writer "alon_t" writePlan).text).filter copies = copied.map (Copied.line .write "in") := by
  intro fields
  obtain ⟨readPlan, built⟩ : ∃ readPlan, Plan.build fields readerBase = .ok readPlan := ⟨_, rfl⟩
  have symbolIdentifier : isIdentifier "alon_t" = true := by decide
  have identified : (FieldType.struct fields).EveryScope Identified := by decide
  obtain ⟨writePlan, rebuilt, steering, copying⟩ := codec_mirror symbolIdentifier identified built
  exact ⟨readPlan, writePlan, built, rebuilt, steering, copying⟩

end PackedRecord.C
