import PackedRecord.Proofs.C.Lines

/-!
# What generated lines do with the buffer

The lines of a reader or writer, sorted by what they do: most concern the record alone, and the others
are events of a few kinds, such as the start of the cursor or an access at it.  A plan says which events
its functions have, whichever way they move bytes.

* `Aside`: the lines that have nothing to do with the buffer, as a short list of forms.
* `Traced`: some lines have these events, in this order, and are asides otherwise.
* `traced_body`: the body of a function has the events of its plan.
* `textLines_codec`: with identifiers for names, these are the lines in the text of the function.
-/

namespace PackedRecord

/-- A place below a base pointer, all called by identifiers. -/
def Place.Below (base : String) (p : Place) : Prop :=
  p.Named ∧ p.scope.base = base

theorem Place.Below.member {base : String} {p : Place} (below : p.Below base) {name : String}
    (identifier : C.isIdentifier name = true) : (p.member name).Below base :=
  ⟨below.1.member identifier, below.2⟩

namespace C

open Stmt

/-! ## Asides -/

inductive Lvalue.Below (base : String) : Lvalue → Prop where
  | field {place : Place} (below : place.Below base) : Below base (.field place)
  | item {place : Place} (below : place.Below base) : Below base (.item place .counter)

def plainLines : List String := [
  "uint32_t len;",
  "if (size > 0xFFFFFFFFu) return ALON_ERR_BUFFER_TOO_SHORT;",
  "uint32_t len = (uint32_t)size;",
  "uint8_t flag;",
  "\x7b", "if (!flag) \x7b", "\x7d else \x7b", "if (flag) \x7b", "\x7d",
  "return ALON_OK;"]

/-- Asides about one lvalue: what stands in front of it, and what behind it. -/
def framedLines : List (String × String) := [
  ("uint64_t size = (uint64_t)alon_strlen(", ");"),
  ("", " = alon_alloc((uint64_t)len + 1);"),
  ("if (", " == NULL) return ALON_ERR_ALLOC;"),
  ("", "[len] = '\\0';"),
  ("uint8_t flag = ", " != NULL;"),
  ("uint8_t flag = ", " != 0;"),
  ("", " = NULL;"),
  ("", " = 0;"),
  ("", " = 1;")]

/-- A line that is about the record and the variables for one field. -/
inductive Aside (base : String) : String → Prop where
  | plain {line : String} (listed : line ∈ plainLines) : Aside base line
  | framed {front back : String} {x : Lvalue} (listed : (front, back) ∈ framedLines) (below : x.Below base) :
    Aside base (front ++ x.text ++ back)

/-- A text that neither ends a line nor begins or ends a block. -/
def Unbroken (text : String) : Prop :=
  '\n' ∉ text.toList ∧ '\x7b' ∉ text.toList ∧ '\x7d' ∉ text.toList

instance (text : String) : Decidable (Unbroken text) :=
  inferInstanceAs (Decidable (_ ∧ _ ∧ _))

theorem Unbroken.append {a b : String} (first : Unbroken a) (second : Unbroken b) : Unbroken (a ++ b) := by
  simp [Unbroken, first.1, first.2.1, first.2.2, second.1, second.2.1, second.2.2]

section

variable {base : String} {x : Lvalue} (below : x.Below base)

include below

theorem Lvalue.Below.unbroken : Unbroken x.text := by
  have place : ∀ {place : Place}, place.Below base → Unbroken place.text := fun below =>
    ⟨Place.notMem_text below.1 rfl (by decide), Place.notMem_text below.1 rfl (by decide),
      Place.notMem_text below.1 rfl (by decide)⟩
  cases below with
  | field below => exact place below
  | item below => exact (((place below).append (by decide)).append (by decide)).append (by decide)

theorem unbroken_framed {front back : String} (listed : (front, back) ∈ framedLines) :
    Unbroken (front ++ x.text ++ back) := by
  have each : ∀ sides ∈ framedLines, Unbroken sides.1 ∧ Unbroken sides.2 := by decide
  obtain ⟨inFront, behind⟩ := each _ listed
  exact (inFront.append below.unbroken).append behind

theorem Aside.behind {back : String} (listed : ("", back) ∈ framedLines) : Aside base (x.text ++ back) := by
  simpa using Aside.framed listed below

theorem Aside.assign {n : Nat} (listed : ("", " = " ++ toString n ++ ";") ∈ framedLines) :
    Aside base (x.text ++ " = " ++ toString n ++ ";") := by
  simpa [String.append_assoc] using Aside.behind below listed

end

/-! ## Events -/

/-- What a line, or the lines of an access, do with the buffer and the cursor. -/
inductive Event where
  | check (size : Nat)
  | seed (offset : Nat)
  | loop (count : Nat)
  | static (memory : Memory) (position width : Nat)
  /-- Tests for some bytes at the cursor, copies them and advances over them. -/
  | access (memory : Memory) (width : Width)

/-- Memory that a function with this base pointer copies to or from. -/
inductive Memory.Below (base : String) : Memory → Prop where
  | len : Below base (.object (.var .len))
  | flag : Below base (.object (.var .flag))
  | object {x : Lvalue} (below : x.Below base) : Below base (.object x)
  | pointee {x : Lvalue} (below : x.Below base) : Below base (.pointee x)

namespace Event

/-- The lines of an event.  Those of an access may have asides between them. -/
def lines (direction : Direction) : Event → List String
  | check size => [checkText size]
  | seed offset => [seedText offset]
  | loop count => [loopText count]
  | static memory position width => [copyText direction memory.text (toString position) (toString width)]
  | access memory width =>
    [guardText width.text, copyText direction memory.text "offset" width.text, advanceText width.text]

def Below (base : String) : Event → Prop
  | static memory _ _ | access memory _ => memory.Below base
  | _ => True

end Event

/-- Events in the order of their lines, each with its level of nesting. -/
abbrev Trace := List (Nat × Event)

/-- These lines have these events, and are asides otherwise. -/
inductive Traced (direction : Direction) (base : String) : List String → Trace → Prop where
  | nil : Traced direction base [] []
  | aside {line : String} {lines : List String} {events : Trace} (level : Nat) (aside : Aside base line)
    (rest : Traced direction base lines events) :
    Traced direction base (indented level line :: lines) events
  | event {line : String} {event : Event} {lines : List String} {events : Trace} (level : Nat)
    (alone : event.lines direction = [line]) (below : event.Below base)
    (rest : Traced direction base lines events) :
    Traced direction base (indented level line :: lines) ((level, event) :: events)
  | access {memory : Memory} {before after lines : List String} {events : Trace} (level : Nat) (width : Width)
    (below : memory.Below base) (asides : ∀ line ∈ before ++ after, Aside base line ∧ Unbroken line)
    (rest : Traced direction base lines events) :
    Traced direction base ((accessLines direction memory width before after).map (indented level) ++ lines)
      ((level, .access memory width) :: events)

/-- What a line can be if its function has these events. -/
inductive LineOf (direction : Direction) (base : String) (events : Trace) : String → Prop where
  | aside {line : String} (level : Nat) (aside : Aside base line) :
    LineOf direction base events (indented level line)
  | event {line : String} {level : Nat} {event : Event} (among : (level, event) ∈ events)
    (below : event.Below base) (shown : line ∈ event.lines direction) :
    LineOf direction base events (indented level line)

theorem LineOf.cons {direction : Direction} {base line : String} {event : Nat × Event} {events : Trace}
    (kind : LineOf direction base events line) : LineOf direction base (event :: events) line := by
  cases kind with
  | aside level aside => exact .aside level aside
  | event among below shown => exact .event (List.mem_cons_of_mem _ among) below shown

namespace Traced

variable {direction : Direction} {base : String} {lines : List String} {events : Trace}

theorem append {more : List String} {others : Trace} (first : Traced direction base lines events)
    (second : Traced direction base more others) :
    Traced direction base (lines ++ more) (events ++ others) := by
  induction first with
  | nil => exact second
  | aside level aside rest inductionHypothesis => exact .aside level aside inductionHypothesis
  | event level alone below rest inductionHypothesis => exact .event level alone below inductionHypothesis
  | access level width below asides rest inductionHypothesis =>
    rw [List.append_assoc]
    exact .access level width below asides inductionHypothesis

theorem ofAsides (level : Nat) (each : ∀ line ∈ lines, Aside base line) :
    Traced direction base (lines.map (indented level)) [] := by
  induction lines with
  | nil => exact .nil
  | cons line lines inductionHypothesis =>
    obtain ⟨first, others⟩ := List.forall_mem_cons.mp each
    exact .aside level first (inductionHypothesis others)

theorem ofAccess {memory : Memory} {before after : List String} (level : Nat) (width : Width)
    (below : memory.Below base) (asides : ∀ line ∈ before ++ after, Aside base line ∧ Unbroken line) :
    Traced direction base ((accessLines direction memory width before after).map (indented level))
      [(level, .access memory width)] := by
  simpa using Traced.access level width below asides .nil

theorem closed (level : Nat) (inside : Traced direction base lines events) :
    Traced direction base (lines ++ [indented level "\x7d"]) events := by
  have brace : Traced direction base [indented level "\x7d"] [] :=
    .aside level (.plain (by simp [plainLines])) .nil
  simpa using inside.append brace

theorem lineOf_mem (traced : Traced direction base lines events) {line : String} (listed : line ∈ lines) :
    LineOf direction base events line := by
  induction traced with
  | nil => cases listed
  | aside level aside rest inductionHypothesis =>
    rcases List.mem_cons.mp listed with rfl | listed
    · exact .aside level aside
    · exact inductionHypothesis listed
  | event level alone below rest inductionHypothesis =>
    rcases List.mem_cons.mp listed with rfl | listed
    · exact .event List.mem_cons_self below (by simp [alone])
    · exact (inductionHypothesis listed).cons
  | @access memory before after lines events level width below asides rest inductionHypothesis =>
    rcases List.mem_append.mp listed with listed | listed
    · obtain ⟨text, among, rfl⟩ := List.mem_map.mp listed
      simp only [accessLines, List.mem_cons, List.mem_append, List.not_mem_nil, or_false] at among
      rcases among with rfl | aside | rfl | aside | rfl
      · exact .event List.mem_cons_self below (by simp [Event.lines])
      · exact .aside level (asides text (List.mem_append_left _ aside)).1
      · exact .event List.mem_cons_self below (by simp [Event.lines])
      · exact .aside level (asides text (List.mem_append_right _ aside)).1
      · exact .event List.mem_cons_self below (by simp [Event.lines])
    · exact (inductionHypothesis listed).cons

theorem events_below (traced : Traced direction base lines events) : ∀ e ∈ events, e.2.Below base := by
  induction traced with
  | nil => simp
  | aside level aside rest inductionHypothesis => exact inductionHypothesis
  | event level alone below rest inductionHypothesis =>
    exact List.forall_mem_cons.mpr ⟨below, inductionHypothesis⟩
  | access level width below asides rest inductionHypothesis =>
    exact List.forall_mem_cons.mpr ⟨below, inductionHypothesis⟩

end Traced

/-! ## Fields -/

def fixedEvents (level : Nat) (x : Lvalue) (width : Nat) : Access → Trace
  | .static offset => [(level, .static (.object x) offset width)]
  | .cursor => [(level, .access (.object x) (.literal width))]

def textEvents (level : Nat) (x : Lvalue) : Trace :=
  [(level, .access (.object (.var .len)) (.literal lengthWidth)), (level, .access (.pointee x) .len)]

def flagEvent (level : Nat) : Nat × Event :=
  (level, .access (.object (.var .flag)) (.literal flagWidth))

def fieldEvents (place : Place) : Transfer → Trace
  | .scalar kind access => fixedEvents 1 (.field place) kind.width access
  | .block _ length access => fixedEvents 1 (.field place) length access
  | .text => textEvents 2 (.field place)
  | .texts count => (1, .loop count) :: textEvents 2 (.item place .counter)
  | .optionalText => flagEvent 2 :: textEvents 3 (.field place)
  | .optionalScalar kind =>
    flagEvent 2 :: fixedEvents 3 (.field (place.member valueMember)) kind.width .cursor

def stepEvents : Step → Trace
  | .seedCursor offset => [(1, .seed offset)]
  | .move place transfer => fieldEvents place transfer

def planEvents (plan : Plan) : Trace :=
  (if plan.fixedSize = 0 then [] else [(1, .check plan.fixedSize)]) ++ plan.steps.flatMap stepEvents

section

variable {base : String} (direction : Direction)

theorem traced_moveFixed (level width : Nat) {x : Lvalue} (below : x.Below base) (access : Access) :
    Traced direction base (linesOf level (moveFixed direction x width access))
      (fixedEvents level x width access) := by
  cases access with
  | static offset =>
    rw [linesOf_moveFixed_static]
    exact .event level rfl (Memory.Below.object below) .nil
  | cursor =>
    rw [linesOf_moveFixed_cursor]
    exact .ofAccess level (.literal width) (.object below) (by simp)

theorem traced_moveText (level : Nat) {x : Lvalue} (below : x.Below base) :
    Traced direction base (linesOf level (moveText direction x)) (textEvents level x) := by
  have setup : ∀ line ∈ lengthSetup x.text direction, Aside base line := by
    cases direction with
    | read => exact List.forall_mem_singleton.mpr (.plain (by simp [plainLines]))
    | write =>
      simp only [lengthSetup, List.forall_mem_cons]
      exact ⟨.framed (by simp [framedLines]) below, .plain (by simp [plainLines]),
        .plain (by simp [plainLines]), by simp⟩
  have framed : ∀ front back, (front, back) ∈ framedLines →
      Aside base (front ++ x.text ++ back) ∧ Unbroken (front ++ x.text ++ back) :=
    fun _ _ listed => ⟨.framed listed below, unbroken_framed below listed⟩
  -- Only a reader does something between the test for the payload and its end: it allocates and terminates.
  have around : ∀ line ∈ payloadSetup x.text direction ++ payloadEnd x.text direction,
      Aside base line ∧ Unbroken line := by
    cases direction with
    | read =>
      have allocated := framed "" " = alon_alloc((uint64_t)len + 1);" (by simp [framedLines])
      have tested := framed "if (" " == NULL) return ALON_ERR_ALLOC;" (by simp [framedLines])
      have ended := framed "" "[len] = '\\0';" (by simp [framedLines])
      rw [String.empty_append] at allocated ended
      simp only [payloadSetup, payloadEnd, List.cons_append, List.nil_append, List.forall_mem_cons]
      exact ⟨allocated, tested, ended, by simp⟩
    | write => simp [payloadSetup, payloadEnd]
  rw [linesOf_moveText, movedText, List.map_append, List.map_append]
  exact ((Traced.ofAsides level setup).append (.ofAccess level _ .len (by simp))).append
    (.ofAccess level .len (.pointee below) around)

/-- A field behind a presence flag has the event of the flag in front. -/
theorem traced_moveOptional (level : Nat) {present : Expr} {absent : Stmt} {body : List Stmt} {events : Trace}
    {line : String} (absentLine : ∀ level, absent.lines level = [indented level line])
    (aside : Aside base line) (flag : Aside base ("uint8_t flag = " ++ present.text ++ ";"))
    (inside : Traced direction base (linesOf (level + 2) body) events) :
    Traced direction base (linesOf level [moveOptional direction present absent body])
      (flagEvent (level + 1) :: events) := by
  have setup : ∀ line ∈ flagSetup present.text direction, Aside base line := by
    cases direction with
    | read => exact List.forall_mem_singleton.mpr (.plain (by simp [plainLines]))
    | write => exact List.forall_mem_singleton.mpr flag
  have access : Traced direction base
      ((accessLines direction (.object (.var .flag)) (.literal flagWidth) [] []).map (indented (level + 1)))
      [flagEvent (level + 1)] :=
    .ofAccess (level + 1) (.literal flagWidth) .flag (by simp)
  have branch : Traced direction base (branchLines (level + 1) line direction) [] := by
    cases direction with
    | read =>
      exact .aside _ (.plain (by simp [plainLines]))
        (.aside _ aside (.aside _ (.plain (by simp [plainLines])) .nil))
    | write => exact .aside _ (.plain (by simp [plainLines])) .nil
  have whole := (((Traced.ofAsides (level + 1) setup).append access).append branch).append inside
  rw [linesOf_moveOptional level direction present absent body absentLine, List.map_append]
  refine .aside level (.plain (by simp [plainLines])) ?_
  simpa using (whole.closed (level + 1)).closed level

theorem traced_moveField {place : Place} (below : place.Below base) (transfer : Transfer) :
    Traced direction base (linesOf 1 (moveField direction place transfer)) (fieldEvents place transfer) := by
  cases transfer with
  | scalar kind access => exact traced_moveFixed direction 1 kind.width (.field below) access
  | block ty length access => exact traced_moveFixed direction 1 length (.field below) access
  | text =>
    rw [moveField, linesOf_block]
    exact .aside 1 (.plain (by simp [plainLines])) ((traced_moveText direction 2 (.field below)).closed 1)
  | texts count =>
    rw [moveField, linesOf_loop]
    exact .event 1 rfl trivial ((traced_moveText direction 2 (.item below)).closed 1)
  | optionalText =>
    have flag : Aside base ("uint8_t flag = " ++ (Lvalue.field place).text ++ " != NULL;") :=
      .framed (by simp [framedLines]) (.field below)
    refine traced_moveOptional direction 1 (fun _ => rfl) (.behind (.field below) (by simp [framedLines])) ?_
      (traced_moveText direction 3 (.field below))
    simpa [Expr.text, String.append_assoc] using flag
  | optionalScalar kind =>
    have seen : (Lvalue.field (place.member presenceMember)).Below base := .field (below.member (by decide))
    have value : (Lvalue.field (place.member valueMember)).Below base := .field (below.member (by decide))
    have zero : toString 0 = "0" := by decide
    have flag : Aside base
        ("uint8_t flag = " ++ (Lvalue.field (place.member presenceMember)).text ++ " != 0;") :=
      .framed (by simp [framedLines]) seen
    refine traced_moveOptional direction 1 (lines_assign · _ 0) (.assign seen (by decide)) ?_ ?_
    · simpa [Expr.text, String.append_assoc, zero] using flag
    · have moved := traced_moveFixed direction 3 kind.width value .cursor
      cases direction with
      | read =>
        have mark : Traced .read base
            (linesOf 3 [.assign (.field (place.member presenceMember)) (.literal 1)]) [] :=
          .aside 3 (.assign seen (by decide)) .nil
        rw [linesOf_append]
        simpa using moved.append mark
      | write => simpa using moved

def StepBelow (base : String) (step : Step) : Prop :=
  ∀ place, step.place? = some place → place.Below base

theorem stepBelow_of_build {fields : List Field} {plan : Plan} (built : Plan.build fields base = .ok plan)
    (identifier : isIdentifier base = true) (identified : (FieldType.struct fields).EveryScope Identified) :
    ∀ step ∈ plan.steps, StepBelow base step :=
  fun _ listed _ moved =>
    ⟨Plan.named_of_build built identifier identified listed moved, Plan.base_of_build built listed moved⟩

theorem traced_steps {steps : List Step} (below : ∀ step ∈ steps, StepBelow base step) :
    Traced direction base (linesOf 1 (steps.flatMap (stepStmts direction))) (steps.flatMap stepEvents) := by
  induction steps with
  | nil => exact .nil
  | cons step steps inductionHypothesis =>
    obtain ⟨first, others⟩ := List.forall_mem_cons.mp below
    rw [List.flatMap_cons, List.flatMap_cons, linesOf_append]
    refine .append ?_ (inductionHypothesis others)
    cases step with
    | seedCursor offset =>
      rw [stepStmts, linesOf_seed]
      exact .event 1 rfl trivial .nil
    | move place transfer => exact traced_moveField direction (first place rfl) transfer

/-! ## Bodies -/

def checkLines (plan : Plan) : List String :=
  if plan.fixedSize = 0 then [] else [indented 1 (checkText plan.fixedSize)]

def exitLines : List String :=
  [indented 1 "return ALON_OK;", "\x7d"]

theorem linesOf_planStmts (plan : Plan) :
    linesOf 1 (planStmts direction plan) ++ ["\x7d"] =
      checkLines plan ++ (linesOf 1 (plan.steps.flatMap (stepStmts direction)) ++ exitLines) := by
  have check : linesOf 1 (if plan.fixedSize = 0 then []
      else [.exitIf (.less .length (.literal plan.fixedSize)) (.fault .bufferTooShort)]) =
        checkLines plan := by
    rw [checkLines]
    split
    · rfl
    · exact linesOf_check plan.fixedSize
  rw [planStmts, linesOf_append, linesOf_append, check, List.append_assoc, List.append_assoc]
  rfl

theorem traced_exitLines : Traced direction base exitLines [] := by
  refine .aside 1 (.plain (by simp [plainLines])) ?_
  exact indented_zero "\x7d" ▸ .aside 0 (.plain (by simp [plainLines])) .nil

theorem traced_body {plan : Plan} (below : ∀ step ∈ plan.steps, StepBelow base step) :
    Traced direction base (linesOf 1 (planStmts direction plan) ++ ["\x7d"]) (planEvents plan) := by
  have front : Traced direction base (checkLines plan)
      (if plan.fixedSize = 0 then [] else [(1, .check plan.fixedSize)]) := by
    rw [checkLines]
    split
    · exact .nil
    · exact .event 1 rfl trivial .nil
  rw [linesOf_planStmts, planEvents]
  simpa using front.append ((traced_steps direction below).append (traced_exitLines direction))

end

/-! ## Line feeds -/

theorem notMem_toString {c : Char} (foreign : c.isDigit = false) (n : Nat) : c ∉ (toString n).toList := by
  intro listed
  rw [Nat.toString_eq_ofList_toDigits, String.toList_ofList] at listed
  rw [Nat.isDigit_of_mem_toDigits (by decide) (by decide) listed] at foreign
  cases foreign

theorem unbroken_toString (n : Nat) : Unbroken (toString n) :=
  ⟨notMem_toString rfl n, notMem_toString rfl n, notMem_toString rfl n⟩

theorem notMem_copyText {c : Char} (direction : Direction) {memory position width : String}
    (inMemory : c ∉ memory.toList) (inPosition : c ∉ position.toList) (inWidth : c ∉ width.toList)
    (outside : c ∉ "alon_memcpy(buffer + , );".toList) :
    c ∉ (copyText direction memory position width).toList := by
  unfold copyText
  cases direction <;> simp_all [Direction.sides]

theorem Aside.unbroken {base line : String} (aside : Aside base line) : '\n' ∉ line.toList := by
  cases aside with
  | plain listed =>
    have each : ∀ line ∈ plainLines, '\n' ∉ line.toList := by decide
    exact each line listed
  | framed listed below => exact (unbroken_framed below listed).1

theorem Memory.Below.unbroken {base : String} {memory : Memory} (below : memory.Below base) :
    '\n' ∉ memory.text.toList := by
  cases below with
  | len => decide
  | flag => decide
  | object below => simp [Memory.text, below.unbroken.1]
  | pointee below => exact below.unbroken.1

theorem Width.unbroken (width : Width) : '\n' ∉ width.text.toList := by
  cases width with
  | literal n => exact notMem_toString rfl n
  | len => decide

theorem Event.Below.unbroken {base : String} {event : Event} (below : event.Below base)
    (direction : Direction) : ∀ line ∈ event.lines direction, '\n' ∉ line.toList := by
  have digits : ∀ n : Nat, '\n' ∉ (toString n).toList := notMem_toString rfl
  cases event with
  | check size =>
    unfold lines checkText
    simpa using digits size
  | seed offset =>
    unfold lines seedText
    simpa using digits offset
  | loop count =>
    unfold lines loopText
    simpa using digits count
  | static memory position width =>
    simp only [lines, List.forall_mem_singleton]
    exact notMem_copyText direction (Memory.Below.unbroken below) (digits position) (digits width) (by decide)
  | access memory width =>
    have copied : '\n' ∉ (copyText direction memory.text "offset" width.text).toList :=
      notMem_copyText direction (Memory.Below.unbroken below) (by decide) width.unbroken (by decide)
    unfold lines guardText advanceText
    simp [width.unbroken, copied]

theorem Traced.unbroken {direction : Direction} {base : String} {lines : List String} {events : Trace}
    (traced : Traced direction base lines events) : ∀ line ∈ lines, '\n' ∉ line.toList := by
  intro line listed
  cases traced.lineOf_mem listed with
  | aside level aside => simp [aside.unbroken]
  | event among below shown => simp [below.unbroken direction _ shown]

/-! ## Functions -/

/-- The function of a plan that moves bytes one way. -/
def codec (symbol : String) (plan : Plan) : Direction → Function
  | .read => reader symbol plan
  | .write => writer symbol plan

def codecHead (symbol : String) (plan : Plan) (direction : Direction) : String :=
  (codec symbol plan direction).signature.text ++ " \x7b"

theorem lines_codec (symbol : String) (plan : Plan) (direction : Direction) :
    (codec symbol plan direction).lines =
      codecHead symbol plan direction :: (linesOf 1 (planStmts direction plan) ++ ["\x7d"]) := by
  cases direction <;> rfl

theorem unbroken_codecHead {symbol : String} (identifier : isIdentifier symbol = true) (plan : Plan)
    (direction : Direction) : '\n' ∉ (codecHead symbol plan direction).toList := by
  have name : '\n' ∉ symbol.toList := notMem_of_isIdentifier identifier rfl
  unfold codecHead
  cases direction <;>
    simp [codec, reader, writer, readerSignature, writerSignature, Signature.text,
      String.intercalate_cons_cons, readerBase, writerBase, name]

theorem textLines_codec {fields : List Field} {base symbol : String} {plan : Plan}
    (built : Plan.build fields base = .ok plan) (symbolIdentifier : isIdentifier symbol = true)
    (baseIdentifier : isIdentifier base = true) (identified : (FieldType.struct fields).EveryScope Identified)
    (direction : Direction) :
    textLines (codec symbol plan direction).text =
      codecHead symbol plan direction :: (linesOf 1 (planStmts direction plan) ++ ["\x7d"]) := by
  have traced := traced_body direction (stepBelow_of_build built baseIdentifier identified)
  have unbroken : ∀ line ∈ (codec symbol plan direction).lines, '\n' ∉ line.toList := by
    rw [lines_codec]
    exact List.forall_mem_cons.mpr ⟨unbroken_codecHead symbolIdentifier plan direction, traced.unbroken⟩
  rw [textLines_text unbroken, lines_codec]

end C

end PackedRecord
