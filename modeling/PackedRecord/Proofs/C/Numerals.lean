import PackedRecord.C.Platform
import PackedRecord.Proofs.C.Mentions
import PackedRecord.Proofs.C.ReleaseList

/-!
# The numbers in a text

The numbers that C code is written with are the tokens that are made of digits alone.  A name with digits
in it is none, and neither is a number in hexadecimal.

* `numerals`: the numbers of a text, and `numerals_framed` takes them from its parts.
* `numerals_place`: there are none in the text of a place.
* `le_of_mem_numerals_codec`: a reader or writer has those of its plan, and small ones.
-/

namespace PackedRecord

namespace C

open Stmt

/-- The numbers that a text is written with, in order. -/
def numerals (text : String) : List Nat :=
  ((tokens text.toList).filter fun token => token.all Char.isDigit).map fun token =>
    Nat.ofDigitChars 10 token 0

example : numerals "uint64_t offset = 12; out->x2[3] = 0x10u;" = [12, 3] := by decide

/-! ## Texts in parts -/

theorem numerals_of_closes {front : String} (closes : Closes front) (back : String) :
    numerals (front ++ back) = numerals front ++ numerals back := by
  rw [numerals, closes.tokens_append, List.filter_append, List.map_append]
  rfl

theorem numerals_of_opens (front : String) {back : String} (opens : Opens back) :
    numerals (front ++ back) = numerals front ++ numerals back := by
  rw [numerals, opens.tokens_append, List.filter_append, List.map_append]
  rfl

theorem numerals_framed {front back : String} (closes : Closes front) (opens : Opens back) (text : String) :
    numerals (front ++ text ++ back) = numerals front ++ numerals text ++ numerals back := by
  rw [numerals_of_opens _ opens, numerals_of_closes closes]

theorem numerals_inside {front text back : String}
    (frame : Closes front ∧ Opens back ∧ numerals front = [] ∧ numerals back = []) :
    numerals (front ++ text ++ back) = numerals text := by
  obtain ⟨closes, opens, inFront, behind⟩ := frame
  rw [numerals_framed closes opens, inFront, behind, List.nil_append, List.append_nil]

/-- What is between the parts of a text divides it if it is no part of a name. -/
theorem numerals_intercalate {divider : String} (frame : Opens divider ∧ Closes divider ∧ divider.toList ≠ [])
    (silent : numerals divider = []) (parts : List String) :
    numerals (divider.intercalate parts) = parts.flatMap numerals := by
  induction parts with
  | nil => exact (by decide : numerals "" = [])
  | cons part rest inductionHypothesis =>
    cases rest with
    | nil => simp
    | cons next rest =>
      rw [String.intercalate_cons_cons, String.append_assoc,
        numerals_of_opens _ (frame.1.append frame.2.2 _), numerals_of_closes frame.2.1, silent,
        inductionHypothesis]
      rfl

/-! ## Numbers and names -/

theorem numerals_toString (n : Nat) : numerals (toString n) = [n] := by
  have digits : ∀ c ∈ Nat.toDigits 10 n, c.isDigit = true :=
    fun c listed => Nat.isDigit_of_mem_toDigits (by decide) (by decide) listed
  have continues : ∀ c ∈ Nat.toDigits 10 n, continuesName c = true := by
    intro c listed
    simp [continuesName, Char.isAlphanum, digits c listed]
  rw [numerals, Nat.toString_eq_ofList_toDigits, String.toList_ofList,
    tokens_of_continues Nat.toDigits_ne_nil continues, List.filter_cons_of_pos (by simpa using digits)]
  simp [Nat.ofDigitChars_ten_toDigits]

theorem isDigit_of_startsName {c : Char} (starts : startsName c = true) : c.isDigit = false := by
  by_contra digit
  simp only [Char.isDigit, Bool.not_eq_false, Bool.and_eq_true, decide_eq_true_eq, UInt32.le_iff_toNat_le] at digit
  rw [startsName, Bool.or_eq_true, decide_eq_true_eq] at starts
  rcases starts with letter | rfl
  · have inRange : (decide (c.val ≥ 65 ∧ c.val ≤ 90) || decide (c.val ≥ 97) && decide (c.val ≤ 122)) = true := letter
    simp [UInt32.le_iff_toNat_le] at digit inRange
    omega
  · simp at digit

theorem numerals_of_isIdentifier {name : String} (identifier : isIdentifier name = true) : numerals name = [] := by
  rw [numerals, tokens_of_isIdentifier identifier]
  cases spelled : name.toList with
  | nil => exact absurd spelled (toList_ne_nil_of_isIdentifier identifier)
  | cons first rest =>
    simp only [isIdentifier, isName, spelled, Bool.and_eq_true] at identifier
    simp [isDigit_of_startsName identifier.1.1]

theorem numerals_of_forall {text : String} (foreign : ∀ c ∈ text.toList, c.isDigit = false) :
    numerals text = [] := by
  rw [numerals, List.map_eq_nil_iff, List.filter_eq_nil_iff]
  intro token listed digits
  have nonempty : token ≠ [] := fun empty => List.nil_notMem_splitBy _ _ (empty ▸ listed)
  obtain ⟨c, inside⟩ := List.exists_mem_of_ne_nil token nonempty
  have among : c ∈ text.toList := by
    rw [← List.flatten_splitBy (fun a b => continuesName a && continuesName b) text.toList]
    exact List.mem_flatten.mpr ⟨token, listed, inside⟩
  have digit := List.all_eq_true.mp digits c inside
  rw [foreign c among] at digit
  cases digit

theorem numerals_indented (level : Nat) (line : String) : numerals (indented level line) = numerals line := by
  have blank : numerals (String.ofList (List.replicate (2 * level) ' ')) = [] := by
    refine numerals_of_forall ?_
    rw [String.toList_ofList]
    exact fun c listed => (List.eq_of_mem_replicate listed) ▸ rfl
  rw [indented, numerals_of_closes (closes_blanks _), blank, List.nil_append]

theorem numerals_place {place : Place} (named : place.Named) : numerals place.text = [] := by
  have path : place.path.flatMap numerals = [] :=
    List.flatMap_eq_nil_iff.mpr fun name listed => numerals_of_isIdentifier (named.2 name listed)
  have spelled : place.text = place.scope.base ++ ("->" ++ ".".intercalate place.path) := by
    apply String.toList_injective
    simp [Place.toList_text, String.toList_intercalate]
  rw [spelled, numerals_of_opens _ (Opens.append (by decide) (by decide) _), numerals_of_isIdentifier named.1,
    numerals_of_closes (by decide), numerals_intercalate (by decide) (by decide), path]
  decide

theorem numerals_item {place : Place} (named : place.Named) (index : Subscript) :
    numerals (Lvalue.item place index).text = numerals index.text := by
  have closes : Closes (place.text ++ "[") := Closes.append (by decide) (by decide) _
  have bracket : numerals "[" = [] := by decide
  rw [Lvalue.text, numerals_framed closes (by decide), numerals_of_opens _ (by decide), numerals_place named, bracket]
  exact List.append_nil _

theorem numerals_below {base : String} {x : Lvalue} (below : x.Below base) : numerals x.text = [] := by
  cases below with
  | field below => exact numerals_place below.1
  | item below =>
    rw [numerals_item below.1]
    decide

/-! ## Functions -/

/-- A function has the numbers that are in its body. -/
theorem numerals_text {result name : String} {parameters : List String} (body : List Stmt)
    (type : numerals result = []) (identifier : isIdentifier name = true)
    (silent : ∀ parameter ∈ parameters, numerals parameter = []) :
    numerals (Function.mk ⟨result, name, parameters⟩ body).text = (linesOf 1 body).flatMap numerals := by
  have signature : (Signature.mk result name parameters).text ++ " \x7b" =
      result ++ (" " ++ name ++ ("(" ++ ", ".intercalate parameters ++ ") \x7b")) := by
    apply String.toList_injective
    simp [Signature.text]
  have named : numerals (" " ++ name) = [] := by
    have blank : numerals " " = [] := by decide
    rw [numerals_of_closes (by decide), blank, numerals_of_isIdentifier identifier]
    rfl
  have given : numerals ("(" ++ ", ".intercalate parameters ++ ") \x7b") = [] := by
    rw [numerals_inside (by decide), numerals_intercalate (by decide) (by decide)]
    exact List.flatMap_eq_nil_iff.mpr silent
  have head : numerals ((Signature.mk result name parameters).text ++ " \x7b") = [] := by
    have bracket : Opens ("(" ++ ", ".intercalate parameters ++ ") \x7b") := by simp [Opens]; rfl
    have blank : Opens (" " ++ name ++ ("(" ++ ", ".intercalate parameters ++ ") \x7b")) := by simp [Opens]; rfl
    rw [signature, numerals_of_opens _ blank, type, numerals_of_opens _ bracket, named, given]
    rfl
  have last : numerals "\x7d" = [] ∧ numerals "\n" = [] := by decide
  rw [Function.text, numerals_of_opens _ (by decide), numerals_intercalate (by decide) (by decide), Function.lines,
    List.flatMap_cons, head, List.flatMap_append]
  simp [last]

theorem numerals_pointer {symbol front base : String} (identifier : isIdentifier symbol = true)
    (frame : Closes front ∧ Opens (" *" ++ base) ∧ numerals front = [] ∧ numerals (" *" ++ base) = []) :
    numerals (front ++ symbol ++ " *" ++ base) = [] := by
  rw [String.append_assoc, numerals_inside frame, numerals_of_isIdentifier identifier]

/-! ## Lines of events -/

theorem numerals_memory {base : String} {memory : Memory} (below : memory.Below base) :
    numerals memory.text = [] := by
  have address : numerals "&" = [] := by decide
  cases below with
  | len => decide
  | flag => decide
  | object below =>
    rw [Memory.text, numerals_of_closes (by decide), address, numerals_below below]
    rfl
  | pointee below => exact numerals_below below

theorem numerals_copyText (direction : Direction) {memory : String} (silent : numerals memory = [])
    (position width : String) :
    numerals (copyText direction memory position width) = numerals position ++ numerals width := by
  have comma : ∀ front back : String, numerals (front ++ ", " ++ back) = numerals front ++ numerals back := by
    intro front back
    have silent : numerals ", " = [] := by decide
    rw [String.append_assoc, numerals_of_opens _ (Opens.append (by decide) (by decide) _),
      numerals_of_closes (by decide), silent, List.nil_append]
  have buffer : numerals ("buffer + " ++ position) = numerals position := by
    have silent : numerals "buffer + " = [] := by decide
    rw [numerals_of_closes (by decide), silent, List.nil_append]
  have opening : numerals "alon_memcpy(" = [] := by decide
  have closing : numerals ");" = [] := by decide
  unfold copyText
  rw [numerals_of_opens _ (by decide), comma, comma, numerals_of_closes (by decide), opening, closing]
  cases direction <;> simp [Direction.sides, buffer, silent]

def Width.numbers : Width → List Nat
  | literal n => [n]
  | len => []

def Event.numbers : Event → List Nat
  | check n | seed n | loop n => [n]
  | static _ position width => [position, width]
  | access _ width => width.numbers

theorem numerals_width (width : Width) : numerals width.text = width.numbers := by
  cases width with
  | literal n => exact numerals_toString n
  | len => decide

/-- The lines of an event have its numbers, and the zero that a loop starts from. -/
theorem mem_numbers_of_event {base : String} {event : Event} (below : event.Below base) {direction : Direction}
    {line : String} (shown : line ∈ event.lines direction) {n : Nat} (listed : n ∈ numerals line) :
    n = 0 ∨ n ∈ event.numbers := by
  cases event with
  | check size =>
    cases List.mem_singleton.mp shown
    unfold checkText at listed
    rw [numerals_inside (by decide), numerals_toString] at listed
    exact .inr listed
  | seed offset =>
    cases List.mem_singleton.mp shown
    unfold seedText at listed
    rw [numerals_inside (by decide), numerals_toString] at listed
    exact .inr listed
  | loop count =>
    have start : numerals "for (uint64_t i = 0; i < " = [0] := by decide
    have behind : numerals "; i++) \x7b" = [] := by decide
    cases List.mem_singleton.mp shown
    unfold loopText at listed
    rw [numerals_framed (by decide) (by decide), start, behind, numerals_toString] at listed
    simpa [Event.numbers] using listed
  | static memory position width =>
    cases List.mem_singleton.mp shown
    rw [numerals_copyText direction (numerals_memory below), numerals_toString, numerals_toString] at listed
    exact .inr listed
  | access memory width =>
    have offset : numerals "offset" = [] := by decide
    have copied := numerals_copyText direction (numerals_memory below) "offset" width.text
    rw [offset, numerals_width, List.nil_append] at copied
    simp only [Event.lines, List.mem_cons, List.not_mem_nil, or_false] at shown
    rcases shown with rfl | rfl | rfl
    · unfold guardText at listed
      rw [numerals_inside (by decide), numerals_width] at listed
      exact .inr listed
    · rw [copied] at listed
      exact .inr listed
    · unfold advanceText at listed
      rw [numerals_inside (by decide), numerals_width] at listed
      exact .inr listed

theorem le_one_of_aside {base line : String} (aside : Aside base line) : ∀ n ∈ numerals line, n ≤ 1 := by
  cases aside with
  | plain listed =>
    have each : ∀ line ∈ plainLines, ∀ n ∈ numerals line, n ≤ 1 := by decide
    exact each line listed
  | @framed front back x listed below =>
    have each : ∀ sides ∈ framedLines, Closes sides.1 ∧ Opens sides.2 ∧
        ∀ n ∈ numerals sides.1 ++ numerals sides.2, n ≤ 1 := by decide
    obtain ⟨closes, opens, small⟩ := each _ listed
    rw [numerals_framed closes opens, numerals_below below, List.append_nil]
    exact small

theorem Traced.mem_numbers {direction : Direction} {base : String} {lines : List String} {events : Trace}
    (traced : Traced direction base lines events) {line : String} (among : line ∈ lines) {n : Nat}
    (listed : n ∈ numerals line) : n ≤ 1 ∨ ∃ e ∈ events, n ∈ e.2.numbers := by
  cases traced.lineOf_mem among with
  | aside level aside =>
    rw [numerals_indented] at listed
    exact .inl (le_one_of_aside aside n listed)
  | @event line level event traced below shown =>
    rw [numerals_indented] at listed
    rcases mem_numbers_of_event below shown listed with rfl | number
    · exact .inl (by decide)
    · exact .inr ⟨(level, event), traced, number⟩

/-! ## Readers and writers -/

theorem mem_sizes_of_stepEvents (step : Step) :
    ∀ e ∈ stepEvents step, ∀ n ∈ e.2.numbers, n ≤ lengthWidth ∨ n ∈ step.sizes := by
  cases step with
  | seedCursor offset => simp [stepEvents, Event.numbers, Step.sizes]
  | move place transfer =>
    cases transfer with
    | scalar kind access | block ty length access =>
      cases access <;> simp [stepEvents, fieldEvents, fixedEvents, Event.numbers, Width.numbers, Step.sizes]
    | _ =>
      simp [stepEvents, fieldEvents, fixedEvents, textEvents, flagEvent, Event.numbers, Width.numbers, Step.sizes,
        flagWidth, lengthWidth]

theorem le_of_mem_planEvents {fields : List Field} {base : String} {plan : Plan}
    (built : Plan.build fields base = .ok plan) :
    ∀ e ∈ planEvents plan, ∀ n ∈ e.2.numbers, n ≤ maxLiteral := by
  obtain ⟨final, laid, -⟩ := Plan.laidOut_of_build built
  rw [planEvents, List.forall_mem_append]
  constructor
  · split
    · simp
    · simpa [Event.numbers] using Plan.fixedSize_le_maxLiteral built
  · intro e listed n number
    obtain ⟨step, among, listed⟩ := List.mem_flatMap.mp listed
    rcases mem_sizes_of_stepEvents step e listed n number with small | size
    · exact Nat.le_trans small (by decide)
    · exact laid.sizes_le (Nat.zero_le _) step among n size

theorem numerals_codec {symbol : String} (identifier : isIdentifier symbol = true) (plan : Plan)
    (direction : Direction) :
    numerals (codec symbol plan direction).text = (linesOf 1 (planStmts direction plan)).flatMap numerals := by
  have named : ∀ {tail : String}, tail.toList.all continuesName = true → '_' ∈ tail.toList →
      isIdentifier (symbol ++ tail) = true := isIdentifier_append identifier
  cases direction with
  | read =>
    have record : numerals ("struct " ++ symbol ++ " *" ++ readerBase) = [] :=
      numerals_pointer identifier (by decide)
    exact numerals_text _ (by decide) (named (by decide) (by decide)) (List.forall_mem_cons.mpr ⟨by decide,
      List.forall_mem_cons.mpr ⟨by decide, List.forall_mem_singleton.mpr record⟩⟩)
  | write =>
    have record : numerals ("const struct " ++ symbol ++ " *" ++ writerBase) = [] :=
      numerals_pointer identifier (by decide)
    exact numerals_text _ (by decide) (named (by decide) (by decide)) (List.forall_mem_cons.mpr ⟨record, by decide⟩)

/-- Readers and writers are written with numbers within the range of a literal. -/
theorem le_of_mem_numerals_codec {fields : List Field} {base symbol : String} {plan : Plan}
    (built : Plan.build fields base = .ok plan) (symbolIdentifier : isIdentifier symbol = true)
    (baseIdentifier : isIdentifier base = true) (identified : (FieldType.struct fields).EveryScope Identified)
    (direction : Direction) : ∀ n ∈ numerals (codec symbol plan direction).text, n ≤ maxLiteral := by
  have traced := traced_body direction (stepBelow_of_build built baseIdentifier identified)
  intro n listed
  rw [numerals_codec symbolIdentifier, List.mem_flatMap] at listed
  obtain ⟨line, among, listed⟩ := listed
  rcases traced.mem_numbers (List.mem_append_left _ among) listed with small | ⟨e, event, number⟩
  · exact Nat.le_trans small (by decide)
  · exact le_of_mem_planEvents built e event n number

/-! ## Other functions -/

theorem numerals_adapter {name callee : String} {parameters arguments : List String}
    (named : isIdentifier name = true) (called : isIdentifier callee = true)
    (given : ∀ parameter ∈ parameters, numerals parameter = [])
    (handed : ∀ argument ∈ arguments, numerals argument = []) :
    numerals (Function.mk ⟨"int", name, parameters⟩ [.forward callee arguments]).text = [] := by
  have call : numerals ("return " ++ callee) = [] := by
    rw [numerals_of_closes (by decide), numerals_of_isIdentifier called]
    decide
  have list : numerals ("(" ++ ", ".intercalate arguments ++ ");") = [] := by
    rw [numerals_inside (by decide), numerals_intercalate (by decide) (by decide)]
    exact List.flatMap_eq_nil_iff.mpr handed
  have opens : Opens ("(" ++ ", ".intercalate arguments ++ ");") := by simp [Opens]; rfl
  have line : numerals ("return " ++ callee ++ "(" ++ ", ".intercalate arguments ++ ");") = [] := by
    have spelled : "return " ++ callee ++ "(" ++ ", ".intercalate arguments ++ ");" =
        "return " ++ callee ++ ("(" ++ ", ".intercalate arguments ++ ");") := by
      simp only [String.append_assoc]
    rw [spelled, numerals_of_opens _ opens, call, list]
    rfl
  rw [numerals_text _ (by decide) named given]
  show numerals (indented 1 _) ++ [] = []
  rw [numerals_indented, line]
  rfl

section

variable {symbol : String} (identifier : isIdentifier symbol = true)

include identifier

theorem mem_ownedIn_of_numerals {fields : List Field} (identified : (FieldType.struct fields).EveryScope Identified) :
    ∀ n ∈ numerals (Function.mk (releaseSignature symbol) (releaseStmts fields)).text,
      ∃ place, Lvalue.item place (.literal n) ∈ ownedIn { base := releaseBase } fields := by
  intro n listed
  have record : numerals ("struct " ++ symbol ++ " *" ++ releaseBase) = [] := numerals_pointer identifier (by decide)
  have inBody : n ∈ (linesOf 1 (releaseStmts fields)).flatMap numerals := by
    rwa [releaseSignature, numerals_text _ (by decide) (isIdentifier_append identifier (by decide) (by decide))
      (List.forall_mem_singleton.mpr record)] at listed
  obtain ⟨body, printed, nothing, some⟩ := linesOf_releaseStmts fields
  rw [printed, List.flatMap_map, List.flatMap_congr fun line _ => numerals_indented 1 line] at inBody
  by_cases none : ownedIn { base := releaseBase } fields = []
  · have silent : ["(void)x;"].flatMap numerals = [] := by decide
    rw [nothing none, silent] at inBody
    cases inBody
  · rw [some none, List.flatMap_map] at inBody
    obtain ⟨x, owned, inBody⟩ := List.mem_flatMap.mp inBody
    rw [numerals_inside (by decide)] at inBody
    cases pointer_of_mem_ownedIn identified rfl x owned with
    | field named =>
      rw [Lvalue.text, numerals_place named] at inBody
      cases inBody
    | @item place named i =>
      rw [numerals_item named, Subscript.text, numerals_toString, List.mem_singleton] at inBody
      exact ⟨place, inBody ▸ owned⟩

theorem numerals_adapters : ∀ f ∈ adapterFunctions symbol, numerals f.text = [] := by
  have named : ∀ {tail : String}, tail.toList.all continuesName = true → '_' ∈ tail.toList →
      isIdentifier (symbol ++ tail) = true := isIdentifier_append identifier
  have reads : isIdentifier (symbol ++ "_deserialize") = true := named (by decide) (by decide)
  have writes : isIdentifier (symbol ++ "_serialize") = true := named (by decide) (by decide)
  have out : numerals ("struct " ++ symbol ++ " *" ++ readerBase) = [] := numerals_pointer identifier (by decide)
  have taken : numerals ("const " ++ ("struct " ++ symbol ++ " *") ++ writerBase) = [] := by
    rw [String.append_assoc, numerals_of_closes (by decide), numerals_pointer identifier (by decide)]
    decide
  refine List.forall_mem_cons.mpr ⟨?_, List.forall_mem_cons.mpr ⟨?_, List.forall_mem_singleton.mpr ?_⟩⟩
  · exact numerals_adapter (named (by decide) (by decide)) reads
      (List.forall_mem_cons.mpr ⟨by decide, List.forall_mem_singleton.mpr out⟩) (by decide)
  · exact numerals_adapter (named (by decide) (by decide)) writes
      (List.forall_mem_cons.mpr ⟨taken, List.forall_mem_singleton.mpr (by decide)⟩) (by decide)
  · exact numerals_adapter (named (by decide) (by decide)) reads
      (List.forall_mem_cons.mpr ⟨by decide, List.forall_mem_singleton.mpr out⟩) (by decide)

end

end C

end PackedRecord
