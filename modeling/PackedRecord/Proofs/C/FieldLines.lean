import PackedRecord.Proofs.C.Definitions
import PackedRecord.Proofs.C.Mirror

/-!
# The lines for one field

Which lines of a generated function are for a field can be told from the text: they spell out the access to
it, as a pointer, an arrow and the name of the field.  One line of a copy has one arrow, so it is a line for
one field.

* `accesses`: a line spells out the access to a member.
* `copiesOf_codec`: a reader or writer has one copy for each field, as the plan moves it.
* `loops_codec`: for an array of texts, it stands in a loop over the elements.
* `freesOf_release`: a release function has a line for each pointer of a field.
-/

namespace PackedRecord

def Step.move? : Step → Option (Place × Transfer)
  | seedCursor _ => none
  | move place transfer => some (place, transfer)

def Plan.moves (plan : Plan) : List (Place × Transfer) :=
  plan.steps.filterMap Step.move?

/-- Where keys are distinct, no other element has the key of one. -/
theorem filter_eq_singleton {α : Type} {key : α → String} {list : List α} (distinct : (list.map key).Nodup) {a : α}
    (listed : a ∈ list) : (list.filter fun b => key b = key a) = [a] := by
  induction list with
  | nil => cases listed
  | cons b list inductionHypothesis =>
    obtain ⟨fresh, distinct⟩ := List.nodup_cons.mp distinct
    rcases List.mem_cons.mp listed with rfl | listed
    · rw [List.filter_cons_of_pos (by simp), List.filter_eq_nil_iff.mpr]
      intro c among same
      exact fresh (List.mem_map.mpr ⟨c, among, by simpa using same⟩)
    · have different : key b ≠ key a := fun same => fresh (same ▸ List.mem_map_of_mem listed)
      rw [List.filter_cons_of_neg (by simpa using different), inductionHypothesis distinct listed]

theorem mem_of_filter_eq {α : Type} {p : α → Bool} {list : List α} {a : α} (alone : list.filter p = [a]) : a ∈ list :=
  List.mem_of_mem_filter (alone ▸ List.mem_singleton_self a)

namespace C

open Stmt

/-! ## Accesses -/

/-- Whether a line spells out the access to a member of the record that a pointer leads to. -/
def accesses (base name line : String) : Bool :=
  decide ([base.toList, ['-'], ['>'], name.toList] <:+: tokens line.toList)

example : accesses "out" "x" "  alon_memcpy(&out->x.value, buffer + 4, 8);" = true := by decide

example : accesses "out" "x" "  alon_memcpy(&out->xs, in->x, 8);" = false := by decide

/-- Some tokens have one arrow, and it leads to this member. -/
def Accessed (base name : String) (list : List (List Char)) : Prop :=
  ∃ front back, list = (front ++ [base.toList, ['-']]) ++ ['>'] :: (name.toList :: back) ∧
    ['>'] ∉ front ++ [base.toList, ['-']] ∧ ['>'] ∉ name.toList :: back

theorem notMem_tokens {c : Char} {text : List Char} (outside : c ∉ text) : [c] ∉ tokens text := by
  intro listed
  rw [← List.flatten_splitBy (fun a b => continuesName a && continuesName b) text] at outside
  exact outside (List.mem_flatten.mpr ⟨_, listed, List.mem_singleton_self c⟩)

theorem accesses_eq_false {line : String} (arrowless : '>' ∉ line.toList) (base name : String) :
    accesses base name line = false := by
  refine decide_eq_false fun within => notMem_tokens arrowless ?_
  exact within.subset (by simp)

theorem Accessed.accesses_eq {base member line : String} (accessed : Accessed base member (tokens line.toList))
    (name : String) : accesses base name line = decide (member = name) := by
  obtain ⟨front, back, spelled, before, behind⟩ := accessed
  rw [accesses, spelled, decide_eq_decide]
  constructor
  · rintro ⟨front', back', same⟩
    have divided : (front ++ [base.toList, ['-']]) ++ ['>'] :: (member.toList :: back) =
        (front' ++ [base.toList, ['-']]) ++ ['>'] :: (name.toList :: back') := by
      simpa using same.symm
    rw [List.append_cons_inj_of_notMem before behind] at divided
    exact String.toList_injective (List.cons.inj divided.2.2).1
  · rintro rfl
    exact ⟨front, back, by simp⟩

theorem Accessed.framed {base name front text back : String} (accessed : Accessed base name (tokens text.toList))
    (closes : Closes front) (opens : Opens back) (arrowless : '>' ∉ front.toList ∧ '>' ∉ back.toList) :
    Accessed base name (tokens (front ++ text ++ back).toList) := by
  obtain ⟨before, behind, spelled, first, last⟩ := accessed
  have split : tokens (front ++ text ++ back).toList =
      tokens front.toList ++ tokens text.toList ++ tokens back.toList := by
    rw [opens.tokens_append, closes.tokens_append]
  refine ⟨tokens front.toList ++ before, behind ++ tokens back.toList, ?_, ?_, ?_⟩
  · rw [split, spelled]
    simp
  · rw [List.append_assoc, List.mem_append, not_or]
    exact ⟨notMem_tokens arrowless.1, first⟩
  · rw [← List.cons_append, List.mem_append, not_or]
    exact ⟨last, notMem_tokens arrowless.2⟩

theorem Accessed.indented {base name line : String} (accessed : Accessed base name (tokens line.toList))
    (level : Nat) : Accessed base name (tokens (indented level line).toList) := by
  have framed : Accessed base name (tokens (String.ofList (List.replicate (2 * level) ' ') ++ line ++ "").toList) :=
    accessed.framed (closes_blanks _) (by decide) ⟨by simp, by simp⟩
  rwa [String.append_empty] at framed

/-- The field of the record that an lvalue is, or is a part of. -/
def Lvalue.field? : Lvalue → Option String
  | var _ => none
  | field place | item place _ => place.path.head?

theorem accessed_place {place : Place} (named : place.Named) {name : String} (first : place.path.head? = some name) :
    Accessed place.scope.base name (tokens place.text.toList) := by
  obtain ⟨rest, path⟩ := List.head?_eq_some_iff.mp first
  have foreign : ∀ {word : String}, isIdentifier word = true → ['>'] ≠ word.toList := by
    intro word identifier same
    have outside : '>' ∉ word.toList := notMem_of_isIdentifier identifier rfl
    exact outside (by simp [← same])
  have identifiers := named.2
  rw [path] at identifiers
  obtain ⟨identifier, others⟩ := List.forall_mem_cons.mp identifiers
  rw [tokens_place named.1, path]
  cases rest with
  | nil =>
    refine ⟨[], [], ?_, by simp [foreign named.1], by simp [foreign identifier]⟩
    rw [List.map_singleton, List.intercalate_singleton, tokens_of_isIdentifier identifier]
    rfl
  | cons next rest =>
    have arrowless : '>' ∉ ['.'].intercalate ((next :: rest).map String.toList) := by
      refine Place.notMem_intercalate (by decide) fun part listed => ?_
      obtain ⟨name, among, rfl⟩ := List.mem_map.mp listed
      exact notMem_of_isIdentifier (others name among) rfl
    refine ⟨[], ['.'] :: tokens (['.'].intercalate ((next :: rest).map String.toList)), ?_,
      by simp [foreign named.1], ?_⟩
    · rw [List.map_cons, List.map_cons, tokens_path identifier]
      rfl
    · simpa [foreign identifier] using notMem_tokens arrowless

theorem accessed_item {place : Place} (named : place.Named) {name : String} (first : place.path.head? = some name)
    (index : Subscript) : Accessed place.scope.base name (tokens (Lvalue.item place index).text.toList) := by
  have spelled : (Lvalue.item place index).text = "" ++ place.text ++ ("[" ++ index.text ++ "]") := by
    simp [Lvalue.text, String.append_assoc]
  have arrowless : '>' ∉ index.text.toList := by
    cases index with
    | counter => decide
    | literal n => exact notMem_toString rfl n
  rw [spelled]
  exact (accessed_place named first).framed (by decide) (by simp [Opens]; rfl) ⟨by decide, by simpa using arrowless⟩

theorem accessed_lvalue {base : String} {x : Lvalue} (below : x.Below base) {name : String}
    (first : x.field? = some name) : Accessed base name (tokens x.text.toList) := by
  cases below with
  | field below =>
    obtain ⟨named, rfl⟩ := below
    exact accessed_place named first
  | item below =>
    obtain ⟨named, rfl⟩ := below
    exact accessed_item named first .counter

/-! ## Copies -/

/-- The lines of a text that copy to or from a member of the record. -/
def copiesOf (base name text : String) : List String :=
  (textLines text).filter fun line => accesses base name line && copies line

/-- A copy has its memory on one side, and no arrow besides. -/
theorem exists_copyText_eq (direction : Direction) (memory : String) {position width : String}
    (arrowless : '>' ∉ position.toList ∧ '>' ∉ width.toList) :
    ∃ front back, copyText direction memory position width = front ++ memory ++ back ∧ Closes front ∧ Opens back ∧
      '>' ∉ front.toList ∧ '>' ∉ back.toList := by
  cases direction with
  | read =>
    refine ⟨"alon_memcpy(", ", buffer + " ++ position ++ ", " ++ width ++ ");", ?_, by decide, ?_, by decide, ?_⟩
    · apply String.toList_injective
      unfold copyText
      simp [Direction.sides]
    · simp [Opens]; rfl
    · simp [arrowless]
  | write =>
    refine ⟨"alon_memcpy(buffer + " ++ position ++ ", ", ", " ++ width ++ ");", ?_, ?_, ?_, ?_, ?_⟩
    · apply String.toList_injective
      unfold copyText
      simp [Direction.sides]
    · exact Closes.append (by decide) (by decide) _
    · simp [Opens]; rfl
    · simp [arrowless]
    · simp [arrowless]

section

variable {base : String} (direction : Direction) {position width : String}
  (arrowless : '>' ∉ position.toList ∧ '>' ∉ width.toList)

include arrowless

/-- A copy between memory of a field and the buffer is for that field. -/
theorem filter_accesses_copy {x : Lvalue} (below : x.Below base) {member : String} (first : x.field? = some member)
    {memory : Memory} (belongs : memory = .object x ∨ memory = .pointee x) (level : Nat) (name : String) :
    [indented level (copyText direction memory.text position width)].filter (accesses base name) =
      if member = name then [indented level (copyText direction memory.text position width)] else [] := by
  obtain ⟨front, back, spelled, closes, opens, before, behind⟩ := exists_copyText_eq direction memory.text arrowless
  have accessed : Accessed base member (tokens (copyText direction memory.text position width).toList) := by
    rw [spelled]
    rcases belongs with rfl | rfl
    · have address : front ++ (Memory.object x).text ++ back = front ++ "&" ++ x.text ++ back := by
        simp [Memory.text, String.append_assoc]
      rw [address]
      exact (accessed_lvalue below first).framed (Closes.append (by decide) (by decide) _) opens
        ⟨by simp [before], behind⟩
    · exact (accessed_lvalue below first).framed closes opens ⟨before, behind⟩
  rw [List.filter_singleton, (accessed.indented level).accesses_eq, Bool.cond_decide]

/-- A copy between a variable and the buffer is for no field. -/
theorem filter_accesses_variable (v : Var) (level : Nat) (name : String) :
    [indented level (copyText direction (Memory.object (.var v)).text position width)].filter (accesses base name) =
      [] := by
  have silent : '>' ∉ (copyText direction (Memory.object (.var v)).text position width).toList :=
    notMem_copyText direction (by cases v <;> decide) arrowless.1 arrowless.2 (by decide)
  rw [List.filter_singleton, accesses_eq_false (by simpa using silent)]
  rfl

end

/-- A line of a text stands in a loop over this many elements. -/
def LoopsOver (count : Nat) (line text : String) : Prop :=
  ∃ before body after : List String, line ∈ body.map ("    " ++ ·) ∧ textLines text =
    before ++ ("  for (uint64_t i = 0; i < " ++ toString count ++ "; i++) \x7b") ::
      (body.map ("    " ++ ·) ++ "  \x7d" :: after)

def copiesAt (direction : Direction) (e : Nat × Event) : List String :=
  ((e.2.lines direction).filter copies).map (indented e.1)

theorem copiesAt_static (direction : Direction) (level position width : Nat) (memory : Memory) :
    copiesAt direction (level, .static memory position width) =
      [indented level (copyText direction memory.text (toString position) (toString width))] := by
  rw [copiesAt, filter_copies_lines, List.map_singleton]

theorem copiesAt_access (direction : Direction) (level : Nat) (memory : Memory) (width : Width) :
    copiesAt direction (level, .access memory width) =
      [indented level (copyText direction memory.text "offset" width.text)] := by
  rw [copiesAt, filter_copies_lines, List.map_singleton]

theorem text_counter (place : Place) : (Lvalue.item place .counter).text = place.text ++ "[i]" := by
  simp [Lvalue.text, Subscript.text, String.append_assoc]

def positionText : Access → String
  | .static offset => toString offset
  | .cursor => "offset"

def copyLine (direction : Direction) (place : Place) : Transfer → String
  | .scalar kind access =>
    indented 1 (copyText direction ("&" ++ place.text) (positionText access) (toString kind.width))
  | .block _ length access =>
    indented 1 (copyText direction ("&" ++ place.text) (positionText access) (toString length))
  | .text => indented 2 (copyText direction place.text "offset" "len")
  | .texts _ => indented 2 (copyText direction (place.text ++ "[i]") "offset" "len")
  | .optionalText => indented 3 (copyText direction place.text "offset" "len")
  | .optionalScalar kind =>
    indented 3 (copyText direction ("&" ++ (place.member valueMember).text) "offset" (toString kind.width))

section

variable {base : String} (direction : Direction)

theorem filter_fixedEvents {x : Lvalue} (below : x.Below base) {member : String} (first : x.field? = some member)
    (level width : Nat) (access : Access) (name : String) :
    ((fixedEvents level x width access).flatMap (copiesAt direction)).filter (accesses base name) =
      if member = name then
        [indented level (copyText direction ("&" ++ x.text) (positionText access) (toString width))] else [] := by
  have digits : ∀ n : Nat, '>' ∉ (toString n).toList := notMem_toString rfl
  cases access with
  | static offset =>
    rw [fixedEvents, List.flatMap_singleton, copiesAt_static]
    exact filter_accesses_copy direction ⟨digits offset, digits width⟩ below first (.inl rfl) level name
  | cursor =>
    rw [fixedEvents, List.flatMap_singleton, copiesAt_access]
    exact filter_accesses_copy direction ⟨by decide, digits width⟩ below first (.inl rfl) level name

theorem filter_textEvents {x : Lvalue} (below : x.Below base) {member : String} (first : x.field? = some member)
    (level : Nat) (name : String) :
    ((textEvents level x).flatMap (copiesAt direction)).filter (accesses base name) =
      if member = name then [indented level (copyText direction x.text "offset" "len")] else [] := by
  rw [textEvents, List.flatMap_cons, List.flatMap_singleton, List.filter_append, copiesAt_access, copiesAt_access,
    filter_accesses_variable direction (by decide), List.nil_append]
  exact filter_accesses_copy direction (by decide) below first (.inr rfl) level name

theorem filter_flagEvent (level : Nat) (events : Trace) (name : String) :
    ((flagEvent level :: events).flatMap (copiesAt direction)).filter (accesses base name) =
      (events.flatMap (copiesAt direction)).filter (accesses base name) := by
  rw [List.flatMap_cons, List.filter_append, flagEvent, copiesAt_access,
    filter_accesses_variable direction (by decide), List.nil_append]

/-- Of the copies for a field, which may be of its length or flag, one moves the field itself. -/
theorem filter_fieldEvents {place : Place} (below : place.Below base) (top : place.scope.members = [])
    (transfer : Transfer) (name : String) :
    ((fieldEvents place transfer).flatMap (copiesAt direction)).filter (accesses base name) =
      if place.name = name then [copyLine direction place transfer] else [] := by
  have whole : (Lvalue.field place).field? = some place.name := by simp [Lvalue.field?, Place.path, top]
  have value : (Lvalue.field (place.member valueMember)).field? = some place.name := by
    simp [Lvalue.field?, Place.path, Place.member, Scope.enter, top]
  cases transfer with
  | scalar kind access => exact filter_fixedEvents direction (.field below) whole 1 kind.width access name
  | block ty length access => exact filter_fixedEvents direction (.field below) whole 1 length access name
  | text => exact filter_textEvents direction (.field below) whole 2 name
  | texts count =>
    have head : copiesAt direction (1, .loop count) = [] := by
      rw [copiesAt, filter_copies_lines]
      rfl
    rw [fieldEvents, List.flatMap_cons, head, List.nil_append,
      filter_textEvents direction (.item below) (whole : (Lvalue.item place .counter).field? = _), text_counter]
    rfl
  | optionalText =>
    rw [fieldEvents, filter_flagEvent]
    exact filter_textEvents direction (.field below) whole 3 name
  | optionalScalar kind =>
    rw [fieldEvents, filter_flagEvent]
    exact filter_fixedEvents direction (.field (below.member (by decide))) value 3 kind.width .cursor name

theorem filter_stepEvents {steps : List Step} (below : ∀ step ∈ steps, StepBelow base step)
    (top : ∀ move ∈ steps.filterMap Step.move?, move.1.scope.members = []) (name : String) :
    ((steps.flatMap stepEvents).flatMap (copiesAt direction)).filter (accesses base name) =
      ((steps.filterMap Step.move?).filter fun move => move.1.name = name).map
        fun move => copyLine direction move.1 move.2 := by
  induction steps with
  | nil => rfl
  | cons step steps inductionHypothesis =>
    obtain ⟨first, others⟩ := List.forall_mem_cons.mp below
    rw [List.flatMap_cons, List.flatMap_append, List.filter_append]
    cases step with
    | seedCursor offset =>
      have seed : copiesAt direction (1, .seed offset) = [] := by
        rw [copiesAt, filter_copies_lines]
        rfl
      rw [List.filterMap_cons_none rfl] at top ⊢
      rw [stepEvents, List.flatMap_singleton, seed, inductionHypothesis others top]
      rfl
    | move place transfer =>
      have cons : (Step.move place transfer :: steps).filterMap Step.move? =
          (place, transfer) :: steps.filterMap Step.move? := rfl
      rw [cons] at top ⊢
      obtain ⟨atTop, rest⟩ := List.forall_mem_cons.mp top
      rw [stepEvents, filter_fieldEvents direction (first place rfl) atTop, inductionHypothesis others rest]
      by_cases same : place.name = name <;> simp [same]

end

section

variable {fields : List Field} {base symbol : String} {plan : Plan} (built : Plan.build fields base = .ok plan)
  (symbolIdentifier : isIdentifier symbol = true) (identified : (FieldType.struct fields).EveryScope Identified)
  (known : base ∈ [readerBase, writerBase]) (direction : Direction)

include built symbolIdentifier identified known

/-- A reader or writer has one copy for each field that the plan moves, as the plan moves it. -/
theorem copiesOf_codec (top : ∀ move ∈ plan.moves, move.1.scope.members = []) (name : String) :
    copiesOf base name (codec symbol plan direction).text =
      (plan.moves.filter fun move => move.1.name = name).map fun move => copyLine direction move.1 move.2 := by
  have checked : ∀ size, copiesAt direction (1, .check size) = [] := by
    intro size
    rw [copiesAt, filter_copies_lines]
    rfl
  have front : ((if plan.fixedSize = 0 then [] else [(1, Event.check plan.fixedSize)]).flatMap
      (copiesAt direction)).filter (accesses base name) = [] := by
    split <;> simp [checked]
  have copied := filter_textLines built symbolIdentifier identified direction known (.inr rfl)
  rw [copiesOf, ← List.filter_filter, copied, planEvents]
  show (List.flatMap (copiesAt direction) _).filter _ = _
  rw [List.flatMap_append, List.filter_append, front, List.nil_append]
  exact filter_stepEvents direction (stepBelow_of_build built (isIdentifier_of_known known) identified) top name

/-- The texts of an array are copied in a loop over all of them. -/
theorem loops_codec {place : Place} {count : Nat} (moved : (place, .texts count) ∈ plan.moves) :
    LoopsOver count (copyLine direction place (.texts count)) (codec symbol plan direction).text := by
  obtain ⟨step, among, same⟩ := List.mem_filterMap.mp moved
  obtain rfl : step = .move place (.texts count) := by
    cases step with
    | seedCursor offset => cases same
    | move place' transfer =>
      cases same
      rfl
  obtain ⟨before, after, steps⟩ := List.append_of_mem among
  have inside : copyText direction (place.text ++ "[i]") "offset" "len" ∈ movedText direction (.item place .counter) := by
    simp [movedText, accessLines, Memory.text, Width.text, text_counter]
  have head : indented 1 (loopText count) = "  for (uint64_t i = 0; i < " ++ toString count ++ "; i++) \x7b" := by
    apply String.toList_injective
    unfold loopText
    simp
  have last : indented 1 "\x7d" = "  \x7d" := by decide
  have deeper : indented 2 = ("    " ++ ·) := rfl
  refine ⟨codecHead symbol plan direction :: (checkLines plan ++ linesOf 1 (before.flatMap (stepStmts direction))),
    movedText direction (.item place .counter), linesOf 1 (after.flatMap (stepStmts direction)) ++ exitLines,
    List.mem_map_of_mem inside, ?_⟩
  rw [textLines_codec built symbolIdentifier (isIdentifier_of_known known) identified, linesOf_planStmts, steps,
    List.flatMap_append, List.flatMap_cons, linesOf_append, linesOf_append, stepStmts, moveField, linesOf_loop,
    linesOf_moveText, head, last, deeper]
  simp

end

/-! ## Releases -/

/-- The lines of a text that give back memory of a member of the record. -/
def freesOf (base name text : String) : List String :=
  (textLines text).filter fun line => accesses base name line && starts "alon_free(" line

/-- The pointers of a field are the field itself or its elements. -/
theorem eq_of_mem_ownedBy {scope : Scope} {name : String} {ty : FieldType} (flat : ∀ inner, ty ≠ .struct inner) :
    ∀ x ∈ ownedBy scope name ty, x = .field ⟨scope, name⟩ ∨ ∃ i, x = .item ⟨scope, name⟩ (.literal i) := by
  cases ty with
  | struct inner => exact absurd rfl (flat inner)
  | text => simp [ownedBy]
  | array each count => cases each <;> simp [ownedBy]
  | option inner => cases inner <;> simp [ownedBy]
  | _ => simp [ownedBy]

def freeLine (x : Lvalue) : String :=
  indented 1 ("alon_free(" ++ x.text ++ ");")

theorem filter_ownedBy {base member : String} (identifier : isIdentifier base = true)
    (named : isIdentifier member = true) {ty : FieldType} (flat : ∀ inner, ty ≠ .struct inner) (name : String) :
    ((ownedBy { base } member ty).map freeLine).filter (accesses base name) =
      if member = name then (ownedBy { base } member ty).map freeLine else [] := by
  have path : (⟨{ base }, member⟩ : Place).Named := ⟨identifier, by simpa [Place.path] using named⟩
  have first : (⟨{ base }, member⟩ : Place).path.head? = some member := rfl
  have shown : ∀ x ∈ ownedBy { base } member ty, accesses base name (freeLine x) = decide (member = name) := by
    intro x listed
    have accessed : Accessed base member (tokens x.text.toList) := by
      rcases eq_of_mem_ownedBy flat x listed with rfl | ⟨i, rfl⟩
      · exact accessed_place path first
      · exact accessed_item path first (.literal i)
    have framed : Accessed base member (tokens ("alon_free(" ++ x.text ++ ");").toList) :=
      accessed.framed (by decide) (by decide) (by decide)
    exact (framed.indented 1).accesses_eq name
  split
  · rename_i same
    exact List.filter_eq_self.mpr (by simpa [same] using shown)
  · rename_i different
    exact List.filter_eq_nil_iff.mpr (by simpa [different] using shown)

theorem filter_ownedIn {base : String} (identifier : isIdentifier base = true) {fields : List Field}
    (identified : Identified fields) (flat : ∀ field ∈ fields, ∀ inner, field.2 ≠ .struct inner) (name : String) :
    ((ownedIn { base } fields).map freeLine).filter (accesses base name) =
      (fields.filter fun field => field.1 = name).flatMap fun field =>
        (ownedBy { base } field.1 field.2).map freeLine := by
  induction fields with
  | nil => rfl
  | cons field fields inductionHypothesis =>
    obtain ⟨named, others⟩ := List.forall_mem_cons.mp identified
    obtain ⟨first, rest⟩ := List.forall_mem_cons.mp flat
    rw [ownedIn, List.map_append, List.filter_append, filter_ownedBy identifier named first,
      inductionHypothesis others rest]
    by_cases same : field.1 = name <;> simp [same]

theorem filter_starts_release (fields : List Field) :
    (linesOf 1 (releaseStmts fields)).filter (starts "alon_free(") =
      (ownedIn { base := releaseBase } fields).map freeLine := by
  obtain ⟨body, printed, nothing, some⟩ := linesOf_releaseStmts fields
  rw [printed]
  by_cases none : ownedIn { base := releaseBase } fields = []
  · rw [nothing none, none]
    decide
  · rw [some none, List.map_map, List.filter_eq_self.mpr]
    · rfl
    · intro line listed
      obtain ⟨x, -, rfl⟩ := List.mem_map.mp listed
      simp [starts, List.isPrefixOf]

/-- A release function has a line for each pointer of a field, and no other lines for it. -/
theorem freesOf_release {symbol : String} (symbolIdentifier : isIdentifier symbol = true) {fields : List Field}
    (identified : (FieldType.struct fields).EveryScope Identified)
    (flat : ∀ field ∈ fields, ∀ inner, field.2 ≠ .struct inner) (distinct : (fields.map Prod.fst).Nodup) :
    ∀ field ∈ fields, freesOf releaseBase field.1 (Function.mk (releaseSignature symbol) (releaseStmts fields)).text =
      (ownedBy { base := releaseBase } field.1 field.2).map freeLine := by
  intro field listed
  have alone : (fields.filter fun other => other.1 = field.1) = [field] := filter_eq_singleton distinct listed
  have owned := filter_ownedIn (by decide : isIdentifier releaseBase = true) identified.1 flat field.1
  have head : starts "alon_free(" ((releaseSignature symbol).text ++ " \x7b") = false := by
    simp [starts, releaseSignature, Signature.text, List.isPrefixOf]
  have last : ["\x7d"].filter (starts "alon_free(") = [] := by decide
  rw [freesOf, ← List.filter_filter, (plain_release symbolIdentifier identified).tidy.textLines_eq, Function.lines,
    List.filter_cons_of_neg (by simp [head]), List.filter_append, filter_starts_release, last,
    List.append_nil]
  rwa [alone, List.flatMap_singleton] at owned

end C

end PackedRecord
