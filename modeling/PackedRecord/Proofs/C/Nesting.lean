import Mathlib.Combinatorics.Enumerative.DyckWord
import PackedRecord.Proofs.C.Trace

/-!
# Blocks in generated text

The text of a function is read character by character, with braces as the ups and downs of a Dyck word, and
line by line, with the indentation that goes with the blocks open at a line.  Both are properties of printing
statements and hold of all of them, as long as no name that a statement is given has a brace in it.

* `WellNested` is what is to be shown of a text.
* `Nested` is its counterpart for some lines of a block, which are put together from those of statements.
* `nested_linesOf`: the lines of any statements, by recursion over them.
* `Function.Tidy.wellNested`, `codec_wellNested`: functions in general, and readers and writers.
-/

namespace PackedRecord.C

open Stmt

/-! ## Texts -/

/-- How many blocks a text begins and does not end. -/
def openBlocks (text : List Char) : Nat :=
  text.count '\x7b' - text.count '\x7d'

def indentation (line : String) : Nat :=
  (line.toList.takeWhile (· = ' ')).length

/-- Whether the first thing in a line is the end of a block. -/
def endsBlock (line : String) : Bool :=
  (line.toList.dropWhile (· = ' ')).head? = some '\x7d'

/-- A text that is one block and what is in front of it, with every line indented as deep as it is nested. -/
structure WellNested (text : String) : Prop where
  /-- Up to any character, no more blocks have ended than have begun. -/
  ends_le : ∀ front back, text.toList = front ++ back → front.count '\x7d' ≤ front.count '\x7b'
  /-- Once a block has begun, all blocks have ended only behind the last line. -/
  ends_eq : ∀ front back, text.toList = front ++ back → '\x7b' ∈ front →
    (front.count '\x7d' = front.count '\x7b' ↔ back = ['\n'] ∨ back = [])
  last_line : ∃ lines, textLines text = lines ++ ["\x7d"]
  /-- Two blanks for each block that is open in front of a line, and that the line does not end at once. -/
  indentation_eq : ∀ front line back, textLines text = front ++ line :: back →
    indentation line =
      2 * (openBlocks (front.flatMap String.toList) - if endsBlock line then 1 else 0)

/-! ## Braces as Dyck words -/

def brace? (c : Char) : Option DyckStep :=
  if c = '\x7b' then some .U else if c = '\x7d' then some .D else none

def braces (text : List Char) : List DyckStep :=
  text.filterMap brace?

@[simp] theorem braces_append (a b : List Char) : braces (a ++ b) = braces a ++ braces b := by
  simp [braces]

theorem count_braces (text : List Char) :
    (braces text).count .U = text.count '\x7b' ∧ (braces text).count .D = text.count '\x7d' := by
  induction text with
  | nil => simp [braces]
  | cons c text inductionHypothesis =>
    by_cases starts : c = '\x7b'
    · simp_all [braces, brace?]
    · by_cases ends : c = '\x7d' <;> simp_all [braces, brace?]

theorem braces_eq_nil {text : List Char} (noStart : '\x7b' ∉ text) (noEnd : '\x7d' ∉ text) : braces text = [] := by
  rw [braces, List.filterMap_eq_nil_iff]
  intro c listed
  have notStart : c ≠ '\x7b' := fun same => noStart (same ▸ listed)
  have notEnd : c ≠ '\x7d' := fun same => noEnd (same ▸ listed)
  simp [brace?, notStart, notEnd]

theorem Unbroken.braces_eq {text : String} (unbroken : Unbroken text) : braces text.toList = [] :=
  braces_eq_nil unbroken.2.1 unbroken.2.2

@[simp] theorem braces_indented (level : Nat) (text : String) :
    braces (indented level text).toList = braces text.toList := by
  have blanks : braces (List.replicate (2 * level) ' ') = [] := braces_eq_nil (by simp) (by simp)
  simp [blanks]

/-- A prefix of a Dyck word has no more downs than ups, whatever stands between the braces. -/
theorem count_le_of_braces {text front back : List Char} {word : DyckWord}
    (spelled : braces text = word.toList) (split : text = front ++ back) :
    front.count '\x7d' ≤ front.count '\x7b' := by
  have taken : word.toList.take (braces front).length = braces front := by
    rw [← spelled, split, braces_append, List.take_left]
  have bound := word.count_D_le_count_U (braces front).length
  rwa [taken, (count_braces front).1, (count_braces front).2] at bound

/-- In a pair of braces around everything, all blocks have ended only when nothing is left of the braces. -/
theorem count_eq_iff_of_braces {text front back : List Char} {word : DyckWord}
    (spelled : braces text = word.nest.toList) (split : text = front ++ back) (started : '\x7b' ∈ front) :
    front.count '\x7d' = front.count '\x7b' ↔ braces back = [] := by
  have parts : word.nest.toList = braces front ++ braces back := by rw [← spelled, split, braces_append]
  have before : 0 < (braces front).count .U := by
    rw [(count_braces front).1]
    exact List.count_pos_iff.mpr started
  rw [← (count_braces front).1, ← (count_braces front).2]
  constructor
  · intro even
    by_contra more
    have inside := (DyckWord.IsNested.nest (p := word)).2 (Nat.lt_of_lt_of_le before List.count_le_length)
      (by simp [parts, List.length_pos_iff.mpr more])
    rw [parts, List.take_left, even] at inside
    exact Nat.lt_irrefl _ inside
  · intro spent
    rw [spent, List.append_nil] at parts
    rw [← parts, word.nest.count_U_eq_count_D]

/-! ## Indentation -/

/-- Lines inside a number of blocks, each indented as deep as it is nested. -/
def Indents (level : Nat) (lines : List String) : Prop :=
  ∀ front line back, lines = front ++ line :: back →
    indentation line =
      2 * (level + (front.flatMap String.toList).count '\x7b' - (front.flatMap String.toList).count '\x7d' -
        if endsBlock line then 1 else 0)

def Flush (text : String) : Prop :=
  text.toList.head?.any (· ≠ ' ') = true

instance (text : String) : Decidable (Flush text) :=
  inferInstanceAs (Decidable (_ = true))

theorem Flush.exists_cons {text : String} (flush : Flush text) :
    ∃ c rest, text.toList = c :: rest ∧ c ≠ ' ' := by
  rw [Flush] at flush
  cases spelled : text.toList with
  | nil => simp [spelled] at flush
  | cons c rest => exact ⟨c, rest, rfl, by simpa [spelled] using flush⟩

theorem Flush.append {a : String} (flush : Flush a) (b : String) : Flush (a ++ b) := by
  obtain ⟨c, rest, spelled, other⟩ := flush.exists_cons
  simp [Flush, spelled, other]

theorem indentation_indented (level : Nat) {text : String} (flush : Flush text) :
    indentation (indented level text) = 2 * level := by
  obtain ⟨c, rest, spelled, other⟩ := flush.exists_cons
  rw [indentation, toList_indented, spelled, List.takeWhile_append_of_pos (by simp)]
  simp [other]

theorem endsBlock_indented (level : Nat) {text : String} (flush : Flush text) :
    endsBlock (indented level text) = (text.toList.head? = some '\x7d' : Bool) := by
  obtain ⟨c, rest, spelled, other⟩ := flush.exists_cons
  rw [endsBlock, toList_indented, spelled, List.dropWhile_append_of_pos (by simp)]
  simp [other]

namespace Indents

variable {level : Nat}

theorem nil : Indents level [] := by
  intro front line back split
  simp at split

theorem append {lines more : List String} (first : Indents level lines)
    (even : (lines.flatMap String.toList).count '\x7b' = (lines.flatMap String.toList).count '\x7d')
    (second : Indents level more) : Indents level (lines ++ more) := by
  intro front line back split
  rcases split_append split with ⟨between, within, -⟩ | ⟨between, rfl, behind⟩
  · exact first front line between within
  · rw [second between line back behind, List.flatMap_append, List.count_append, List.count_append]
    congr 2
    omega

theorem single {line : String} (shown : indentation line = 2 * (level - if endsBlock line then 1 else 0)) :
    Indents level [line] := by
  intro front other back split
  obtain ⟨rfl, rfl⟩ : front = [] ∧ other = line := by
    cases front <;> simp_all
  simpa using shown

/-- Behind the beginning of a block all lines are one block deeper. -/
theorem cons {line : String} {lines : List String}
    (shown : indentation line = 2 * (level - if endsBlock line then 1 else 0))
    (starts : line.toList.count '\x7b' = 1) (unended : line.toList.count '\x7d' = 0)
    (rest : Indents (level + 1) lines) : Indents level (line :: lines) := by
  intro front other back split
  cases front with
  | nil =>
    obtain ⟨rfl, -⟩ := List.cons.inj split
    simpa using shown
  | cons first front =>
    obtain ⟨rfl, behind⟩ := List.cons.inj split
    rw [rest front other back behind, List.flatMap_cons, List.count_append, List.count_append, starts, unended]
    congr 2
    omega

end Indents

/-! ## Lines of a block -/

/-- A text that can be a line inside a block: in one piece, without braces and without a blank in front. -/
def Tidy (text : String) : Prop :=
  Unbroken text ∧ Flush text

instance (text : String) : Decidable (Tidy text) :=
  inferInstanceAs (Decidable (_ ∧ _))

theorem Tidy.append {a b : String} (tidy : Tidy a) (unbroken : Unbroken b) : Tidy (a ++ b) :=
  ⟨tidy.1.append unbroken, tidy.2.append b⟩

/-- A text that can be the line with which a block begins. -/
structure Starts (text : String) : Prop where
  flush : Flush text
  braces_eq : braces text.toList = [.U]
  unbroken : '\n' ∉ text.toList

theorem Tidy.starts {a b : String} (tidy : Tidy a) (tail : braces b.toList = [.U]) (unbroken : '\n' ∉ b.toList) :
    Starts (a ++ b) := by
  refine ⟨tidy.2.append b, ?_, ?_⟩
  · rw [String.toList_append, braces_append, tidy.1.braces_eq, tail, List.nil_append]
  · simp [tidy.1.1, unbroken]

theorem Starts.endsBlock_eq {text : String} (starts : Starts text) (level : Nat) :
    endsBlock (indented level text) = false := by
  rw [endsBlock_indented level starts.flush]
  obtain ⟨c, rest, spelled, -⟩ := starts.flush.exists_cons
  have first := starts.braces_eq
  simp only [spelled, List.head?_cons, Option.some.injEq, decide_eq_false_iff_not]
  rintro rfl
  simp [spelled, braces, brace?] at first

/-- Lines of statements in a number of blocks, all of which stay open. -/
structure Nested (level : Nat) (lines : List String) : Prop where
  balanced : ∃ word : DyckWord, braces (lines.flatMap String.toList) = word.toList
  indents : Indents level lines
  unbroken : ∀ line ∈ lines, '\n' ∉ line.toList
  deep : ∀ line ∈ lines, List.replicate (2 * level) ' ' <+: line.toList

namespace Nested

variable {level : Nat} {lines more : List String}

theorem even (nested : Nested level lines) :
    (lines.flatMap String.toList).count '\x7b' = (lines.flatMap String.toList).count '\x7d' := by
  obtain ⟨word, spelled⟩ := nested.balanced
  have counts := word.count_U_eq_count_D
  rwa [← spelled, (count_braces _).1, (count_braces _).2] at counts

theorem nil : Nested level [] :=
  ⟨⟨0, rfl⟩, .nil, by simp, by simp⟩

theorem append (first : Nested level lines) (second : Nested level more) : Nested level (lines ++ more) := by
  obtain ⟨word, spelled⟩ := first.balanced
  obtain ⟨word', spelled'⟩ := second.balanced
  refine ⟨⟨word + word', ?_⟩, first.indents.append first.even second.indents, ?_, ?_⟩
  · rw [List.flatMap_append, braces_append, spelled, spelled']
    rfl
  · exact List.forall_mem_append.mpr ⟨first.unbroken, second.unbroken⟩
  · exact List.forall_mem_append.mpr ⟨first.deep, second.deep⟩

theorem plain (level : Nat) {text : String} (tidy : Tidy text) : Nested level [indented level text] := by
  obtain ⟨unbroken, flush⟩ := tidy
  have ends : endsBlock (indented level text) = false := by
    rw [endsBlock_indented level flush, decide_eq_false_iff_not]
    exact fun first => unbroken.2.2 (List.mem_of_mem_head? first)
  refine ⟨⟨0, ?_⟩, .single ?_, by simp [unbroken.1], by simp⟩
  · simp only [List.flatMap_cons, List.flatMap_nil, List.append_nil, braces_indented, unbroken.braces_eq]
    rfl
  · simp [indentation_indented level flush, ends]

end Nested

/-! ## Blocks -/

theorem indents_of_end (level : Nat) {text : String} (ends : text.toList.head? = some '\x7d') :
    Indents (level + 1) [indented level text] := by
  have flush : Flush text := by simp [Flush, ends]
  apply Indents.single
  simp [indentation_indented level flush, endsBlock_indented level flush, ends]

/-- The lines behind the beginning of a block, with the end of the block. -/
structure Closing (level : Nat) (lines : List String) : Prop where
  balanced : ∃ word : DyckWord, .U :: braces (lines.flatMap String.toList) = word.toList
  indents : Indents (level + 1) lines
  unbroken : ∀ line ∈ lines, '\n' ∉ line.toList
  deep : ∀ line ∈ lines, List.replicate (2 * level) ' ' <+: line.toList

section

variable {level : Nat} {inside : List String} (nested : Nested (level + 1) inside)

include nested

theorem Nested.outer : ∀ line ∈ inside, List.replicate (2 * level) ' ' <+: line.toList := by
  intro line listed
  refine List.IsPrefix.trans ?_ (nested.deep line listed)
  exact ⟨List.replicate 2 ' ', List.replicate_append_replicate⟩

theorem Closing.last : Closing level (inside ++ [indented level "\x7d"]) := by
  obtain ⟨word, spelled⟩ := nested.balanced
  have brace : braces "\x7d".toList = [.D] := by decide
  refine ⟨⟨word.nest, ?_⟩, nested.indents.append nested.even (indents_of_end level (by decide)), ?_, ?_⟩
  · simp only [List.flatMap_append, List.flatMap_cons, List.flatMap_nil, List.append_nil, braces_append, spelled,
      braces_indented, brace]
    rfl
  · exact List.forall_mem_append.mpr ⟨nested.unbroken, by simp⟩
  · exact List.forall_mem_append.mpr ⟨nested.outer, by simp⟩

theorem Closing.middle {lines : List String} (closing : Closing level lines) :
    Closing level (inside ++ indented level "\x7d else \x7b" :: lines) := by
  obtain ⟨word, spelled⟩ := nested.balanced
  obtain ⟨word', spelled'⟩ := closing.balanced
  have brace : braces "\x7d else \x7b".toList = [.D, .U] := by decide
  have even : ([indented level "\x7d else \x7b"].flatMap String.toList).count '\x7b' =
      ([indented level "\x7d else \x7b"].flatMap String.toList).count '\x7d' := by
    simp [List.count_replicate]
  refine ⟨⟨word.nest + word', ?_⟩, ?_, ?_, ?_⟩
  · rw [List.flatMap_append, List.flatMap_cons, braces_append, braces_append, spelled, braces_indented, brace]
    show _ = word.nest.toList ++ word'.toList
    rw [← spelled']
    simp [DyckWord.nest]
  · exact nested.indents.append nested.even ((indents_of_end level (by decide)).append even closing.indents)
  · exact List.forall_mem_append.mpr ⟨nested.unbroken, List.forall_mem_cons.mpr ⟨by simp, closing.unbroken⟩⟩
  · exact List.forall_mem_append.mpr ⟨nested.outer, List.forall_mem_cons.mpr ⟨by simp, closing.deep⟩⟩

end

theorem Closing.opened {level : Nat} {lines : List String} (closing : Closing level lines) {text : String}
    (starts : Starts text) : Nested level (indented level text :: lines) := by
  obtain ⟨word, spelled⟩ := closing.balanced
  have counts := count_braces (indented level text).toList
  rw [braces_indented, starts.braces_eq] at counts
  refine ⟨⟨word, ?_⟩, .cons ?_ counts.1.symm counts.2.symm closing.indents, ?_, ?_⟩
  · rw [List.flatMap_cons, braces_append, braces_indented, starts.braces_eq, ← spelled]
    rfl
  · simp [indentation_indented level starts.flush, starts.endsBlock_eq]
  · exact List.forall_mem_cons.mpr ⟨by simp [starts.unbroken], closing.unbroken⟩
  · exact List.forall_mem_cons.mpr ⟨by simp, closing.deep⟩

/-! ## Statements -/

def Expr.texts : Expr → List String
  | load x | textLength x | isNull x | isNotNull x => [x.text]
  | cast _ e | not e => e.texts
  | add a b | sub a b | less a b | greater a b | differs a b => a.texts ++ b.texts
  | literal _ | hexLiteral _ | length | var _ => []

def Memory.texts : Memory → List String
  | object x | pointee x => [x.text]

namespace Stmt

mutual

/-- The lvalues and names that a statement is written with, as texts. -/
def texts : Stmt → List String
  | declare _ | exit _ => []
  | define _ e | increase _ e | exitIf e _ => e.texts
  | assign x e | allocate x e => x.text :: e.texts
  | assignNull x | terminate x _ | free x => [x.text]
  | copy _ memory position count => memory.texts ++ position.texts ++ count.texts
  | discard name => [name]
  | forward callee arguments => callee :: arguments
  | block body | loop _ body => textsIn body
  | ifThen test body => test.texts ++ textsIn body
  | ifElse test body other => test.texts ++ textsIn body ++ textsIn other

def textsIn : List Stmt → List String
  | [] => []
  | stmt :: rest => stmt.texts ++ textsIn rest

end

end Stmt

/-! ### Expressions -/

theorem exists_digit_of_mem (n : Nat) : ∀ c ∈ Nat.toDigits 16 n, ∃ digit < 16, c = digit.digitChar := by
  induction n using Nat.strongRecOn with
  | ind n inductionHypothesis =>
    intro c listed
    rw [Nat.toDigits_eq_if (by decide)] at listed
    split at listed
    · rename_i small
      exact ⟨n, small, List.mem_singleton.mp listed⟩
    · rcases List.mem_append.mp listed with listed | listed
      · exact inductionHypothesis (n / 16) (by omega) c listed
      · exact ⟨n % 16, by omega, List.mem_singleton.mp listed⟩

theorem unbroken_hexLiteral (n : Nat) : Unbroken (Expr.hexLiteral n).text := by
  have digits : ∀ digit < 16, digit.digitChar.toUpper ∉ ['\n', '\x7b', '\x7d'] := by decide
  have outside : ∀ c ∈ ['\n', '\x7b', '\x7d'], c ∉ (String.ofList (Nat.toDigits 16 n)).toUpper.toList := by
    intro c among listed
    rw [String.toUpper, String.toList_map, String.toList_ofList, List.mem_map] at listed
    obtain ⟨d, listed, rfl⟩ := listed
    obtain ⟨digit, small, rfl⟩ := exists_digit_of_mem n d listed
    exact digits digit small among
  have middle : Unbroken (String.ofList (Nat.toDigits 16 n)).toUpper :=
    ⟨outside _ (by decide), outside _ (by decide), outside _ (by decide)⟩
  exact (Unbroken.append (by decide) middle).append (by decide)

theorem unbroken_varName (v : Var) : Unbroken v.name := by
  cases v <;> decide

theorem unbroken_varType (v : Var) : Unbroken v.type := by
  cases v <;> decide

theorem Expr.unbroken (e : Expr) (each : ∀ text ∈ e.texts, Tidy text) : Unbroken e.text := by
  induction e with
  | literal n => exact unbroken_toString n
  | hexLiteral n => exact unbroken_hexLiteral n
  | length => decide
  | var v => exact unbroken_varName v
  | load x => exact (each x.text (by simp [texts])).1
  | cast v e inductionHypothesis =>
    exact ((Unbroken.append (by decide) (unbroken_varType v)).append (by decide)).append
      (inductionHypothesis each)
  | textLength x => exact (Unbroken.append (by decide) (each x.text (by simp [texts])).1).append (by decide)
  | not e inductionHypothesis => exact Unbroken.append (by decide) (inductionHypothesis each)
  | isNull x => exact (each x.text (by simp [texts])).1.append (by decide)
  | isNotNull x => exact (each x.text (by simp [texts])).1.append (by decide)
  | add a b first second | sub a b first second | less a b first second | greater a b first second
  | differs a b first second =>
    obtain ⟨left, right⟩ := List.forall_mem_append.mp each
    exact ((first left).append (by decide)).append (second right)

theorem Memory.unbroken (memory : Memory) (each : ∀ text ∈ memory.texts, Tidy text) : Unbroken memory.text := by
  cases memory with
  | object x => exact Unbroken.append (by decide) (each x.text (by simp [texts])).1
  | pointee x => exact (each x.text (by simp [texts])).1

theorem tidy_copyText (direction : Direction) {memory position width : String} (inMemory : Unbroken memory)
    (inPosition : Unbroken position) (inWidth : Unbroken width) :
    Tidy (copyText direction memory position width) := by
  have buffer : Unbroken ("buffer + " ++ position) := Unbroken.append (by decide) inPosition
  have call : Tidy "alon_memcpy(" := by decide
  unfold copyText
  cases direction with
  | read => exact ((((call.append inMemory).append (by decide)).append buffer).append (by decide)).append inWidth
      |>.append (by decide)
  | write => exact ((((call.append buffer).append (by decide)).append inMemory).append (by decide)).append inWidth
      |>.append (by decide)

theorem Unbroken.intercalate {separator : String} (between : Unbroken separator) {parts : List String}
    (each : ∀ part ∈ parts, Unbroken part) : Unbroken (separator.intercalate parts) := by
  induction parts with
  | nil => simp [Unbroken]
  | cons part rest inductionHypothesis =>
    obtain ⟨first, others⟩ := List.forall_mem_cons.mp each
    cases rest with
    | nil => simpa using first
    | cons next rest =>
      rw [String.intercalate_cons_cons]
      exact (first.append between).append (inductionHypothesis others)

theorem unbroken_macroName (status : Status) : Unbroken status.macroName := by
  cases status with
  | ok => decide
  | fault f => cases f <;> decide

mutual

/-- The lines of a statement are nested, by recursion over it. -/
theorem nested_lines (level : Nat) : (stmt : Stmt) → (∀ text ∈ stmt.texts, Tidy text) →
    Nested level (stmt.lines level)
  | .declare v, _ => by
    have type : Tidy v.type := by cases v <;> decide
    exact .plain level (((type.append (by decide)).append (unbroken_varName v)).append (by decide))
  | .define v e, each => by
    have type : Tidy v.type := by cases v <;> decide
    exact .plain level (((((type.append (by decide)).append (unbroken_varName v)).append (by decide)).append
      (e.unbroken each)).append (by decide))
  | .assign x e, each => by
    obtain ⟨target, inside⟩ := List.forall_mem_cons.mp each
    exact .plain level (((target.append (by decide)).append (e.unbroken inside)).append (by decide))
  | .assignNull x, each => .plain level ((each x.text (by simp [texts])).append (by decide))
  | .allocate x size, each => by
    obtain ⟨target, inside⟩ := List.forall_mem_cons.mp each
    exact .plain level (((target.append (by decide)).append (size.unbroken inside)).append (by decide))
  | .terminate x position, each => by
    have target : Tidy x.text := each x.text (by simp [texts])
    exact .plain level (((target.append (by decide)).append (unbroken_varName position)).append (by decide))
  | .increase v e, each => by
    have name : Tidy v.name := by cases v <;> decide
    exact .plain level (((name.append (by decide)).append (e.unbroken each)).append (by decide))
  | .copy direction memory position count, each => by
    obtain ⟨front, inCount⟩ := List.forall_mem_append.mp each
    obtain ⟨inMemory, inPosition⟩ := List.forall_mem_append.mp front
    rw [lines_copy]
    exact .plain level (tidy_copyText direction (memory.unbroken inMemory) (position.unbroken inPosition)
      (count.unbroken inCount))
  | .free x, each => by
    have call : Tidy "alon_free(" := by decide
    exact .plain level ((call.append (each x.text (by simp [texts])).1).append (by decide))
  | .discard name, each => by
    have cast : Tidy "(void)" := by decide
    exact .plain level ((cast.append (each name (by simp [texts])).1).append (by decide))
  | .exitIf test status, each => by
    have keyword : Tidy "if (" := by decide
    exact .plain level ((((keyword.append (test.unbroken each)).append (by decide)).append
      (unbroken_macroName status)).append (by decide))
  | .exit status, _ => by
    have keyword : Tidy "return " := by decide
    exact .plain level ((keyword.append (unbroken_macroName status)).append (by decide))
  | .forward callee arguments, each => by
    obtain ⟨called, given⟩ := List.forall_mem_cons.mp each
    have keyword : Tidy "return " := by decide
    have listed : Unbroken (", ".intercalate arguments) :=
      Unbroken.intercalate (by decide) fun argument among => (given argument among).1
    exact .plain level ((((keyword.append called.1).append (by decide)).append listed).append (by decide))
  | .block body, each =>
    (Closing.last (nested_linesOf (level + 1) body each)).opened ⟨by decide, by decide, by decide⟩
  | .loop count body, each => by
    have keyword : Tidy "for (uint64_t i = 0; i < " := by decide
    have head := (keyword.append (unbroken_toString count)).starts (b := "; i++) \x7b") (by decide) (by decide)
    exact (Closing.last (nested_linesOf (level + 1) body each)).opened head
  | .ifThen test body, each => by
    obtain ⟨inTest, inside⟩ := List.forall_mem_append.mp each
    have keyword : Tidy "if (" := by decide
    have head := (keyword.append (test.unbroken inTest)).starts (b := ") \x7b") (by decide) (by decide)
    exact (Closing.last (nested_linesOf (level + 1) body inside)).opened head
  | .ifElse test body other, each => by
    obtain ⟨front, inOther⟩ := List.forall_mem_append.mp each
    obtain ⟨inTest, inside⟩ := List.forall_mem_append.mp front
    have keyword : Tidy "if (" := by decide
    have head := (keyword.append (test.unbroken inTest)).starts (b := ") \x7b") (by decide) (by decide)
    exact (Closing.middle (nested_linesOf (level + 1) body inside)
      (Closing.last (nested_linesOf (level + 1) other inOther))).opened head

theorem nested_linesOf (level : Nat) : (stmts : List Stmt) → (∀ text ∈ textsIn stmts, Tidy text) →
    Nested level (linesOf level stmts)
  | [], _ => .nil
  | stmt :: rest, each => by
    obtain ⟨first, others⟩ := List.forall_mem_append.mp each
    exact (nested_lines level stmt first).append (nested_linesOf level rest others)

end

/-! ## Functions -/

/-- A function whose names and lvalues have no braces and no line feeds. -/
structure Function.Tidy (f : Function) : Prop where
  head : C.Tidy f.signature.text
  body : ∀ text ∈ textsIn f.body, C.Tidy text

theorem toList_ended {lines : List String} (nonempty : lines ≠ []) :
    ("\n".intercalate lines ++ "\n").toList = lines.flatMap fun line => line.toList ++ ['\n'] := by
  induction lines with
  | nil => exact absurd rfl nonempty
  | cons line rest inductionHypothesis =>
    cases rest with
    | nil => simp
    | cons next rest =>
      have others := inductionHypothesis (by simp)
      rw [String.intercalate_cons_cons, String.append_assoc, String.toList_append, others]
      simp

theorem braces_ended (lines : List String) :
    braces (lines.flatMap fun line => line.toList ++ ['\n']) = braces (lines.flatMap String.toList) := by
  have feed : braces ['\n'] = [] := by decide
  induction lines with
  | nil => rfl
  | cons line rest inductionHypothesis =>
    rw [List.flatMap_cons, List.flatMap_cons, braces_append, braces_append, braces_append, feed,
      inductionHypothesis, List.append_nil]

/-- What is left of a text behind the last but one of its characters. -/
theorem rest_of_last {front back start : List Char} {c last : Char}
    (split : front ++ back = start ++ [c, last]) (outside : c ∉ back) : back = [last] ∨ back = [] := by
  rcases List.append_eq_append_iff.mp split with ⟨between, -, same⟩ | ⟨between, -, same⟩
  · simp [same] at outside
  · rcases between with _ | ⟨first, _ | ⟨second, between⟩⟩
    · simp [← show [c, last] = back from same] at outside
    · exact .inl (List.cons.inj same).2.symm
    · have nothing : [] = between ++ back := (List.cons.inj (List.cons.inj same).2).2
      exact .inr (List.append_eq_nil_iff.mp nothing.symm).2

namespace Function.Tidy

variable {f : Function}

theorem nested (tidy : f.Tidy) : Nested 0 f.lines := by
  have head := tidy.head.starts (b := " \x7b") (by decide) (by decide)
  have inside := Closing.last (nested_linesOf 1 f.body tidy.body)
  simpa only [indented_zero, Function.lines] using inside.opened head

theorem textLines_eq (tidy : f.Tidy) : textLines f.text = f.lines :=
  textLines_text tidy.nested.unbroken

/-- The braces of a function are those of its body, with a pair around them. -/
theorem exists_braces_eq (tidy : f.Tidy) : ∃ word : DyckWord, braces f.text.toList = word.nest.toList := by
  obtain ⟨word, spelled⟩ := (nested_linesOf 1 f.body tidy.body).balanced
  have first : braces " \x7b".toList = [.U] := by decide
  have last : braces "\x7d".toList = [.D] := by decide
  refine ⟨word, ?_⟩
  rw [text, toList_ended (by simp [Function.lines]), braces_ended, Function.lines]
  simp only [List.flatMap_cons, List.flatMap_append, List.flatMap_nil, List.append_nil, String.toList_append,
    braces_append, tidy.head.1.braces_eq, first, last, spelled]
  rfl

theorem wellNested (tidy : f.Tidy) : WellNested f.text := by
  obtain ⟨word, spelled⟩ := tidy.exists_braces_eq
  obtain ⟨start, whole⟩ : ∃ start, f.text.toList = start ++ ['\x7d', '\n'] := by
    rw [text, toList_ended (by simp [Function.lines]), Function.lines]
    exact ⟨_, by rw [← List.cons_append, List.flatMap_append]; rfl⟩
  refine ⟨fun front back split => count_le_of_braces spelled split, fun front back split started => ?_, ?_, ?_⟩
  · rw [count_eq_iff_of_braces spelled split started]
    constructor
    · intro spent
      have ended : '\x7d' ∉ back := by
        rw [← List.count_eq_zero, ← (count_braces back).2, spent]
        rfl
      exact rest_of_last (split.symm.trans whole) ended
    · rintro (rfl | rfl)
      · decide
      · rfl
  · rw [tidy.textLines_eq, Function.lines]
    exact ⟨_, (List.cons_append ..).symm⟩
  · intro front line back split
    rw [tidy.textLines_eq] at split
    simpa [openBlocks] using tidy.nested.indents front line back split

end Function.Tidy

/-! ## Readers and writers -/

theorem flush_of_isIdentifier {name : String} (identifier : isIdentifier name = true) : Flush name := by
  cases spelled : name.toList with
  | nil => exact absurd spelled (toList_ne_nil_of_isIdentifier identifier)
  | cons c rest =>
    have other : c ≠ ' ' := by
      rintro rfl
      exact notMem_of_isIdentifier identifier rfl (by simp [spelled] : ' ' ∈ name.toList)
    simp [Flush, spelled, other]

theorem tidy_of_isIdentifier {name : String} (identifier : isIdentifier name = true) : Tidy name :=
  ⟨⟨notMem_of_isIdentifier identifier rfl, notMem_of_isIdentifier identifier rfl,
    notMem_of_isIdentifier identifier rfl⟩, flush_of_isIdentifier identifier⟩

theorem tidy_field {place : Place} (named : place.Named) : Tidy (Lvalue.field place).text := by
  refine ⟨⟨Place.notMem_text named rfl (by decide), Place.notMem_text named rfl (by decide),
    Place.notMem_text named rfl (by decide)⟩, ?_⟩
  obtain ⟨c, rest, spelled, other⟩ := (flush_of_isIdentifier named.1).exists_cons
  simp [Flush, Lvalue.text, Place.toList_text, spelled, other]

theorem tidy_item {place : Place} (named : place.Named) (index : Subscript) :
    Tidy (Lvalue.item place index).text := by
  have inside : Unbroken index.text := by
    cases index with
    | counter => decide
    | literal n => exact unbroken_toString n
  exact (((tidy_field named).append (by decide)).append inside).append (by decide)

theorem textsIn_append (stmts rest : List Stmt) : textsIn (stmts ++ rest) = textsIn stmts ++ textsIn rest := by
  induction stmts with
  | nil => rfl
  | cons stmt stmts inductionHypothesis =>
    rw [List.cons_append, textsIn, textsIn, inductionHypothesis, List.append_assoc]

theorem tidy_moveFixed (direction : Direction) {x : Lvalue} (tidy : Tidy x.text) (width : Nat) (access : Access) :
    ∀ text ∈ textsIn (moveFixed direction x width access), Tidy text := by
  cases access <;> simp [moveFixed, guardRoom, textsIn, texts, Expr.texts, Memory.texts, tidy]

theorem tidy_moveText (direction : Direction) {x : Lvalue} (tidy : Tidy x.text) :
    ∀ text ∈ textsIn (moveText direction x), Tidy text := by
  have len : Tidy (Lvalue.var .len).text := by decide
  have moved := tidy_moveFixed direction len lengthWidth .cursor
  cases direction with
  | read =>
    simp only [moveText, textsIn_append, List.forall_mem_append]
    refine ⟨⟨?_, moved⟩, ?_⟩ <;> simp [guardRoom, textsIn, texts, Expr.texts, Memory.texts, tidy]
  | write =>
    simp only [moveText, textsIn_append, List.forall_mem_append]
    refine ⟨⟨?_, moved⟩, ?_⟩ <;> simp [guardRoom, textsIn, texts, Expr.texts, Memory.texts, tidy]

theorem tidy_moveOptional (direction : Direction) {present : Expr} {absent : Stmt} {body : List Stmt}
    (inTest : ∀ text ∈ present.texts, Tidy text) (inAbsent : ∀ text ∈ absent.texts, Tidy text)
    (inBody : ∀ text ∈ textsIn body, Tidy text) :
    ∀ text ∈ textsIn [moveOptional direction present absent body], Tidy text := by
  have flag : Tidy (Lvalue.var .flag).text := by decide
  have moved := tidy_moveFixed direction flag flagWidth .cursor
  cases direction with
  | read =>
    simp only [moveOptional, textsIn, texts, textsIn_append, List.forall_mem_append]
    simpa [Expr.texts] using ⟨moved, inAbsent, inBody⟩
  | write =>
    simp only [moveOptional, textsIn, texts, textsIn_append, List.forall_mem_append]
    simpa [Expr.texts, and_assoc] using ⟨inTest, moved, inBody⟩

theorem tidy_moveField (direction : Direction) {place : Place} (named : place.Named) (transfer : Transfer) :
    ∀ text ∈ textsIn (moveField direction place transfer), Tidy text := by
  have field := tidy_field named
  cases transfer with
  | scalar kind access => exact tidy_moveFixed direction field kind.width access
  | block ty length access => exact tidy_moveFixed direction field length access
  | text => simpa [moveField, textsIn, texts] using tidy_moveText direction field
  | texts count => simpa [moveField, textsIn, texts] using tidy_moveText direction (tidy_item named .counter)
  | optionalText =>
    exact tidy_moveOptional direction (by simp [Expr.texts, field]) (by simp [texts, field])
      (tidy_moveText direction field)
  | optionalScalar kind =>
    have presence : isIdentifier presenceMember = true := by decide
    have value : isIdentifier valueMember = true := by decide
    have flag := tidy_field (named.member presence)
    have moved := tidy_moveFixed direction (tidy_field (named.member value)) kind.width .cursor
    refine tidy_moveOptional direction (by simp [Expr.texts, flag]) (by simp [texts, Expr.texts, flag]) ?_
    rw [textsIn_append]
    refine List.forall_mem_append.mpr ⟨moved, ?_⟩
    cases direction <;> simp [textsIn, texts, Expr.texts, flag]

theorem tidy_steps (direction : Direction) {steps : List Step}
    (named : ∀ step ∈ steps, ∀ place, step.place? = some place → place.Named) :
    ∀ text ∈ textsIn (steps.flatMap (stepStmts direction)), Tidy text := by
  induction steps with
  | nil => simp [textsIn]
  | cons step steps inductionHypothesis =>
    obtain ⟨first, others⟩ := List.forall_mem_cons.mp named
    rw [List.flatMap_cons, textsIn_append]
    refine List.forall_mem_append.mpr ⟨?_, inductionHypothesis others⟩
    cases step with
    | seedCursor offset => simp [stepStmts, textsIn, texts, Expr.texts]
    | move place transfer => exact tidy_moveField direction (first place rfl) transfer

theorem tidy_planStmts (direction : Direction) {plan : Plan}
    (named : ∀ step ∈ plan.steps, ∀ place, step.place? = some place → place.Named) :
    ∀ text ∈ textsIn (planStmts direction plan), Tidy text := by
  rw [planStmts, textsIn_append, textsIn_append]
  refine List.forall_mem_append.mpr ⟨List.forall_mem_append.mpr ⟨?_, tidy_steps direction named⟩, ?_⟩
  · split <;> simp [textsIn, texts, Expr.texts]
  · simp [textsIn, texts]

theorem tidy_signature {signature : Signature} (result : Tidy signature.result) (name : Unbroken signature.name)
    (parameters : ∀ parameter ∈ signature.parameters, Unbroken parameter) : Tidy signature.text :=
  ((((result.append (by decide)).append name).append (by decide)).append
    (Unbroken.intercalate (by decide) parameters)).append (by decide)

theorem unbroken_record {symbol : String} (identifier : isIdentifier symbol = true) :
    Unbroken ("struct " ++ symbol ++ " *") :=
  (Unbroken.append (by decide) (tidy_of_isIdentifier identifier).1).append (by decide)

theorem tidy_codec {symbol : String} (identifier : isIdentifier symbol = true) {plan : Plan}
    (named : ∀ step ∈ plan.steps, ∀ place, step.place? = some place → place.Named) (direction : Direction) :
    (codec symbol plan direction).Tidy := by
  have unbroken := (tidy_of_isIdentifier identifier).1
  have record := unbroken_record identifier
  cases direction with
  | read =>
    refine ⟨tidy_signature (by decide : Tidy "int") (unbroken.append (by decide)) ?_, tidy_planStmts .read named⟩
    have out : Unbroken ("struct " ++ symbol ++ " *" ++ readerBase) := record.append (by decide)
    exact List.forall_mem_cons.mpr
      ⟨by decide, List.forall_mem_cons.mpr ⟨by decide, List.forall_mem_singleton.mpr out⟩⟩
  | write =>
    refine ⟨tidy_signature (by decide : Tidy "int") (unbroken.append (by decide)) ?_, tidy_planStmts .write named⟩
    have taken : Unbroken ("const struct " ++ symbol ++ " *" ++ writerBase) :=
      ((Unbroken.append (by decide) unbroken).append (by decide)).append (by decide)
    exact List.forall_mem_cons.mpr ⟨taken, by decide⟩

/-- Readers and writers are well nested, whatever the names and types of their fields. -/
theorem codec_wellNested {fields : List Field} {base symbol : String} {plan : Plan}
    (built : Plan.build fields base = .ok plan) (baseIdentifier : isIdentifier base = true)
    (symbolIdentifier : isIdentifier symbol = true)
    (identified : (FieldType.struct fields).EveryScope Identified) (direction : Direction) :
    WellNested (codec symbol plan direction).text :=
  (tidy_codec symbolIdentifier
    (fun _ listed _ placed => Plan.named_of_build built baseIdentifier identified listed placed)
    direction).wellNested

/-- The functions of a record with a loop, and with branches inside the blocks of flags. -/
theorem codec_wellNested_branches :
    let fields : List Field := [("id", .scalar .u16), ("inner", .struct [("tags", .array .text 2)]),
      ("note", .option .text), ("size", .option (.scalar .u32))]
    ∃ plan, Plan.build fields "out" = .ok plan ∧
      WellNested (reader "alon_t" plan).text ∧ WellNested (writer "alon_t" plan).text := by
  intro fields
  obtain ⟨plan, built⟩ : ∃ plan, Plan.build fields "out" = .ok plan := ⟨_, rfl⟩
  have symbolIdentifier : isIdentifier "alon_t" = true := by decide
  have nested := codec_wellNested built (by decide) symbolIdentifier (by decide)
  exact ⟨plan, built, nested .read, nested .write⟩

end PackedRecord.C
