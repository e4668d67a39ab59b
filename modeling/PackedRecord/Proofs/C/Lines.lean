import PackedRecord.C.Codec
import PackedRecord.Proofs.Plan.Places

/-!
# The lines of generated functions

Readers and writers as text, line by line.  All bytes at the cursor are moved by accesses: a guard, a copy
and an advance of the cursor.  Between these stand the lines that get memory for a text, take its length
or open a block, and only they differ between a reader and a writer, apart from which way a copy goes.

* `accessLines` is an access, and `linesOf_moveFixed_cursor`, `linesOf_moveText` and `linesOf_moveOptional`
  say where a field has them.
* `textLines_text`: with identifiers for names, the lines of a function can be read off its text.
-/

namespace PackedRecord.C

open Stmt

/-! ## Texts -/

/-- The lines of a text, each of which ends with a line feed. -/
def textLines (text : String) : List String :=
  ((text.toList.splitOn '\n').map String.ofList).dropLast

def Direction.sides (memory buffer : String) : Direction → String × String
  | .read => (memory, buffer)
  | .write => (buffer, memory)

/-- A copy between memory and a position of the buffer. -/
def copyText (direction : Direction) (memory position width : String) : String :=
  let sides := direction.sides memory ("buffer + " ++ position)
  "alon_memcpy(" ++ sides.1 ++ ", " ++ sides.2 ++ ", " ++ width ++ ");"

def checkText (size : Nat) : String :=
  "if (length < " ++ toString size ++ ") return ALON_ERR_BUFFER_TOO_SHORT;"

def seedText (offset : Nat) : String :=
  "uint64_t offset = " ++ toString offset ++ ";"

def guardText (width : String) : String :=
  "if (length - offset < " ++ width ++ ") return ALON_ERR_BUFFER_TOO_SHORT;"

def advanceText (width : String) : String :=
  "offset += " ++ width ++ ";"

inductive Width where
  | literal (n : Nat)
  | len

def Width.text : Width → String
  | literal n => toString n
  | len => "len"

/-- A guarded copy at the cursor, with more lines on either side of the copy. -/
def accessLines (direction : Direction) (memory : Memory) (width : Width) (before after : List String) :
    List String :=
  guardText width.text ::
    (before ++ copyText direction memory.text "offset" width.text :: (after ++ [advanceText width.text]))

def loopText (count : Nat) : String :=
  "for (uint64_t i = 0; i < " ++ toString count ++ "; i++) \x7b"

/-! What stands around the accesses of a field, in either direction.  A writer takes the length of a text
before it writes it, and a reader allocates between the guard of a text and the copy. -/

def lengthSetup (x : String) : Direction → List String
  | .read => ["uint32_t len;"]
  | .write => [
    "uint64_t size = (uint64_t)alon_strlen(" ++ x ++ ");",
    "if (size > 0xFFFFFFFFu) return ALON_ERR_BUFFER_TOO_SHORT;",
    "uint32_t len = (uint32_t)size;"]

def payloadSetup (x : String) : Direction → List String
  | .read => [
    x ++ " = alon_alloc((uint64_t)len + 1);",
    "if (" ++ x ++ " == NULL) return ALON_ERR_ALLOC;"]
  | .write => []

def payloadEnd (x : String) : Direction → List String
  | .read => [x ++ "[len] = '\\0';"]
  | .write => []

def flagSetup (present : String) : Direction → List String
  | .read => ["uint8_t flag;"]
  | .write => ["uint8_t flag = " ++ present ++ ";"]

def branchLines (level : Nat) (absent : String) : Direction → List String
  | .read => [indented level "if (!flag) \x7b", indented (level + 1) absent, indented level "\x7d else \x7b"]
  | .write => [indented level "if (flag) \x7b"]

def movedText (direction : Direction) (x : Lvalue) : List String :=
  lengthSetup x.text direction ++ accessLines direction (.object (.var .len)) (.literal lengthWidth) [] [] ++
    accessLines direction (.pointee x) .len (payloadSetup x.text direction) (payloadEnd x.text direction)

theorem split_append {α : Type} {list more front back : List α} {a : α}
    (split : list ++ more = front ++ a :: back) :
    (∃ between, list = front ++ a :: between ∧ back = between ++ more) ∨
      ∃ between, front = list ++ between ∧ more = between ++ a :: back := by
  rcases List.append_eq_append_iff.mp split with ⟨between, first, second⟩ | ⟨between, first, second⟩
  · exact .inr ⟨between, first, second⟩
  · cases between with
    | nil => exact .inr ⟨[], by simpa using first.symm, by simpa using second.symm⟩
    | cons b between =>
      obtain ⟨rfl, rest⟩ := List.cons.inj second
      exact .inl ⟨between, first, rest⟩

/-! ## Statements -/

theorem eq_of_toList {lines lines' : List String}
    (same : lines.map String.toList = lines'.map String.toList) : lines = lines' :=
  List.map_injective_iff.mpr (fun _ _ => String.toList_injective) same

@[simp] theorem toList_indented (level : Nat) (line : String) :
    (indented level line).toList = List.replicate (2 * level) ' ' ++ line.toList := by
  simp [indented]

@[simp] theorem indented_zero (line : String) : indented 0 line = line := by
  simp [indented]

@[simp] theorem macroName_bufferTooShort :
    (Status.fault .bufferTooShort).macroName = "ALON_ERR_BUFFER_TOO_SHORT" := rfl

@[simp] theorem macroName_allocationFailure :
    (Status.fault .allocationFailure).macroName = "ALON_ERR_ALLOC" := rfl

theorem linesOf_nil (level : Nat) : linesOf level [] = [] := rfl

theorem linesOf_cons (level : Nat) (stmt : Stmt) (rest : List Stmt) :
    linesOf level (stmt :: rest) = stmt.lines level ++ linesOf level rest := rfl

theorem lines_exitIf (level : Nat) (test : Expr) (status : Status) :
    (Stmt.exitIf test status).lines level =
      [indented level ("if (" ++ test.text ++ ") return " ++ status.macroName ++ ";")] := rfl

theorem linesOf_append (level : Nat) (stmts rest : List Stmt) :
    linesOf level (stmts ++ rest) = linesOf level stmts ++ linesOf level rest := by
  induction stmts with
  | nil => rfl
  | cons stmt stmts inductionHypothesis =>
    rw [List.cons_append, linesOf_cons, linesOf_cons, inductionHypothesis, List.append_assoc]

theorem lines_copy (level : Nat) (direction : Direction) (memory : Memory) (position count : Expr) :
    (Stmt.copy direction memory position count).lines level =
      [indented level (copyText direction memory.text position.text count.text)] := by
  cases direction <;> rfl

theorem lines_guardRoom (level : Nat) (count : Expr) :
    (guardRoom count).lines level = [indented level (guardText count.text)] := by
  refine eq_of_toList ?_
  unfold guardText
  simp [guardRoom, lines_exitIf, Expr.text, Var.name]

theorem lines_increase (level : Nat) (count : Expr) :
    (Stmt.increase .offset count).lines level = [indented level (advanceText count.text)] := by
  change [indented level ("offset" ++ " += " ++ count.text ++ ";")] = _
  refine eq_of_toList ?_
  unfold advanceText
  simp

theorem lines_assign (level : Nat) (x : Lvalue) (n : Nat) :
    (Stmt.assign x (.literal n)).lines level = [indented level (x.text ++ " = " ++ toString n ++ ";")] := rfl

theorem linesOf_block (level : Nat) (body : List Stmt) :
    linesOf level [.block body] =
      indented level "\x7b" :: (linesOf (level + 1) body ++ [indented level "\x7d"]) := by
  rw [linesOf_cons]
  exact List.append_nil _

theorem linesOf_loop (level count : Nat) (body : List Stmt) :
    linesOf level [.loop count body] =
      indented level (loopText count) :: (linesOf (level + 1) body ++ [indented level "\x7d"]) := by
  rw [linesOf_cons]
  exact List.append_nil _

theorem linesOf_moveFixed_static (level : Nat) (direction : Direction) (x : Lvalue) (width offset : Nat) :
    linesOf level (moveFixed direction x width (.static offset)) =
      [indented level (copyText direction (Memory.object x).text (toString offset) (toString width))] := by
  rw [moveFixed, linesOf_cons, lines_copy]
  rfl

theorem linesOf_moveFixed_cursor (level : Nat) (direction : Direction) (x : Lvalue) (width : Nat) :
    linesOf level (moveFixed direction x width .cursor) =
      (accessLines direction (.object x) (.literal width) [] []).map (indented level) := by
  rw [moveFixed, linesOf_cons, linesOf_cons, linesOf_cons, lines_guardRoom, lines_copy, lines_increase]
  rfl

theorem linesOf_moveText (level : Nat) (direction : Direction) (x : Lvalue) :
    linesOf level (moveText direction x) = (movedText direction x).map (indented level) := by
  have one : Nat.toDigits 10 1 = ['1'] := by decide
  have digits : Nat.toDigits 16 maxTextLength = List.replicate 8 'f' := by decide
  have most : (String.ofList (Nat.toDigits 16 maxTextLength)).toUpper.toList = List.replicate 8 'F' := by
    rw [digits, String.toUpper, String.toList_map, String.toList_ofList]
    decide
  cases direction with
  | read =>
    simp only [moveText, movedText, List.map_append, linesOf_append, linesOf_moveFixed_cursor]
    congr 1
    simp only [linesOf, lines_guardRoom, lines_copy, lines_increase]
    refine eq_of_toList ?_
    simp [accessLines, payloadSetup, payloadEnd, Stmt.lines, Expr.text, Width.text, Var.name, Var.type, one]
  | write =>
    simp only [moveText, movedText, List.map_append, linesOf_append, linesOf_moveFixed_cursor]
    congr 2
    refine eq_of_toList ?_
    simp [linesOf, lengthSetup, Stmt.lines, Expr.text, Var.name, Var.type, most]

theorem linesOf_moveOptional (level : Nat) (direction : Direction) (present : Expr) (absent : Stmt)
    (body : List Stmt) {line : String} (absentLine : ∀ level, absent.lines level = [indented level line]) :
    linesOf level [moveOptional direction present absent body] =
      indented level "\x7b" ::
        ((flagSetup present.text direction ++
            accessLines direction (.object (.var .flag)) (.literal flagWidth) [] []).map
              (indented (level + 1)) ++
          branchLines (level + 1) line direction ++ linesOf (level + 2) body ++
          [indented (level + 1) "\x7d", indented level "\x7d"]) := by
  cases direction with
  | read =>
    simp only [moveOptional, linesOf, Stmt.lines, linesOf_append, linesOf_moveFixed_cursor]
    refine eq_of_toList ?_
    simp [absentLine, flagSetup, branchLines, Expr.text, Var.name, Var.type]
  | write =>
    simp only [moveOptional, linesOf, Stmt.lines, linesOf_append, linesOf_moveFixed_cursor]
    refine eq_of_toList ?_
    simp [flagSetup, branchLines, Expr.text, Var.name, Var.type]

theorem linesOf_check (size : Nat) :
    linesOf 1 [.exitIf (.less .length (.literal size)) (.fault .bufferTooShort)] =
      [indented 1 (checkText size)] := by
  rw [linesOf_cons, lines_exitIf]
  refine eq_of_toList ?_
  unfold checkText
  simp [linesOf_nil, Expr.text]

theorem linesOf_seed (offset : Nat) :
    linesOf 1 [.define .offset (.literal offset)] = [indented 1 (seedText offset)] := by
  change [indented 1 ("uint64_t" ++ " " ++ "offset" ++ " = " ++ toString offset ++ ";")] = _
  refine eq_of_toList ?_
  unfold seedText
  simp

/-! ## Functions -/

/-- Without a line feed in any of them, lines can be read off their text. -/
theorem textLines_intercalate {lines : List String} (nonempty : lines ≠ [])
    (unbroken : ∀ line ∈ lines, '\n' ∉ line.toList) : textLines ("\n".intercalate lines ++ "\n") = lines := by
  -- The line feed at the end counts as one between the last line and an empty one.
  have joined : "\n".intercalate lines ++ "\n" = "\n".intercalate (lines ++ [""]) := by
    rw [String.intercalate_append_of_ne_nil nonempty (by simp), String.intercalate_singleton, String.append_empty]
  have split : ("\n".intercalate lines ++ "\n").toList.splitOn '\n' = (lines ++ [""]).map String.toList := by
    rw [joined, String.toList_intercalate]
    refine List.splitOn_intercalate _ ?_ (by simp)
    rw [List.forall_mem_map, List.forall_mem_append]
    exact ⟨unbroken, by simp⟩
  rw [textLines, split, List.map_map, List.map_append]
  simp

theorem textLines_text {f : Function} (unbroken : ∀ line ∈ f.lines, '\n' ∉ line.toList) :
    textLines f.text = f.lines :=
  textLines_intercalate (by simp [Function.lines]) unbroken

end PackedRecord.C
