import PackedRecord.Bytes.Output
import PackedRecord.C.Syntax
import PackedRecord.Plan.Build

/-!
# Generated readers and writers

`reader` and `writer` turn a plan into the C functions that move a record out of a buffer and into
one.  Both follow the same plan and use the same guards; they differ in which way bytes are copied
and in what a text needs on either side.

Everything before the first field of variable width is covered by one check at the start.  From
there on every copy stands right behind its own check, and the cursor moves right behind the copy.
-/

namespace PackedRecord.C

def readerBase : String := "out"

def writerBase : String := "in"

def presenceMember : String := "is_some"

def valueMember : String := "value"

def flagWidth : Nat := 1

def lengthWidth : Nat := 4

/-- Returns if fewer than `count` bytes are left at the cursor. -/
def guardRoom (count : Expr) : Stmt :=
  .exitIf (.less (.sub .length (.var .offset)) count) (.fault .bufferTooShort)

def moveFixed (direction : Direction) (x : Lvalue) (width : Nat) : Access → List Stmt
  | .static offset => [.copy direction (.object x) (.literal offset) (.literal width)]
  | .cursor => [
    guardRoom (.literal width),
    .copy direction (.object x) (.var .offset) (.literal width),
    .increase .offset (.literal width)]

/-- Moves a text at the cursor.  This declares variables, so it goes into a block of its own. -/
def moveText (direction : Direction) (x : Lvalue) : List Stmt :=
  match direction with
  | .read =>
    [.declare .len]
      ++ moveFixed direction (.var .len) lengthWidth .cursor
      ++ [guardRoom (.var .len),
        .allocate x (.add (.cast .size (.var .len)) (.literal 1)),
        .exitIf (.isNull x) (.fault .allocationFailure),
        .copy direction (.pointee x) (.var .offset) (.var .len),
        .terminate x .len,
        .increase .offset (.var .len)]
  | .write =>
    [.define .size (.cast .size (.textLength x)),
      .exitIf (.greater (.var .size) (.hexLiteral maxTextLength)) (.fault .bufferTooShort),
      .define .len (.cast .len (.var .size))]
      ++ moveFixed direction (.var .len) lengthWidth .cursor
      ++ [guardRoom (.var .len),
        .copy direction (.pointee x) (.var .offset) (.var .len),
        .increase .offset (.var .len)]

/-- Moves a presence flag at the cursor, and what is behind it if it is set.  A reader runs
`absent` if it is not; a writer takes the flag from the test `present`. -/
def moveOptional (direction : Direction) (present : Expr) (absent : Stmt) (body : List Stmt) :
    Stmt :=
  match direction with
  | .read => .block (
    [.declare .flag]
      ++ moveFixed direction (.var .flag) flagWidth .cursor
      ++ [.ifElse (.not (.var .flag)) [absent] body])
  | .write => .block (
    [.define .flag present]
      ++ moveFixed direction (.var .flag) flagWidth .cursor
      ++ [.ifThen (.var .flag) body])

def moveField (direction : Direction) (place : Place) : Transfer → List Stmt
  | .scalar kind access => moveFixed direction (.field place) kind.width access
  | .block _ length access => moveFixed direction (.field place) length access
  | .text => [.block (moveText direction (.field place))]
  | .texts count => [.loop count (moveText direction (.item place .counter))]
  | .optionalText =>
    [moveOptional direction (.isNotNull (.field place)) (.assignNull (.field place))
      (moveText direction (.field place))]
  | .optionalScalar kind =>
    let flag := Lvalue.field (place.member presenceMember)
    let value := Lvalue.field (place.member valueMember)
    let mark :=
      match direction with
      | .read => [Stmt.assign flag (.literal 1)]
      | .write => []
    [moveOptional direction (.differs (.load flag) (.literal 0)) (.assign flag (.literal 0))
      (moveFixed direction value kind.width .cursor ++ mark)]

def stepStmts (direction : Direction) : Step → List Stmt
  | .seedCursor offset => [.define .offset (.literal offset)]
  | .move place transfer => moveField direction place transfer

def planStmts (direction : Direction) (plan : Plan) : List Stmt :=
  let check : List Stmt :=
    if plan.fixedSize = 0 then []
    else [.exitIf (.less .length (.literal plan.fixedSize)) (.fault .bufferTooShort)]
  check ++ plan.steps.flatMap (stepStmts direction) ++ [.exit .ok]

def readerSignature (symbol : String) : Signature where
  result := "int"
  name := symbol ++ "_deserialize"
  parameters :=
    ["const uint8_t *buffer", "uint64_t length", "struct " ++ symbol ++ " *" ++ readerBase]

def writerSignature (symbol : String) : Signature where
  result := "int"
  name := symbol ++ "_serialize"
  parameters :=
    ["const struct " ++ symbol ++ " *" ++ writerBase, "uint8_t *buffer", "uint64_t length"]

/-- The reader of a plan made for `readerBase`. -/
def reader (symbol : String) (plan : Plan) : Function :=
  ⟨readerSignature symbol, planStmts .read plan⟩

def writer (symbol : String) (plan : Plan) : Function :=
  ⟨writerSignature symbol, planStmts .write plan⟩

end PackedRecord.C
