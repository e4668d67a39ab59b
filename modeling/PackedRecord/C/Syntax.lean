import PackedRecord.C.Status
import PackedRecord.Plan.Place

/-!
# The C of the generated functions

The statements that the generated functions are made of, as data.  The language is small on purpose:
every form of it occurs in some generated function, and each has one line of text, or one opening
and one closing line around a block.

* `Expr`, `Lvalue` and `Memory` are what statements talk about, `Stmt` the statements.
* `Stmt.lines` prints a statement at a level of nesting, two blanks a level.
* `Function` is a signature with a body.
-/

namespace PackedRecord.C

inductive Var where
  /-- The cursor: how many bytes of the buffer have been used. -/
  | offset
  /-- The length of a text as it goes over the wire. -/
  | len
  /-- The length of a text as measured. -/
  | size
  | flag
  deriving DecidableEq

namespace Var

def name : Var → String
  | offset => "offset"
  | len => "len"
  | size => "size"
  | flag => "flag"

def type : Var → String
  | offset => "uint64_t"
  | len => "uint32_t"
  | size => "uint64_t"
  | flag => "uint8_t"

end Var

inductive Subscript where
  | counter
  | literal (n : Nat)
  deriving DecidableEq

def Subscript.text : Subscript → String
  | counter => "i"
  | literal n => toString n

inductive Lvalue where
  | var (v : Var)
  | field (p : Place)
  | item (p : Place) (index : Subscript)
  deriving DecidableEq

def Lvalue.text : Lvalue → String
  | var v => v.name
  | field p => p.text
  | item p index => p.text ++ "[" ++ index.text ++ "]"

/-- Unsigned expressions.  A test is an expression that is one or zero. -/
inductive Expr where
  | literal (n : Nat)
  | hexLiteral (n : Nat)
  | length
  | var (v : Var)
  | load (x : Lvalue)
  | cast (v : Var) (e : Expr)
  | add (a b : Expr)
  | sub (a b : Expr)
  | textLength (x : Lvalue)
  | less (a b : Expr)
  | greater (a b : Expr)
  | differs (a b : Expr)
  | not (e : Expr)
  | isNull (x : Lvalue)
  | isNotNull (x : Lvalue)

def Expr.text : Expr → String
  | literal n => toString n
  | hexLiteral n => "0x" ++ (String.ofList (Nat.toDigits 16 n)).toUpper ++ "u"
  | length => "length"
  | var v => v.name
  | load x => x.text
  | cast v e => "(" ++ v.type ++ ")" ++ e.text
  | add a b => a.text ++ " + " ++ b.text
  | sub a b => a.text ++ " - " ++ b.text
  | textLength x => "alon_strlen(" ++ x.text ++ ")"
  | less a b => a.text ++ " < " ++ b.text
  | greater a b => a.text ++ " > " ++ b.text
  | differs a b => a.text ++ " != " ++ b.text
  | not e => "!" ++ e.text
  | isNull x => x.text ++ " == NULL"
  | isNotNull x => x.text ++ " != NULL"

/-- The side of a copy that is not the buffer. -/
inductive Memory where
  | object (x : Lvalue)
  | pointee (x : Lvalue)

def Memory.text : Memory → String
  | object x => "&" ++ x.text
  | pointee x => x.text

inductive Direction where
  | read
  | write
  deriving DecidableEq

inductive Stmt where
  | declare (v : Var)
  | define (v : Var) (e : Expr)
  | assign (x : Lvalue) (e : Expr)
  | assignNull (x : Lvalue)
  /-- Makes a field point to fresh memory of some size, or to nothing if there is none. -/
  | allocate (x : Lvalue) (size : Expr)
  /-- Puts a NUL at a position of the text that a field points to. -/
  | terminate (x : Lvalue) (position : Var)
  | increase (v : Var) (e : Expr)
  | copy (direction : Direction) (memory : Memory) (position count : Expr)
  | free (x : Lvalue)
  | discard (name : String)
  | exitIf (test : Expr) (status : Status)
  | exit (status : Status)
  /-- Returns what another function returns. -/
  | forward (callee : String) (arguments : List String)
  | block (body : List Stmt)
  /-- Runs the body for `i` from zero up to a count. -/
  | loop (count : Nat) (body : List Stmt)
  | ifThen (test : Expr) (body : List Stmt)
  | ifElse (test : Expr) (body other : List Stmt)

def indented (level : Nat) (line : String) : String :=
  String.ofList (List.replicate (2 * level) ' ') ++ line

namespace Stmt

mutual

/-- The lines of a statement at a level of nesting. -/
def lines (level : Nat) : Stmt → List String
  | declare v => [indented level (v.type ++ " " ++ v.name ++ ";")]
  | define v e => [indented level (v.type ++ " " ++ v.name ++ " = " ++ e.text ++ ";")]
  | assign x e => [indented level (x.text ++ " = " ++ e.text ++ ";")]
  | assignNull x => [indented level (x.text ++ " = NULL;")]
  | allocate x size => [indented level (x.text ++ " = alon_alloc(" ++ size.text ++ ");")]
  | terminate x position => [indented level (x.text ++ "[" ++ position.name ++ "] = '\\0';")]
  | increase v e => [indented level (v.name ++ " += " ++ e.text ++ ";")]
  | copy direction memory position count =>
    let buffer := "buffer + " ++ position.text
    let (target, source) :=
      match direction with
      | .read => (memory.text, buffer)
      | .write => (buffer, memory.text)
    [indented level ("alon_memcpy(" ++ target ++ ", " ++ source ++ ", " ++ count.text ++ ");")]
  | free x => [indented level ("alon_free(" ++ x.text ++ ");")]
  | discard name => [indented level ("(void)" ++ name ++ ";")]
  | exitIf test status =>
    [indented level ("if (" ++ test.text ++ ") return " ++ status.macroName ++ ";")]
  | exit status => [indented level ("return " ++ status.macroName ++ ";")]
  | forward callee arguments =>
    [indented level ("return " ++ callee ++ "(" ++ ", ".intercalate arguments ++ ");")]
  | block body =>
    indented level "\x7b" :: (linesOf (level + 1) body ++ [indented level "\x7d"])
  | loop count body =>
    indented level ("for (uint64_t i = 0; i < " ++ toString count ++ "; i++) \x7b")
      :: (linesOf (level + 1) body ++ [indented level "\x7d"])
  | ifThen test body =>
    indented level ("if (" ++ test.text ++ ") \x7b")
      :: (linesOf (level + 1) body ++ [indented level "\x7d"])
  | ifElse test body other =>
    indented level ("if (" ++ test.text ++ ") \x7b")
      :: (linesOf (level + 1) body ++ indented level "\x7d else \x7b"
        :: (linesOf (level + 1) other ++ [indented level "\x7d"]))

def linesOf (level : Nat) : List Stmt → List String
  | [] => []
  | stmt :: rest => lines level stmt ++ linesOf level rest

end

end Stmt

structure Signature where
  result : String
  name : String
  parameters : List String

def Signature.text (s : Signature) : String :=
  s.result ++ " " ++ s.name ++ "(" ++ ", ".intercalate s.parameters ++ ")"

def Signature.prototype (s : Signature) : String :=
  s.text ++ ";\n"

structure Function where
  signature : Signature
  body : List Stmt

def Function.lines (f : Function) : List String :=
  (f.signature.text ++ " \x7b") :: (Stmt.linesOf 1 f.body ++ ["\x7d"])

def Function.text (f : Function) : String :=
  "\n".intercalate f.lines ++ "\n"

end PackedRecord.C
