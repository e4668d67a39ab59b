import PackedRecord.Bytes.LittleEndian
import PackedRecord.C.Syntax
import PackedRecord.Plan.Write

/-!
# What generated code does

A machine that gives every statement of generated functions its meaning in C on a little-endian
host: unsigned arithmetic wraps at the width of its type, a copy out of bounds has no meaning at
all, and an allocator may refuse.

* `Machine` is the state: the buffer, the variables, the record, and the memory that was handed out.
* `Expr.eval?` and `Stmt.run` are the meaning of expressions and statements.  What C leaves
  undefined ends the run with `Halt.undefined`.

The record is kept by lvalue, its numbers and runs of bytes apart from its pointers.
-/

namespace PackedRecord.C

inductive Halt where
  | returned (status : Status)
  /-- C gives the program no meaning from here on. -/
  | undefined
  deriving DecidableEq

structure Machine where
  buffer : List UInt8
  /-- The buffer's length as the function was told. -/
  length : UInt64
  /-- Whether the allocator grants its `n`th request. -/
  grants : Nat → Bool := fun _ => true
  requests : Nat := 0
  blocks : List (List UInt8) := []
  freed : List (Option Nat) := []
  objects : Lvalue → List UInt8 := fun _ => []
  /-- Which block a field points to; all of them point nowhere at first. -/
  pointers : Lvalue → Option Nat := fun _ => none
  offset : UInt64 := 0
  len : UInt32 := 0
  size : UInt64 := 0
  flag : UInt8 := 0
  counter : Nat := 0

namespace Machine

def getVar (m : Machine) : Var → UInt64
  | .offset => m.offset
  | .len => m.len.toUInt64
  | .size => m.size
  | .flag => m.flag.toUInt64

/-- Sets a variable to what of a number fits its type. -/
def setVar (m : Machine) (v : Var) (n : UInt64) : Machine :=
  match v with
  | .offset => { m with offset := n }
  | .len => { m with len := n.toUInt32 }
  | .size => { m with size := n }
  | .flag => { m with flag := n.toUInt8 }

/-- The lvalue that is meant when the loop is where it is. -/
def locate (m : Machine) : Lvalue → Lvalue
  | .item p .counter => .item p (.literal m.counter)
  | x => x

def setObject (m : Machine) (x : Lvalue) (bytes : List UInt8) : Machine :=
  { m with objects := fun y => if y = m.locate x then bytes else m.objects y }

def setPointer (m : Machine) (x : Lvalue) (target : Option Nat) : Machine :=
  { m with pointers := fun y => if y = m.locate x then target else m.pointers y }

def pointee? (m : Machine) (x : Lvalue) : Option (List UInt8) := do
  m.blocks[(← m.pointers (m.locate x))]?

def setPointee? (m : Machine) (x : Lvalue) (position : Nat) (bytes : List UInt8) :
    Option Machine := do
  let block ← m.pointers (m.locate x)
  let before ← m.blocks[block]?
  if position + bytes.length ≤ before.length then
    return { m with blocks := m.blocks.set block (overwrite before position bytes) }
  else none

end Machine

namespace Expr

def ofTest (b : Bool) : UInt64 :=
  if b then 1 else 0

/-- The value of an expression.  A text without an end has no length. -/
def eval? (m : Machine) : Expr → Option UInt64
  | literal n => some n.toUInt64
  | hexLiteral n => some n.toUInt64
  | length => some m.length
  | var v => some (m.getVar v)
  | load x => some (ofLittleEndian (m.objects (m.locate x))).toUInt64
  | cast v e => do
    let n ← e.eval? m
    return (m.setVar v n).getVar v
  | add a b => do return (← a.eval? m) + (← b.eval? m)
  | sub a b => do return (← a.eval? m) - (← b.eval? m)
  | textLength x => do
    let block ← m.pointee? x
    if block.contains 0 then return (block.takeWhile (· ≠ 0)).length.toUInt64 else none
  | less a b => do return ofTest ((← a.eval? m) < (← b.eval? m))
  | greater a b => do return ofTest ((← a.eval? m) > (← b.eval? m))
  | differs a b => do return ofTest ((← a.eval? m) ≠ (← b.eval? m))
  | not e => do return ofTest ((← e.eval? m) = 0)
  | isNull x => some (ofTest (m.pointers (m.locate x)).isNone)
  | isNotNull x => some (ofTest (m.pointers (m.locate x)).isSome)

end Expr

abbrev Run := EStateM Halt Machine

namespace Run

def eval (e : Expr) : Run UInt64 := do
  match e.eval? (← get) with
  | some n => return n
  | none => throw .undefined

def change (f : Machine → Option Machine) : Run Unit := do
  match f (← get) with
  | some m => set m
  | none => throw .undefined

def copyIn (memory : Memory) (position count : Nat) : Run Unit :=
  change fun m => do
    let bytes ← slice? m.buffer position count
    match memory with
    | .object (.var v) => return m.setVar v (ofLittleEndian bytes).toUInt64
    | .object x => return m.setObject x bytes
    | .pointee x => m.setPointee? x 0 bytes

def copyOut (memory : Memory) (position count : Nat) : Run Unit :=
  change fun m => do
    let source ←
      match memory with
      | .object (.var v) => some (littleEndian count (m.getVar v).toNat)
      | .object x => some (m.objects (m.locate x))
      | .pointee x => m.pointee? x
    let bytes ← slice? source 0 count
    if position + count ≤ m.buffer.length then
      return { m with buffer := overwrite m.buffer position bytes }
    else none

/-- Asks the allocator for zeroed memory and points a field to it, or nowhere if there is none. -/
def allocate (x : Lvalue) (size : Nat) : Run Unit :=
  modify fun m =>
    let asked := { m with requests := m.requests + 1 }
    if m.grants m.requests then
      let handed := { asked with blocks := m.blocks ++ [List.replicate size 0] }
      handed.setPointer x (some m.blocks.length)
    else asked.setPointer x none

def repeated (body : Run Unit) (i : Nat) : (count : Nat) → Run Unit
  | 0 => return ()
  | count + 1 => do
    modify fun m => { m with counter := i }
    body
    repeated body (i + 1) count

end Run

namespace Stmt

mutual

/-- The meaning of a statement.  A function that hands over to another one is not run here. -/
def run : Stmt → Run Unit
  | declare _ => return ()
  | define v e => do
    let n ← Run.eval e
    modify fun m => m.setVar v n
  | assign x e => do
    let n ← Run.eval e
    modify fun m => m.setObject x (littleEndian 1 n.toNat)
  | assignNull x => modify fun m => m.setPointer x none
  | allocate x size => do Run.allocate x (← Run.eval size).toNat
  | terminate x position => do
    let n ← Run.eval (.var position)
    Run.change fun m => m.setPointee? x n.toNat [0]
  | increase v e => do
    let n ← Run.eval e
    modify fun m => m.setVar v (m.getVar v + n)
  | copy direction memory position count => do
    let position ← Run.eval position
    let count ← Run.eval count
    match direction with
    | .read => Run.copyIn memory position.toNat count.toNat
    | .write => Run.copyOut memory position.toNat count.toNat
  | free x => modify fun m => { m with freed := m.freed ++ [m.pointers (m.locate x)] }
  | discard _ => return ()
  | exitIf test status => do
    if (← Run.eval test) ≠ 0 then
      throw (.returned status)
  | exit status => throw (.returned status)
  | forward _ _ => throw .undefined
  | block body => runAll body
  | loop count body => Run.repeated (runAll body) 0 count
  | ifThen test body => do
    if (← Run.eval test) ≠ 0 then
      runAll body
  | ifElse test body other => do
    if (← Run.eval test) ≠ 0 then
      runAll body
    else runAll other

def runAll : List Stmt → Run Unit
  | [] => return ()
  | stmt :: rest => do
    run stmt
    runAll rest

end

end Stmt

end PackedRecord.C
