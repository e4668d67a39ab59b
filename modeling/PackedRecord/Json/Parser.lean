import PackedRecord.Json.Basic
import PackedRecord.Number.Binary
import PackedRecord.Text.Utf8

/-!
# Reading JSON text

A parser takes characters from the front of a text and stops at the first thing that is wrong, so a
reader built from these parts reports faults in text order, whether they concern the text or what it
means.

* `Fault` tells a text that ends too early from one that is malformed, and both from a well formed
  part that does not fit what the caller asked for.
* `value` reads any JSON value, `skipValue` passes over one without looking at what it means.
* `elements` and `members` walk an array and an object; a caller that reads a particular shape gives
  them its own reader for the parts.

Arrays and objects nest at most `depthLimit` deep.  That bound is also what `value` recurses on.
-/

namespace PackedRecord.Json

inductive Fault (ε : Type) where
  /-- The text ends inside a value. -/
  | truncated
  | malformed
  /-- The text is JSON so far, but not of the shape that was asked for. -/
  | unfit (why : ε)

abbrev Parser (ε : Type) := StateT (List Char) (Except (Fault ε))

variable {ε : Type}

/-! ## Characters -/

def isBlank (c : Char) : Bool :=
  c = ' ' || c = '\n' || c = '\t' || c = '\r'

def take? : Parser ε (Option Char) := do
  match ← get with
  | [] => return none
  | c :: rest => set rest; return some c

def peek? : Parser ε (Option Char) := do
  return (← get).head?

def advance : Parser ε Unit :=
  modify List.tail

def peekToken? : Parser ε (Option Char) := do
  modify (List.dropWhile isBlank)
  peek?

def literal : List Char → Parser ε Unit
  | [] => return ()
  | expected :: rest => do
    match ← take? with
    | none => throw .truncated
    | some c => if c = expected then literal rest else throw .malformed

def digits : Parser ε (List Char) := do
  let text ← get
  set (text.dropWhile Char.isDigit)
  return text.takeWhile Char.isDigit

/-! ## Strings -/

def hexValue? (c : Char) : Option Nat :=
  if '0' ≤ c ∧ c ≤ '9' then some (c.toNat - '0'.toNat)
  else if 'a' ≤ c ∧ c ≤ 'f' then some (c.toNat - 'a'.toNat + 10)
  else if 'A' ≤ c ∧ c ≤ 'F' then some (c.toNat - 'A'.toNat + 10)
  else none

/-- Four hexadecimal digits.  They are looked for in the next four bytes: with fewer bytes left the
text is truncated, whatever these are. -/
def hexQuad : Parser ε Nat := do
  match ← get with
  | a :: b :: c :: d :: rest =>
    match [a, b, c, d].mapM hexValue? with
    | some ns => set rest; return ns.foldl (fun acc n => acc * 16 + n) 0
    | none => throw .malformed
  | few =>
    throw (if (few.flatMap Utf8.encodeChar).length < 4 then .truncated else .malformed)

/-- The character of an escape by number.  A character outside the basic plane is written as two
numbers, a high and a low surrogate; neither may stand alone. -/
def numberedChar : Parser ε Char := do
  let high ← hexQuad
  if 0xDC00 ≤ high ∧ high ≤ 0xDFFF then
    throw .malformed
  else if 0xD800 ≤ high ∧ high ≤ 0xDBFF then
    literal ['\\', 'u']
    let low ← hexQuad
    if 0xDC00 ≤ low ∧ low ≤ 0xDFFF then
      return Char.ofNat (0x10000 + (high - 0xD800) * 0x400 + (low - 0xDC00))
    else throw .malformed
  else return Char.ofNat high

def letterEscape? (c : Char) : Option Char :=
  if c = '"' ∨ c = '\\' ∨ c = '/' then some c
  else if c = 'b' then some (Char.ofNat 0x08)
  else if c = 'f' then some (Char.ofNat 0x0C)
  else if c = 'n' then some '\n'
  else if c = 'r' then some '\r'
  else if c = 't' then some '\t'
  else none

/-- The rest of a string after its opening quote, in reverse after `acc`.  `numbered` reads what
follows a numbered escape.  Every round takes a character, so the length of the text is fuel
enough. -/
def stringBody (numbered : Parser ε Char) : (fuel : Nat) → (acc : List Char) → Parser ε (List Char)
  | 0, _ => throw .truncated
  | fuel + 1, acc => do
    match ← take? with
    | none => throw .truncated
    | some '"' => return acc
    | some '\\' =>
      match ← take? with
      | none => throw .truncated
      | some 'u' =>
        let c ← numbered
        stringBody numbered fuel (c :: acc)
      | some letter =>
        match letterEscape? letter with
        | some c => stringBody numbered fuel (c :: acc)
        | none => throw .malformed
    | some c =>
      if c.toNat < 0x20 then throw .malformed else stringBody numbered fuel (c :: acc)

def stringRest : Parser ε String := do
  let reversed ← stringBody numberedChar ((← get).length + 1) []
  return String.ofList reversed.reverse

/-- Passes over the rest of a string.  Nothing is made of its escapes, so a surrogate may stand
alone. -/
def skipString : Parser ε Unit := do
  let _ ← stringBody (do let _ ← hexQuad; return ' ') ((← get).length + 1) []

/-! ## Numbers -/

structure Spelled where
  negative : Bool
  whole : List Char
  fraction : Option (List Char)
  exponent : Option (Bool × List Char)

/-- At least one digit; where there is none, `atEnd` is the fault of a text that ends here. -/
def someDigits (atEnd : Fault ε) : Parser ε (List Char) := do
  let found ← digits
  if found.isEmpty then
    match ← peek? with
    | none => throw atEnd
    | some _ => throw .malformed
  else return found

def spelled (atEnd : Fault ε) (negative : Bool) : Parser ε Spelled := do
  let whole ← someDigits atEnd
  if 1 < whole.length ∧ whole.head? = some '0' then
    throw .malformed
  let fraction ←
    if (← peek?) = some '.' then
      advance
      some <$> someDigits atEnd
    else pure none
  let mark ← peek?
  let exponent ←
    if mark = some 'e' ∨ mark = some 'E' then
      advance
      let sign ← peek?
      if sign = some '+' ∨ sign = some '-' then
        advance
      let found ← someDigits atEnd
      pure (some (sign == some '-', found))
    else pure none
  return ⟨negative, whole, fraction, exponent⟩

def natOfDigits (ds : List Char) : Nat :=
  ds.foldl (fun acc d => acc * 10 + (d.toNat - '0'.toNat)) 0

/-- The number that a spelling stands for.  Without fraction and exponent it is an integer, if it
fits eight bytes and is not a negative zero; anything else is the nearest float.  A number past the
largest float has no value. -/
def Spelled.value? (s : Spelled) : Option Numeral :=
  let whole := natOfDigits s.whole
  match s.fraction, s.exponent with
  | none, none =>
    if s.negative then
      if 0 < whole ∧ whole ≤ UInt64.size / 2 then some (.negative (Int64.ofInt (-whole)))
      else (Number.doubleOfDecimal? true whole 0).map .float
    else
      if whole < UInt64.size then some (.unsigned whole.toUInt64)
      else (Number.doubleOfDecimal? false whole 0).map .float
  | fraction, exponent =>
    let places := fraction.getD []
    let power : Int :=
      match exponent with
      | none => 0
      | some (true, ds) => -natOfDigits ds
      | some (false, ds) => natOfDigits ds
    let digits := natOfDigits (s.whole ++ places)
    (Number.doubleOfDecimal? s.negative digits (power - places.length)).map .float

def numeral (negative : Bool) : Parser ε Numeral := do
  match (← spelled .truncated negative).value? with
  | some n => return n
  | none => throw .malformed

/-- Passes over a number after its sign.  It may be too large to have a value. -/
def skipNumeral (negative : Bool) : Parser ε Unit := do
  let _ ← spelled .malformed negative

/-! ## Arrays and objects -/

/-- Whether another element follows in an array, which then comes next; `first` before the first
element. -/
def nextElement (first : Bool) : Parser ε Bool := do
  match ← peekToken? with
  | none => throw .truncated
  | some ']' => return false
  | some c =>
    if first then return true
    else if c = ',' then
      advance
      match ← peekToken? with
      | none => throw .truncated
      | some ']' => throw .malformed
      | some _ => return true
    else throw .malformed

def closeArray : Parser ε Unit := do
  match ← peekToken? with
  | none => throw .truncated
  | some ']' => advance
  | some _ => throw .malformed

/-- The rest of an array, in reverse after `acc`.  Every round takes a character, so the length of
the text is fuel enough. -/
def elementsFrom {α : Type} (item : Parser ε α) :
    (fuel : Nat) → (first : Bool) → (acc : List α) → Parser ε (List α)
  | 0, _, _ => throw .malformed
  | fuel + 1, first, acc => do
    if ← nextElement first then
      let a ← item
      elementsFrom item fuel false (a :: acc)
    else
      closeArray
      return acc

def elements {α : Type} (item : Parser ε α) : Parser ε (List α) := do
  let reversed ← elementsFrom item ((← get).length + 1) true []
  return reversed.reverse

def nextMember (first : Bool) : Parser ε Bool := do
  match ← peekToken? with
  | none => throw .truncated
  | some '}' => return false
  | some c =>
    if first then
      if c = '"' then advance; return true
      else throw .malformed
    else if c = ',' then
      advance
      match ← peekToken? with
      | none => throw .truncated
      | some '"' => advance; return true
      | some _ => throw .malformed
    else throw .malformed

def colon : Parser ε Unit := do
  match ← peekToken? with
  | none => throw .truncated
  | some ':' => advance
  | some _ => throw .malformed

/-- The rest of an object.  `key` reads a key after its quote, and `member` everything from the
colon to the end of the value. -/
def membersFrom {κ σ : Type} (key : Parser ε κ) (member : σ → κ → Parser ε σ) :
    (fuel : Nat) → (first : Bool) → σ → Parser ε σ
  | 0, _, _ => throw .malformed
  | fuel + 1, first, state => do
    if ← nextMember first then
      let k ← key
      let state ← member state k
      membersFrom key member fuel false state
    else return state

/-- The members of an object after its opening brace, folded into a state.  The closing brace is
left to the caller, who may have more to say about the members. -/
def members {κ σ : Type} (key : Parser ε κ) (member : σ → κ → Parser ε σ) (start : σ) :
    Parser ε σ := do
  membersFrom key member ((← get).length + 1) true start

/-! ## Values -/

def depthLimit : Nat := 127

def value (depth : Nat) : Parser ε Json := do
  match ← peekToken? with
  | none => throw .truncated
  | some 'n' => advance; literal ['u', 'l', 'l']; return null
  | some 't' => advance; literal ['r', 'u', 'e']; return bool true
  | some 'f' => advance; literal ['a', 'l', 's', 'e']; return bool false
  | some '"' => advance; return string (← stringRest)
  | some '[' =>
    match depth with
    | 0 => throw .malformed
    | depth + 1 =>
      advance
      return array (← elements (value depth))
  | some '{' =>
    match depth with
    | 0 => throw .malformed
    | depth + 1 =>
      advance
      let found ← members stringRest (fun found key => do
        colon
        return insert found key (← value depth)) []
      advance
      return object found
  | some '-' => advance; return number (← numeral true)
  | some c => if c.isDigit then return number (← numeral false) else throw .malformed

def skipNested (depth : Nat) : Parser ε Unit := do
  match ← peekToken? with
  | none => throw .truncated
  | some 'n' => advance; literal ['u', 'l', 'l']
  | some 't' => advance; literal ['r', 'u', 'e']
  | some 'f' => advance; literal ['a', 'l', 's', 'e']
  | some '"' => advance; skipString
  | some '[' =>
    match depth with
    | 0 => throw .malformed
    | depth + 1 =>
      advance
      let _ ← elements (skipNested depth)
  | some '{' =>
    match depth with
    | 0 => throw .malformed
    | depth + 1 =>
      advance
      members skipString (fun _ _ => do colon; skipNested depth) ()
      advance
  | some '-' => advance; skipNumeral true
  | some c => if c.isDigit then skipNumeral false else throw .malformed

/-- Passes over a value.  It may nest as deep as the text is long. -/
def skipValue : Parser ε Unit := do
  skipNested (← get).length

def endOfText : Parser ε Unit := do
  match ← peekToken? with
  | none => return ()
  | some _ => throw .malformed

def readWhole {α : Type} (p : Parser ε α) (text : String) : Except (Fault ε) α :=
  (do let a ← p; endOfText; return a : Parser ε α).run' text.toList

def parse (text : String) : Except (Fault Empty) Json :=
  readWhole (value depthLimit) text

end PackedRecord.Json
