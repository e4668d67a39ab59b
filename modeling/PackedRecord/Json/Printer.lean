import PackedRecord.Json.Basic
import PackedRecord.Number.Shortest

/-!
# JSON text

Two layouts of one value: `Json.compact` without any blank, and `Json.pretty` with one member or
element to a line.  Floats are written with the fewest digits that read back.
-/

namespace PackedRecord

/-- The digits of a decimal with scientific exponent `e`, so that `0.ddd * 10 ^ (e + 1)` is meant.
From `10 ^ -5` up to `10 ^ 16` they are written out with at least one digit after the point, and
otherwise with a signed exponent. -/
def decimalText (digits : List Char) (e : Int) : String :=
  let text :=
    if -5 ≤ e ∧ e < 0 then
      '0' :: '.' :: (List.replicate (-e - 1).toNat '0' ++ digits)
    else if 0 ≤ e ∧ e < 16 then
      let whole := (e + 1).toNat
      let fraction := digits.drop whole
      digits.take whole ++ List.replicate (whole - digits.length) '0'
        ++ '.' :: (if fraction.isEmpty then ['0'] else fraction)
    else
      let fraction := digits.drop 1
      digits.take 1 ++ (if fraction.isEmpty then [] else '.' :: fraction)
        ++ 'e' :: (if e < 0 then '-' else '+') :: Nat.toDigits 10 e.natAbs
  String.ofList text

/-- The text of an eight byte float.  What is no number has the text of an absent value. -/
def floatText (word : UInt64) : String :=
  match Number.Format.double.decode word.toNat with
  | .finite negative significand exponent =>
    let sign := if negative then "-" else ""
    if significand = 0 then sign ++ "0.0"
    else
      let d := Number.shortest significand exponent
      let digits := Nat.toDigits 10 d.digits
      sign ++ decimalText digits (d.exponent + digits.length - 1)
  | _ => "null"

def Numeral.text : Numeral → String
  | .unsigned n => toString n.toNat
  | .negative n => toString n.toInt
  | .float word => floatText word

namespace Json

def escapedChar (c : Char) : String :=
  if c = '"' then "\\\""
  else if c = '\\' then "\\\\"
  else if c = '\n' then "\\n"
  else if c = '\r' then "\\r"
  else if c = '\t' then "\\t"
  else if c.toNat = 0x08 then "\\b"
  else if c.toNat = 0x0C then "\\f"
  else if c.toNat < 0x20 then
    "\\u00" ++ (if c.toNat < 0x10 then "0" else "") ++ String.ofList (Nat.toDigits 16 c.toNat)
  else String.singleton c

def quotedString (s : String) : String :=
  "\"" ++ String.join (s.toList.map escapedChar) ++ "\""

mutual

def compact : Json → String
  | null => "null"
  | bool b => if b then "true" else "false"
  | number n => n.text
  | string s => quotedString s
  | array items => "[" ++ ",".intercalate (compactItems items) ++ "]"
  | object members => "\x7b" ++ ",".intercalate (compactMembers members) ++ "\x7d"

def compactItems : List Json → List String
  | [] => []
  | item :: rest => compact item :: compactItems rest

def compactMembers : List (String × Json) → List String
  | [] => []
  | (key, value) :: rest => (quotedString key ++ ":" ++ compact value) :: compactMembers rest

end

def lineBreak (level : Nat) : String :=
  "\n" ++ String.ofList (List.replicate (2 * level) ' ')

/-- Entries between brackets, each on a line of its own one level deeper.  No entries leave the
brackets side by side. -/
def bracketed (opening closing : String) (level : Nat) (entries : List String) : String :=
  if entries.isEmpty then opening ++ closing
  else
    opening ++ lineBreak (level + 1) ++ ("," ++ lineBreak (level + 1)).intercalate entries
      ++ lineBreak level ++ closing

mutual

def prettyAt (level : Nat) : Json → String
  | array items => bracketed "[" "]" level (prettyItems (level + 1) items)
  | object members => bracketed "\x7b" "\x7d" level (prettyMembers (level + 1) members)
  | null => compact null
  | bool b => compact (bool b)
  | number n => compact (number n)
  | string s => compact (string s)

def prettyItems (level : Nat) : List Json → List String
  | [] => []
  | item :: rest => prettyAt level item :: prettyItems level rest

def prettyMembers (level : Nat) : List (String × Json) → List String
  | [] => []
  | (key, value) :: rest =>
    (quotedString key ++ ": " ++ prettyAt level value) :: prettyMembers level rest

end

def pretty (j : Json) : String :=
  prettyAt 0 j

end Json

end PackedRecord
