import PackedRecord.Text.Unprintable

/-!
# Quoted text

`Text.quoted` puts a text between double quotes so that it reads unambiguously in a message.
-/

namespace PackedRecord.Text

def hexDigits (n : Nat) : String :=
  String.ofList (Nat.toDigits 16 n)

def quotedChar (c : Char) : String :=
  if c = '"' then "\\\""
  else if c = '\\' then "\\\\"
  else if c = '\n' then "\\n"
  else if c = '\r' then "\\r"
  else if c = '\t' then "\\t"
  else if c.toNat = 0 then "\\0"
  else if isUnprintable c then "\\u\x7b" ++ hexDigits c.toNat ++ "\x7d"
  else String.singleton c

/-- A text between double quotes, with quotes, backslashes and unprintable characters escaped. -/
def quoted (s : String) : String :=
  "\"" ++ String.join (s.toList.map quotedChar) ++ "\""

end PackedRecord.Text
