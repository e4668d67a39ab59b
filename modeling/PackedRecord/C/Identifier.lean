/-!
# C identifiers

The names that can be used in C as they are: ASCII letters, digits and underscores, no digit first,
and no keyword.
-/

namespace PackedRecord.C

def keywords : List String := [
  "auto", "break", "case", "char", "const", "continue", "default", "do",
  "double", "else", "enum", "extern", "float", "for", "goto", "if",
  "inline", "int", "long", "register", "restrict", "return", "short",
  "signed", "sizeof", "static", "struct", "switch", "typedef", "union",
  "unsigned", "void", "volatile", "while", "_Bool", "_Complex", "_Imaginary"]

def startsName (c : Char) : Bool :=
  c.isAlpha || c = '_'

def continuesName (c : Char) : Bool :=
  c.isAlphanum || c = '_'

def isName (s : String) : Bool :=
  match s.toList with
  | [] => false
  | c :: rest => startsName c && rest.all continuesName

/-- Whether a name can be used in C as it is. -/
def isIdentifier (s : String) : Bool :=
  isName s && !keywords.contains s

end PackedRecord.C
