/-!
# File names

The name of a file is a text of parts with slashes between them.  Empty parts and `.` stay where
they are, `..` leads back, and every other part leads to what has that name.

* `FileName.parts` takes a name apart, and `FileName.join` puts a name into a directory.
* `FileName.directories` is what must be there, or be made, for a name to be a directory.
-/

namespace PackedRecord.Cli.FileName

def maxPart : Nat := 255

def maxLength : Nat := 4095

/-- The parts of a name.  An empty part stands between two slashes and after one at the end. -/
def parts (name : String) : List String :=
  (splitParts name.toList []).map fun part => String.ofList part.reverse
where
  splitParts : List Char → List Char → List (List Char)
    | [], part => [part]
    | c :: rest, part => if c = '/' then part :: splitParts rest [] else splitParts rest (c :: part)

def stays (part : String) : Bool :=
  part = "" || part = "."

/-- A name inside a directory.  A name that starts with a slash stands for itself. -/
def join (directory name : String) : String :=
  if name.startsWith "/" then name
  else if directory.endsWith "/" then directory ++ name
  else directory ++ "/" ++ name

def trimSlashes (name : String) : String :=
  String.ofList (name.toList.reverse.dropWhile (· = '/')).reverse

/-- The directories on the way to a directory, the outermost first and the directory itself, as it
is spelled, last.  There is one for each part that leads somewhere. -/
def directories (name : String) : List String :=
  let all := parts name
  let steps := (List.range all.length).filter fun i => !stays (all.getD i "")
  steps.dropLast.map (fun i => "/".intercalate (all.take (i + 1))) ++ [name]

end PackedRecord.Cli.FileName
