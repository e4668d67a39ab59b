import PackedRecord.Cli.FileName
import PackedRecord.Text.Utf8

/-!
# Files

What the program needs of a file system, as an interface, and a directory tree held in memory that
offers it.  With the tree, a whole run of the program is a pure function.
-/

namespace PackedRecord.Cli

structure FileSystem (m : Type → Type) where
  read : String → m (Option (List UInt8))
  /-- Makes a directory, if there is none yet, inside one that is there, and tells whether it is
  there now. -/
  makeDirectory : String → m Bool
  write : String → String → m Bool

/-- Files and directories by the parts of their names.  The tree itself is always there. -/
structure FileTree where
  files : List (List String × List UInt8) := []
  directories : List (List String) := []

namespace FileTree

def isDirectory (t : FileTree) (place : List String) : Bool :=
  place.isEmpty || t.directories.contains place

def isFile (t : FileTree) (place : List String) : Bool :=
  (t.files.lookup place).isSome

/-- Where one part of a name leads.  It must be taken in a directory, it cannot be too long, and
nothing leads out of the tree. -/
def follow? (t : FileTree) (place : List String) (part : String) : Option (List String) :=
  if !t.isDirectory place || FileName.maxPart < part.utf8ByteSize then none
  else if FileName.stays part then some place
  else if part = ".." then
    if place.isEmpty then none else some place.dropLast
  else some (place ++ [part])

def resolve? (t : FileTree) (name : String) : Option (List String) :=
  if name.startsWith "/" || FileName.maxLength < name.utf8ByteSize then none
  else (FileName.parts name).foldlM t.follow? []

def read? (t : FileTree) (path : String) : Option (List UInt8) := do
  t.files.lookup (← t.resolve? path)

def replaceFile (files : List (List String × List UInt8)) (place : List String)
    (bytes : List UInt8) : List (List String × List UInt8) :=
  match files with
  | [] => [(place, bytes)]
  | (p, b) :: rest =>
    if p = place then (place, bytes) :: rest else (p, b) :: replaceFile rest place bytes

def write? (t : FileTree) (path : String) (bytes : List UInt8) : Option FileTree := do
  let place ← t.resolve? path
  if t.isDirectory place then none
  else return { t with files := replaceFile t.files place bytes }

/-- The tree with a directory made, if there is none yet.  A name may end in slashes; one that ends
in `.` is only found where there is a directory already. -/
def makeDirectory? (t : FileTree) (name : String) : Option FileTree := do
  guard (name.utf8ByteSize ≤ FileName.maxLength)
  let place ← t.resolve? (FileName.trimSlashes name)
  if t.isDirectory place then return t
  else if t.isFile place then none
  else return { t with directories := place :: t.directories }

def ofFiles (files : List (String × List UInt8)) : FileTree :=
  files.foldl (fun t (path, bytes) =>
    let place := FileName.parts path
    let around := (List.range (place.length - 1)).map fun n => place.take (n + 1)
    { files := replaceFile t.files place bytes, directories := around ++ t.directories }) {}

def changedSince (t before : FileTree) : List (String × List UInt8) :=
  let changed := t.files.filter fun (place, bytes) => before.files.lookup place ≠ some bytes
  changed.map fun (place, bytes) => ("/".intercalate place, bytes)

def attempt (change : FileTree → Option FileTree) : StateM FileTree Bool := do
  match change (← get) with
  | some t => set t; return true
  | none => return false

def system : FileSystem (StateM FileTree) where
  read path := do return (← get).read? path
  makeDirectory path := attempt fun t => t.makeDirectory? path
  write path text := attempt fun t => t.write? path (Utf8.encode text)

end FileTree

end PackedRecord.Cli
