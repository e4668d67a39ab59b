import PackedRecord.Cli.Arguments
import PackedRecord.Cli.Files
import PackedRecord.Manifest.Bundle
import PackedRecord.Manifest.Inspect
import PackedRecord.Manifest.Vectors

/-!
# Running a command

`Command.run` does what a command asks for on any file system and gives the text to print.
-/

namespace PackedRecord.Cli

variable {m : Type → Type} [Monad m]

def succeeded (change : m Bool) : ExceptT Error m Unit := do
  if !(← change) then
    throw .io

def readBytes (fs : FileSystem m) (path : String) : ExceptT Error m (List UInt8) := do
  match ← fs.read path with
  | some bytes => return bytes
  | none => throw .io

def readText (fs : FileSystem m) (path : String) : ExceptT Error m String := do
  match Utf8.decode? (← readBytes fs path) with
  | some text => return text
  | none => throw .io

def loadManifest (fs : FileSystem m) (path : String) : ExceptT Error m Manifest := do
  let text ← readText fs path
  ExceptT.mk (pure (Manifest.ofText text))

def makeDirectories (fs : FileSystem m) (directory : String) : ExceptT Error m Unit :=
  (FileName.directories directory).forM fun name => succeeded (fs.makeDirectory name)

/-- Does what a command asks for.  The text to print has its line end. -/
def Command.run (fs : FileSystem m) : Command → ExceptT Error m String
  | generate input directory platform stem => do
    let manifest ← loadManifest fs input
    let bundle ← ExceptT.mk (pure (Bundle.build manifest { stem, platform }))
    let header := FileName.join directory bundle.headerName
    let source := FileName.join directory bundle.sourceName
    makeDirectories fs directory
    succeeded (fs.write header bundle.header)
    succeeded (fs.write source bundle.source)
    return "Generated " ++ header ++ " and " ++ source ++ "\n"
  | vectors input output => do
    let manifest ← loadManifest fs input
    let text := (← ExceptT.mk (pure manifest.vectorsJson)).pretty
    match output with
    | none => return text ++ "\n"
    | some path =>
      succeeded (fs.write path text)
      return "Test vectors written to " ++ path ++ "\n"
  | plan input name => do
    let manifest ← loadManifest fs input
    let case ← ExceptT.mk (pure (manifest.findCase name))
    return (← ExceptT.mk (pure case.planText)) ++ "\n"
  | decode input name data => do
    let manifest ← loadManifest fs input
    let case ← ExceptT.mk (pure (manifest.findCase name))
    let bytes ← readBytes fs data
    return (← ExceptT.mk (pure (case.definition.showBytes bytes))) ++ "\n"

end PackedRecord.Cli
