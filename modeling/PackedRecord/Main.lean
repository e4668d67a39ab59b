import PackedRecord.Cli.Run

/-!
# The program

Runs a command on the files of the machine.  A failed command ends with status one and says why on
the error stream; arguments that are no command end with status two.
-/

namespace PackedRecord.Cli

def tried? {α : Type} (action : IO α) : IO (Option α) := do
  try
    return some (← action)
  catch _ =>
    return none

/-- Whether a directory of the machine is there.  A directory, and nothing else, already holds the
name `.`, so asking for that name makes nothing and tells the two apart. -/
def isDirectory (path : String) : IO Bool := do
  try
    IO.FS.createDir (path ++ "/.")
    return true
  catch
    | .alreadyExists .. => return true
    | _ => return false

def machineFiles : FileSystem IO where
  read path := tried? do
    return (← IO.FS.readBinFile path).toList
  makeDirectory path := do
    let _ ← tried? (IO.FS.createDir path)
    isDirectory path
  write path text := do
    return (← tried? (IO.FS.writeFile path text)).isSome

end PackedRecord.Cli

open PackedRecord.Cli in
def main (arguments : List String) : IO UInt32 := do
  match Command.ofArguments? arguments with
  | none =>
    IO.eprintln "usage: alon gen|vectors|plan|decode -i FILE [options]"
    return 2
  | some command =>
    match ← (command.run machineFiles).run with
    | .ok text =>
      IO.print text
      return 0
    | .error e =>
      IO.eprintln ("Error: " ++ e.describe)
      return 1
