import PackedRecord.C.Platform

/-!
# The command line

What the program can be asked to do, and how that is spelled: a command, then its options in any
order, each at most once, as `-x value`, `--name value` or `--name=value`.
-/

namespace PackedRecord.Cli

inductive Command where
  | generate (input directory : String) (platform : C.Platform) (stem : String)
  | vectors (input : String) (output : Option String)
  | plan (input name : String)
  | decode (input name data : String)

/-- An option of a command.  Its short form is the first letter of its name. -/
structure Flag where
  letter : Char
  name : String

namespace Flag

def input : Flag := ⟨'i', "input"⟩

def output : Flag := ⟨'o', "output"⟩

def target : Flag := ⟨'t', "target"⟩

def stem : Flag := ⟨'n', "namespace"⟩

def record : Flag := ⟨'p', "prefix"⟩

def data : Flag := ⟨'d', "data"⟩

end Flag

/-- An argument that is spelled as an option: its name, and the value if that is part of it. -/
def spelledFlag? (flags : List Flag) (argument : List Char) : Option (String × Option String) :=
  match argument with
  | '-' :: '-' :: rest =>
    let name := String.ofList (rest.takeWhile (· ≠ '='))
    match flags.find? (fun flag => flag.name = name), rest.dropWhile (· ≠ '=') with
    | none, _ => none
    | some flag, [] => some (flag.name, none)
    | some flag, _ :: value => some (flag.name, some (String.ofList value))
  | '-' :: letter :: rest =>
    match flags.find? (fun flag => flag.letter = letter), rest with
    | none, _ => none
    | some flag, [] => some (flag.name, none)
    | some flag, '=' :: value => some (flag.name, some (String.ofList value))
    | some flag, value => some (flag.name, some (String.ofList value))
  | _ => none

/-- Whether an argument can be the value of the option before it.  What looks like an option
cannot. -/
def isValue (argument : String) : Bool :=
  match argument.toList with
  | '-' :: _ :: _ => false
  | _ => true

def options? (flags : List Flag) : List String → Option (List (String × String))
  | [] => some []
  | ["--"] => some []
  | argument :: rest =>
    match spelledFlag? flags argument.toList with
    | none => none
    | some (name, some value) => do
      let others ← options? flags rest
      return (name, value) :: others
    | some (name, none) =>
      match rest with
      | [] => none
      | value :: rest =>
        if isValue value then do
          let others ← options? flags rest
          return (name, value) :: others
        else none

def distinctOptions? (flags : List Flag) (arguments : List String) :
    Option (List (String × String)) := do
  let given ← options? flags arguments
  if (given.map Prod.fst).Nodup then return given else none

def path? (value : String) : Option String :=
  if value.isEmpty then none else some value

def Command.ofArguments? : List String → Option Command
  | "gen" :: rest => do
    let given ← distinctOptions? [.input, .output, .target, .stem] rest
    let input ← path? (← given.lookup Flag.input.name)
    let directory ← path? ((given.lookup Flag.output.name).getD "output")
    let platform ← C.Platform.ofName? ((given.lookup Flag.target.name).getD "host")
    return generate input directory platform ((given.lookup Flag.stem.name).getD "alon")
  | "vectors" :: rest => do
    let given ← distinctOptions? [.input, .output] rest
    let input ← path? (← given.lookup Flag.input.name)
    match given.lookup Flag.output.name with
    | none => return vectors input none
    | some output => return vectors input (some (← path? output))
  | "plan" :: rest => do
    let given ← distinctOptions? [.input, .record] rest
    return plan (← path? (← given.lookup Flag.input.name)) (← given.lookup Flag.record.name)
  | "decode" :: rest => do
    let given ← distinctOptions? [.input, .record, .data] rest
    return decode (← path? (← given.lookup Flag.input.name)) (← given.lookup Flag.record.name)
      (← path? (← given.lookup Flag.data.name))
  | _ => none

end PackedRecord.Cli
