import PackedRecord.C.Codec

/-!
# Platforms

The environments that the generated code can be built for.  A platform decides what the memory
functions are, and whether there are adapters from its own parameter types.
-/

namespace PackedRecord.C

inductive Platform where
  | host
  | solana
  deriving DecidableEq

namespace Platform

def name : Platform → String
  | host => "host"
  | solana => "solana"

def ofName? (name : String) : Option Platform :=
  [host, solana].find? fun platform => platform.name = name

def includes : Platform → List String
  | host => ["stddef.h", "stdint.h", "stdlib.h", "string.h"]
  | solana => ["solana_sdk.h"]

/-- The memory functions of a platform: a name, and the parameters with what they stand for. -/
def hooks : Platform → List (String × String)
  | host => [
    ("alon_memcpy", "(dst, src, n) memcpy((dst), (src), (n))"),
    ("alon_alloc", "(n) ((char *)calloc((n), 1))"),
    ("alon_free", "(p) free(p)"),
    ("alon_strlen", "(s) strlen(s)")]
  | solana => [
    ("alon_memcpy", "(dst, src, n) sol_memcpy((dst), (src), (n))"),
    ("alon_alloc", "(n) ((char *)sol_calloc((n), char))"),
    ("alon_free", "(p) sol_free(p)"),
    ("alon_strlen", "(s) sol_strlen(s)")]

/-- A memory function can be defined otherwise before the header is read. -/
def hookText (hook : String × String) : String :=
  "#ifndef " ++ hook.1 ++ "\n#define " ++ hook.1 ++ hook.2 ++ "\n#endif\n"

def prelude (p : Platform) : String :=
  "#pragma once\n\n"
    ++ String.join (p.includes.map fun header => "#include <" ++ header ++ ">\n") ++ "\n"
    ++ String.join (p.hooks.map hookText) ++ "\n"
    ++ String.join (Status.all.map fun s =>
      "#define " ++ s.macroName ++ " " ++ toString s.code ++ "\n")

end Platform

def unknownPlatform (name : String) : String :=
  "Unknown target " ++ Text.quoted name ++ ", expected \"host\" or \"solana\""

/-- The functions that read a record from an account, write it to one, and read it from the data of
an instruction.  Each hands the platform's buffer on. -/
def adapterFunctions (symbol : String) : List Function :=
  let record := "struct " ++ symbol ++ " *"
  let account := ["account->data", "account->data_len"]
  let params := ["params->data", "params->data_len"]
  let accountParameter := "SolAccountInfo *account"
  [ { signature := ⟨"int", symbol ++ "_deserialize_account",
        ["const " ++ accountParameter, record ++ readerBase]⟩
      body := [.forward (readerSignature symbol).name (account ++ [readerBase])] },
    { signature := ⟨"int", symbol ++ "_serialize_account",
        ["const " ++ record ++ writerBase, accountParameter]⟩
      body := [.forward (writerSignature symbol).name (writerBase :: account)] },
    { signature := ⟨"int", symbol ++ "_deserialize_instruction",
        ["const SolParameters *params", record ++ readerBase]⟩
      body := [.forward (readerSignature symbol).name (params ++ [readerBase])] } ]

def Platform.adapters? (p : Platform) (symbol : String) : Option (List Function) :=
  match p with
  | .host => none
  | .solana => some (adapterFunctions symbol)

end PackedRecord.C
