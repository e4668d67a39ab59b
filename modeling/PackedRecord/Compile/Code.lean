import PackedRecord.C.Platform
import PackedRecord.C.Release
import PackedRecord.C.Storage
import PackedRecord.Compile.Verify

/-!
# Compiling a schema

`compile` turns a schema that passes `verify` into C: a struct that holds the record, a reader, a
writer, a release function and the adapters of the platform.
-/

namespace PackedRecord

structure CompileOptions where
  stem : String := "alon"
  platform : C.Platform := .host

/-- The tag of a record's struct, with which its functions' names start too. -/
def CompileOptions.symbol (o : CompileOptions) (name : String) : String :=
  o.stem ++ "_" ++ name

structure Code where
  name : String
  storage : C.Storage
  reader : C.Function
  writer : C.Function
  release : C.Function
  adapters : Option (List C.Function)

namespace Code

def prototypes (functions : List C.Function) : String :=
  String.join (functions.map fun f => f.signature.prototype)

def definitions (functions : List C.Function) : String :=
  "\n".intercalate (functions.map C.Function.text)

def functions (c : Code) : List C.Function :=
  [c.reader, c.writer, c.release] ++ c.adapters.getD []

def header (c : Code) : String :=
  c.storage.text ++ "\n" ++ prototypes c.functions

def source (c : Code) : String :=
  definitions c.functions

end Code

def compile (name : String) (schema : Schema) (options : CompileOptions) :
    Except CompileError Code := do
  checkIdentifier options.stem
  verify name schema
  let symbol := options.symbol name
  let readPlan ← Plan.build schema.fields C.readerBase
  let writePlan ← Plan.build schema.fields C.writerBase
  return {
    name
    storage := ← C.storage symbol schema.fields
    reader := C.reader symbol readPlan
    writer := C.writer symbol writePlan
    release := ← C.release symbol schema.fields
    adapters := options.platform.adapters? symbol }

end PackedRecord
