import PackedRecord.Compile.Code
import PackedRecord.Manifest.Error

/-!
# Bundles

One header and one source for all records of a manifest.
-/

namespace PackedRecord

/-- A header and a source that belong together. -/
structure Bundle where
  stem : String
  header : String
  source : String

namespace Bundle

def headerName (b : Bundle) : String := b.stem ++ ".h"

def sourceName (b : Bundle) : String := b.stem ++ ".c"

def codes (m : Manifest) (options : CompileOptions) : Except CompileError (List Code) :=
  m.cases.mapM fun c => compile c.name c.definition options

def build (m : Manifest) (options : CompileOptions) : Except Error Bundle := do
  let compiled ← (codes m options).mapError .compile
  return {
    stem := options.stem
    header := options.platform.prelude ++ String.join (compiled.map fun c => "\n" ++ c.header)
    source := "#include \"" ++ options.stem ++ ".h\"\n"
      ++ String.join (compiled.map fun c => "\n" ++ c.source) }

end Bundle

end PackedRecord
