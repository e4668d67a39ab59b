/-!
# Status codes

What a generated function returns: zero for success, or one of the faults.
-/

namespace PackedRecord

/-- Why a generated function gives up. -/
inductive Fault where
  | bufferTooShort
  | allocationFailure
  deriving DecidableEq

namespace Fault

def all : List Fault := [bufferTooShort, allocationFailure]

def code : Fault → Nat
  | bufferTooShort => 1
  | allocationFailure => 2

def macroName : Fault → String
  | bufferTooShort => "ALON_ERR_BUFFER_TOO_SHORT"
  | allocationFailure => "ALON_ERR_ALLOC"

def message : Fault → String
  | bufferTooShort => "buffer too short"
  | allocationFailure => "allocation failed"

end Fault

/-- What a generated function returns. -/
inductive Status where
  | ok
  | fault (f : Fault)
  deriving DecidableEq

namespace Status

def all : List Status := ok :: Fault.all.map fault

def code : Status → Nat
  | ok => 0
  | fault f => f.code

def macroName : Status → String
  | ok => "ALON_OK"
  | fault f => f.macroName

end Status

end PackedRecord
