/-!
# Memory

A program cannot ask for a block of memory of more than `maxBlock` bytes.  What needs a larger one,
be it a buffer or a list with too many elements, is not built at all.
-/

namespace PackedRecord

/-- The most bytes that one block of memory can have. -/
def maxBlock : Nat := 0x7FFFFFFFFFFFFFFF

/-- The most elements of `size` bytes that one list can have. -/
def maxElements (size : Nat) : Nat :=
  maxBlock / size

end PackedRecord
