import PackedRecord.Plan.Place

/-!
# The state of laying out a record

While the fields of a record are walked in order, positions are known in advance until the first
field of variable width.  From then on a cursor keeps them at run time, and there is no way back.
-/

namespace PackedRecord

/-- The largest position or size that is written as a C literal. -/
def maxLiteral : Nat := 0x7FFFFFFFFFFFFFFF

inductive Access where
  | static (offset : Nat)
  | cursor
  deriving DecidableEq

structure LayoutState where
  staticOffset : Nat := 0
  dynamic : Bool := false
  scope : Scope

namespace LayoutState

def start (base : String) : LayoutState :=
  { scope := { base } }

/-- Places a field of fixed width, unless its size or end is past the largest literal. -/
def advance? (s : LayoutState) (width : Nat) : Option (Access × LayoutState) :=
  if maxLiteral < width then none
  else if s.dynamic then some (.cursor, s)
  else if maxLiteral < s.staticOffset + width then none
  else some (.static s.staticOffset, { s with staticOffset := s.staticOffset + width })

/-- Goes over to the cursor.  The first time this gives the position at which the cursor starts. -/
def goDynamic (s : LayoutState) : Option Nat × LayoutState :=
  if s.dynamic then (none, s)
  else (some s.staticOffset, { s with dynamic := true })

def descend (s : LayoutState) (name : String) : LayoutState :=
  { s with scope := s.scope.enter name }

def ascend (s : LayoutState) : LayoutState :=
  { s with scope := s.scope.parent }

end LayoutState

end PackedRecord
