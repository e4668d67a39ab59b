/-!
# Places in a record

A `Scope` is the struct that is being laid out, as the way to it from the base pointer of the
generated function.  A `Place` is a field in such a scope.  Both have the text by which C names
them.
-/

namespace PackedRecord

structure Scope where
  base : String
  /-- Member names below the base, outermost first. -/
  members : List String := []
  deriving DecidableEq

namespace Scope

def enter (s : Scope) (name : String) : Scope :=
  { s with members := s.members ++ [name] }

def parent (s : Scope) : Scope :=
  { s with members := s.members.dropLast }

def depth (s : Scope) : Nat :=
  s.members.length

/-- The C text of a field in this scope.  The base is a pointer, so the first step is an arrow and
the others are dots. -/
def resolve (s : Scope) (field : String) : String :=
  s.base ++ "->" ++ ".".intercalate (s.members ++ [field])

end Scope

structure Place where
  scope : Scope
  name : String
  deriving DecidableEq

namespace Place

def text (p : Place) : String :=
  p.scope.resolve p.name

/-- A member of the field, where that is stored as a struct. -/
def member (p : Place) (name : String) : Place :=
  ⟨p.scope.enter p.name, name⟩

def path (p : Place) : List String :=
  p.scope.members ++ [p.name]

def dotted (p : Place) : String :=
  ".".intercalate p.path

end Place

end PackedRecord
