import PackedRecord.Bytes.Memory
import PackedRecord.C.Syntax
import PackedRecord.Compile.Error

/-!
# Generated release functions

`release` gives back every text that a reader has allocated.  An optional text that is absent is a
null pointer, and giving that back does nothing.  All texts are listed before the first is given
back, so there must be memory for that list.
-/

namespace PackedRecord.C

def releaseBase : String := "x"

mutual

/-- The pointers that a field of this name owns. -/
def ownedBy (scope : Scope) (name : String) : FieldType → List Lvalue
  | .text => [.field ⟨scope, name⟩]
  | .option .text => [.field ⟨scope, name⟩]
  | .array .text count =>
    (List.range count.toNat).map fun i => .item ⟨scope, name⟩ (.literal i)
  | .struct fields => ownedIn (scope.enter name) fields
  | _ => []

def ownedIn (scope : Scope) : List Field → List Lvalue
  | [] => []
  | (name, ty) :: rest => ownedBy scope name ty ++ ownedIn scope rest

end

mutual

def ownedCount : FieldType → Nat
  | .text => 1
  | .option .text => 1
  | .array .text count => count.toNat
  | .struct fields => ownedCountIn fields
  | _ => 0

def ownedCountIn : List Field → Nat
  | [] => 0
  | (_, ty) :: rest => ownedCount ty + ownedCountIn rest

end

/-- The most pointers that can be listed: the name of each takes three words. -/
def maxOwned : Nat := maxElements 24

def releaseStmts (fields : List Field) : List Stmt :=
  match ownedIn { base := releaseBase } fields with
  | [] => [.discard releaseBase]
  | owned => owned.map .free

def releaseSignature (symbol : String) : Signature where
  result := "void"
  name := symbol ++ "_release"
  parameters := ["struct " ++ symbol ++ " *" ++ releaseBase]

def release (symbol : String) (fields : List Field) : Except CompileError Function :=
  if ownedCountIn fields ≤ maxOwned then .ok ⟨releaseSignature symbol, releaseStmts fields⟩
  else .error .capacityOverflow

theorem release_of_le {fields : List Field} (listed : ownedCountIn fields ≤ maxOwned) (symbol : String) :
    release symbol fields = .ok ⟨releaseSignature symbol, releaseStmts fields⟩ :=
  if_pos listed

theorem release_of_lt {fields : List Field} (overflows : maxOwned < ownedCountIn fields) (symbol : String) :
    release symbol fields = .error .capacityOverflow :=
  if_neg (Nat.not_le_of_lt overflows)

end PackedRecord.C
