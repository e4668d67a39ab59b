/-!
# JSON values

* `Json` is the value, `Numeral` its numbers: integers are kept apart from floats, because a field
  of an integer type takes the one and refuses the other.
* `Json.insert` puts a member into an object that is kept in key order, where a repeated key takes
  the place of the earlier one.  Objects that are read from text are built this way.  Objects that
  the library writes list their members in the order in which they are to be printed.
-/

namespace PackedRecord

inductive Numeral where
  | unsigned (n : UInt64)
  | negative (n : Int64)
  /-- Any other number, as the word of the nearest eight byte float. -/
  | float (word : UInt64)
  deriving DecidableEq

inductive Json where
  | null
  | bool (b : Bool)
  | number (n : Numeral)
  | string (s : String)
  | array (items : List Json)
  | object (members : List (String × Json))

namespace Json

instance : Inhabited Json := ⟨null⟩

def ofNat (n : Nat) : Json :=
  number (.unsigned n.toUInt64)

/-- The members of an object with one more, in key order.  A member of the same key is replaced. -/
def insert (members : List (String × Json)) (key : String) (value : Json) :
    List (String × Json) :=
  match members with
  | [] => [(key, value)]
  | (k, v) :: rest =>
    if key < k then (key, value) :: (k, v) :: rest
    else if key = k then (key, value) :: rest
    else (k, v) :: insert rest key value

/-- The object that holds the given members in key order; the last of a repeated key counts. -/
def ofMembers (members : List (String × Json)) : Json :=
  object (members.foldl (fun acc (key, value) => insert acc key value) [])

def get? : Json → String → Option Json
  | object members, key => members.lookup key
  | _, _ => none

/-- The integer that a value is, if it is one from zero on.  A float never counts as an integer. -/
def unsigned? : Json → Option UInt64
  | number (.unsigned n) => some n
  | _ => none

def string? : Json → Option String
  | string s => some s
  | _ => none

end Json

end PackedRecord
