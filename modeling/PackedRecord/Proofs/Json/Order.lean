import Mathlib.Data.List.Sort
import PackedRecord.Proofs.Json.Numbers
import PackedRecord.Proofs.Json.Objects

/-!
# Objects in key order

An object is a list of members here, and the same members could be listed in many ways.  Objects that
are read or built list them in one way only: in the order of their keys, with no key twice.

* `ordered_of_parse`: so does every object in a value that was read from text.
* `KeyOrder.ext`: such an object is no more than what stands under its keys.
-/

namespace PackedRecord.Json

/-- Members in the order of their keys, no key twice. -/
def KeyOrder (members : List (String × Json)) : Prop :=
  members.Pairwise fun a b => a.1 < b.1

mutual

/-- Every object in a value lists its members in key order. -/
def Ordered : Json → Prop
  | null | bool _ | number _ | string _ => True
  | array items => OrderedIn items
  | object members => KeyOrder members ∧ OrderedOf members

def OrderedIn : List Json → Prop
  | [] => True
  | item :: rest => item.Ordered ∧ OrderedIn rest

def OrderedOf : List (String × Json) → Prop
  | [] => True
  | (_, value) :: rest => value.Ordered ∧ OrderedOf rest

end

theorem orderedIn_iff {items : List Json} : OrderedIn items ↔ ∀ item ∈ items, item.Ordered := by
  induction items with
  | nil => simp [OrderedIn]
  | cons item items inductionHypothesis => simp [OrderedIn, inductionHypothesis]

theorem orderedOf_iff {members : List (String × Json)} :
    OrderedOf members ↔ ∀ member ∈ members, member.2.Ordered := by
  induction members with
  | nil => simp [OrderedOf]
  | cons member members inductionHypothesis => simp [OrderedOf, inductionHypothesis]

/-! ## Objects that are read -/

theorem eq_or_mem_of_mem_insert {members : List (String × Json)} {key : String} {value : Json}
    {member : String × Json} (listed : member ∈ insert members key value) :
    member = (key, value) ∨ member ∈ members := by
  induction members with
  | nil => simpa [insert] using listed
  | cons head members inductionHypothesis =>
    obtain ⟨k, v⟩ := head
    rw [insert] at listed
    split at listed
    · simpa using listed
    · split at listed
      · rcases List.mem_cons.mp listed with same | listed
        · exact .inl same
        · exact .inr (List.mem_cons_of_mem _ listed)
      · rcases List.mem_cons.mp listed with same | listed
        · exact .inr (List.mem_cons.mpr (.inl same))
        · exact (inductionHypothesis listed).imp_right (List.mem_cons_of_mem _)

theorem keyOrder_insert {members : List (String × Json)} (sorted : KeyOrder members) (key : String)
    (value : Json) : KeyOrder (insert members key value) := by
  induction members with
  | nil => exact List.pairwise_singleton _ _
  | cons head members inductionHypothesis =>
    obtain ⟨k, v⟩ := head
    obtain ⟨above, rest⟩ := List.pairwise_cons.mp sorted
    rw [insert]
    split
    · rename_i before
      refine List.pairwise_cons.mpr ⟨?_, sorted⟩
      refine List.forall_mem_cons.mpr ⟨before, fun member listed => ?_⟩
      exact String.lt_trans before (above member listed)
    · split
      · rename_i same
        subst same
        exact List.pairwise_cons.mpr ⟨above, rest⟩
      · rename_i notBefore different
        refine List.pairwise_cons.mpr ⟨fun member listed => ?_, inductionHypothesis rest⟩
        rcases eq_or_mem_of_mem_insert listed with rfl | listed
        · grind
        · exact above member listed

theorem inherited_ordered : Inherited Ordered fun members => KeyOrder members ∧ OrderedOf members where
  null := trivial
  bool _ := trivial
  string _ := trivial
  number _ _ := trivial
  array _ every := orderedIn_iff.mpr every
  empty := ⟨.nil, trivial⟩
  insert members key value before added := by
    refine ⟨keyOrder_insert before.1 key value, orderedOf_iff.mpr fun member listed => ?_⟩
    rcases eq_or_mem_of_mem_insert listed with rfl | listed
    · exact added
    · exact orderedOf_iff.mp before.2 member listed
  object _ every := every

/-- Whatever a text spells has its objects in key order. -/
theorem ordered_of_parse {text : String} {raw : Json} (read : parse text = .ok raw) : raw.Ordered :=
  (gives_value inherited_ordered depthLimit).readWhole read

/-! ## What stands under a key -/

theorem KeyOrder.mem_iff_lookup {members : List (String × Json)} (sorted : KeyOrder members) {key : String}
    {value : Json} : (key, value) ∈ members ↔ members.lookup key = some value := by
  induction members with
  | nil => simp
  | cons head members inductionHypothesis =>
    obtain ⟨k, v⟩ := head
    obtain ⟨above, rest⟩ := List.pairwise_cons.mp sorted
    rw [List.mem_cons, lookup_cons_eq_ite, inductionHypothesis rest]
    by_cases same : key = k
    · subst same
      have alone : members.lookup key = none := by
        rw [List.lookup_eq_none_iff]
        intro member listed
        have := above member listed
        grind
      simp [alone, eq_comm]
    · simp [same]

/-- An object in key order is given by what stands under its keys. -/
theorem KeyOrder.ext {members members' : List (String × Json)} (sorted : KeyOrder members)
    (sorted' : KeyOrder members') (same : ∀ key, members.lookup key = members'.lookup key) :
    members = members' := by
  have antisymm : Std.Antisymm fun a b : String × Json => a.1 < b.1 :=
    ⟨fun a b less greater => absurd greater (String.lt_asymm less)⟩
  have irrefl : Std.Irrefl fun a b : String × Json => a.1 < b.1 := ⟨fun a => String.lt_irrefl a.1⟩
  refine List.Pairwise.eq_of_mem_iff sorted sorted' fun member => ?_
  obtain ⟨key, value⟩ := member
  rw [sorted.mem_iff_lookup, sorted'.mem_iff_lookup, same]

end PackedRecord.Json
