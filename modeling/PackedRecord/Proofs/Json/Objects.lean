import PackedRecord.Json.Basic

/-!
# Members of JSON objects

An object that is built member by member holds under each key what was put there last.

* `get?_ofMembers`: under distinct keys every member is found.
-/

namespace PackedRecord

theorem mem_of_lookup {α : Type} {members : List (String × α)} {key : String} {value : α}
    (found : members.lookup key = some value) : (key, value) ∈ members := by
  obtain ⟨front, back, rfl, -⟩ := List.lookup_eq_some_iff.mp found
  simp

namespace Json

theorem lookup_cons_eq_ite (members : List (String × Json)) (key : String) (value : Json) (other : String) :
    ((key, value) :: members).lookup other = if other = key then some value else members.lookup other := by
  rw [List.lookup_cons]
  by_cases same : other = key
  · simp [same]
  · rw [beq_false_of_ne same, if_neg same]

theorem lookup_insert (members : List (String × Json)) (key : String) (value : Json) (other : String) :
    (insert members key value).lookup other = if other = key then some value else members.lookup other := by
  induction members with
  | nil => rw [insert, lookup_cons_eq_ite]
  | cons member members inductionHypothesis =>
    obtain ⟨k, v⟩ := member
    rw [insert]
    split
    · rw [lookup_cons_eq_ite]
    · split
      · rename_i replaced
        subst replaced
        rw [lookup_cons_eq_ite, lookup_cons_eq_ite]
        split <;> rfl
      · rename_i different
        rw [lookup_cons_eq_ite, lookup_cons_eq_ite, inductionHypothesis]
        by_cases same : other = k
        · subst same
          rw [if_pos rfl, if_neg (Ne.symm different), if_pos rfl]
        · rw [if_neg same, if_neg same]

/-- Keys that are put in do not change what stands under another key. -/
theorem lookup_foldl_insert_of_fresh {members : List (String × Json)} {key : String}
    (fresh : key ∉ members.map Prod.fst) (before : List (String × Json)) :
    (members.foldl (fun acc (key, value) => insert acc key value) before).lookup key = before.lookup key := by
  induction members generalizing before with
  | nil => rfl
  | cons member members inductionHypothesis =>
    simp only [List.map_cons, List.mem_cons, not_or] at fresh
    rw [List.foldl_cons, inductionHypothesis fresh.2, lookup_insert, if_neg fresh.1]

theorem get?_ofMembers {members : List (String × Json)} (distinct : (members.map Prod.fst).Nodup)
    {key : String} {value : Json} (listed : (key, value) ∈ members) :
    (ofMembers members).get? key = some value := by
  rw [ofMembers, get?]
  generalize ([] : List (String × Json)) = before
  induction members generalizing before with
  | nil => cases listed
  | cons member members inductionHypothesis =>
    obtain ⟨fresh, distinct⟩ := List.nodup_cons.mp distinct
    rw [List.foldl_cons]
    rcases List.mem_cons.mp listed with rfl | listed
    · rw [lookup_foldl_insert_of_fresh fresh, lookup_insert, if_pos rfl]
    · exact inductionHypothesis distinct listed _

end Json

end PackedRecord
