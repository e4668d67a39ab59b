import PackedRecord.Plan.Read

/-!
# Filling a record by paths

A record is filled member by member, each at its path from the root, and structs on the way come
into being when they are first needed.

* `insertMembers_enter`: filling a struct that is not there yet, member by member, is to put the
  whole struct there.
* `insertMembers_empty`: so an empty record ends up with exactly the members, in order.
-/

namespace PackedRecord.Value

/-- Neither of two paths leads through the other. -/
def Apart (path other : List String) : Prop :=
  ¬ path <+: other ∧ ¬ other <+: path

/-! ## Members of one struct -/

@[simp]
theorem lookup_setMember (members : List (String × Value)) (name : String) (v : Value) :
    (setMember members name v).lookup name = some v := by
  induction members with
  | nil => simp [setMember]
  | cons member members inductionHypothesis =>
    obtain ⟨other, w⟩ := member
    by_cases same : other = name
    · simp [setMember, same]
    · simp [setMember, same, List.lookup_cons, beq_false_of_ne (Ne.symm same), inductionHypothesis]

@[simp]
theorem setMember_setMember (members : List (String × Value)) (name : String) (v w : Value) :
    setMember (setMember members name v) name w = setMember members name w := by
  induction members with
  | nil => simp [setMember]
  | cons member members inductionHypothesis =>
    obtain ⟨other, _⟩ := member
    by_cases same : other = name
    · simp [setMember, same]
    · simp [setMember, same, inductionHypothesis]

theorem setMember_of_fresh {members : List (String × Value)} {name : String}
    (fresh : name ∉ members.map Prod.fst) (v : Value) :
    setMember members name v = members ++ [(name, v)] := by
  induction members with
  | nil => rfl
  | cons member members inductionHypothesis =>
    obtain ⟨other, w⟩ := member
    simp only [List.map_cons, List.mem_cons, not_or] at fresh
    simp [setMember, Ne.symm fresh.1, inductionHypothesis fresh.2]

/-- The next of some distinct names is a new one, and stays distinct from those after it. -/
theorem fresh_of_nodup {names others : List String} {name : String}
    (distinct : (names ++ name :: others).Nodup) :
    name ∉ names ∧ (names ++ [name] ++ others).Nodup := by
  rw [List.append_cons] at distinct
  refine ⟨fun listed => ?_, distinct⟩
  rw [List.append_assoc, List.nodup_append] at distinct
  exact distinct.2.2 name listed name List.mem_cons_self rfl

theorem lookup_of_fresh {members : List (String × Value)} {name : String}
    (fresh : name ∉ members.map Prod.fst) : members.lookup name = none := by
  rw [List.lookup_eq_none_iff]
  intro member listed
  rw [bne_iff_ne]
  rintro rfl
  exact fresh (List.mem_map_of_mem listed)

/-! ## The struct at a path -/

theorem getPath?_append (record : Value) (path more : List String) :
    record.getPath? (path ++ more) = (record.getPath? path).bind (·.getPath? more) := by
  induction path generalizing record with
  | nil => rfl
  | cons name path inductionHypothesis =>
    simp only [List.cons_append, getPath?, Option.bind_eq_bind]
    cases record.get? name with
    | none => rfl
    | some inner => exact inductionHypothesis inner

/-- The members of the struct at a path, which has none yet if it is not there. -/
def membersAt? : Value → List String → Option (List (String × Value))
  | struct members, [] => some members
  | struct members, name :: rest => ((members.lookup name).getD (struct [])).membersAt? rest
  | _, _ => none

/-- A path from a struct goes on from the member that it names. -/
theorem insertPath_cons (members : List (String × Value)) (first : String) (path : List String)
    (name : String) (v : Value) :
    (struct members).insertPath (first :: (path ++ [name])) v =
      struct (setMember members first
        (((members.lookup first).getD (struct [])).insertPath (path ++ [name]) v)) := by
  rw [insertPath]
  · rfl
  · simp

theorem membersAt?_insertPath {record : Value} {path : List String} {members : List (String × Value)}
    (opened : record.membersAt? path = some members) {name : String}
    (fresh : name ∉ members.map Prod.fst) (v : Value) :
    (record.insertPath (path ++ [name]) v).membersAt? path = some (members ++ [(name, v)]) := by
  induction path generalizing record with
  | nil =>
    cases record with
    | struct outer =>
      cases opened
      simp [insertPath, set, membersAt?, setMember_of_fresh fresh]
    | _ => cases opened
  | cons first path inductionHypothesis =>
    cases record with
    | struct outer =>
      rw [List.cons_append, insertPath_cons, membersAt?, lookup_setMember]
      exact inductionHypothesis opened
    | _ => cases opened

theorem membersAt?_enter {record : Value} {path : List String} {members : List (String × Value)}
    (opened : record.membersAt? path = some members) {name : String}
    (fresh : name ∉ members.map Prod.fst) : record.membersAt? (path ++ [name]) = some [] := by
  induction path generalizing record with
  | nil =>
    cases record with
    | struct outer =>
      cases opened
      simp [membersAt?, lookup_of_fresh fresh]
    | _ => cases opened
  | cons first path inductionHypothesis =>
    cases record with
    | struct outer => exact inductionHypothesis opened
    | _ => cases opened

/-! ## Filling a struct -/

/-- Puts members into the struct at a path, one after the other. -/
def insertMembers (record : Value) (path : List String) (members : List (String × Value)) : Value :=
  members.foldl (fun record member => record.insertPath (path ++ [member.1]) member.2) record

theorem insertMembers_root {old members : List (String × Value)}
    (distinct : ((old ++ members).map Prod.fst).Nodup) :
    (struct old).insertMembers [] members = struct (old ++ members) := by
  induction members generalizing old with
  | nil => simp [insertMembers]
  | cons member members inductionHypothesis =>
    rw [List.map_append, List.map_cons] at distinct
    obtain ⟨fresh, distinctRest⟩ := fresh_of_nodup distinct
    rw [List.append_cons, ← inductionHypothesis (by simpa using distinctRest),
      ← setMember_of_fresh fresh]
    rfl

theorem insertMembers_empty {members : List (String × Value)}
    (distinct : (members.map Prod.fst).Nodup) :
    (struct []).insertMembers [] members = struct members :=
  insertMembers_root distinct

theorem insertMembers_cons (outer : List (String × Value)) (first : String) (path : List String)
    {members : List (String × Value)} (nonempty : members ≠ []) :
    (struct outer).insertMembers (first :: path) members =
      struct (setMember outer first
        (((outer.lookup first).getD (struct [])).insertMembers path members)) := by
  induction members generalizing outer with
  | nil => exact absurd rfl nonempty
  | cons member members inductionHypothesis =>
    simp only [insertMembers, List.foldl_cons, List.cons_append, insertPath_cons]
    cases members with
    | nil => rfl
    | cons next others =>
      have rest := inductionHypothesis (setMember outer first
        (((outer.lookup first).getD (struct [])).insertPath (path ++ [member.1]) member.2)) (by simp)
      rw [lookup_setMember, setMember_setMember] at rest
      exact rest

/-- Filling a struct under a new name, member by member, is to put the struct there. -/
theorem insertMembers_enter {record : Value} {path : List String} {outer : List (String × Value)}
    (opened : record.membersAt? path = some outer) {name : String}
    (fresh : name ∉ outer.map Prod.fst) {members : List (String × Value)} (nonempty : members ≠ [])
    (distinct : (members.map Prod.fst).Nodup) :
    record.insertMembers (path ++ [name]) members = record.insertPath (path ++ [name]) (struct members) := by
  induction path generalizing record with
  | nil =>
    cases record with
    | struct old =>
      cases opened
      rw [List.nil_append, insertMembers_cons _ _ _ nonempty, lookup_of_fresh fresh, Option.getD_none,
        insertMembers_empty distinct]
      rfl
    | _ => cases opened
  | cons first path inductionHypothesis =>
    cases record with
    | struct old =>
      rw [List.cons_append, insertMembers_cons _ _ _ nonempty, insertPath_cons, inductionHypothesis opened]
    | _ => cases opened

end PackedRecord.Value
