import Mathlib.Data.List.Induction
import Mathlib.Data.List.Nodup
import Mathlib.Data.List.Pairwise
import PackedRecord.Proofs.Value.Insertion

/-!
# Records built by paths

Values are put into an empty record at paths of which none leads through another one.  Structs come into being
on the way and are met again by later paths, at any depth.

* `insertPath_struct`: all that one insertion does to a struct.
* `names_insertPath`, `getPath?_insertPath_self`, `getPath?_insertPath_of_apart`: what an insertion adds on its
  way, what is at its end, and that it leaves everything aside of it alone.
* `filled_insertAll`: what holds of the record after any number of insertions.
* `insertAll_complete`: every value is found where it was put, and besides them there is nothing but their paths.
-/

namespace PackedRecord.Value

/-! ## Names on paths -/

/-- The name with which a path goes on behind another one, if it does. -/
def nextName? : (path whole : List String) → Option String
  | _, [] => none
  | [], name :: _ => some name
  | first :: path, name :: whole => if first = name then nextName? path whole else none

/-- The names with which paths go on behind another one, in the order in which they first occur. -/
def namesBelow (path : List String) (paths : List (List String)) : List String :=
  (paths.filterMap (nextName? path)).eraseDups

/-- Some names and another one behind them, if it is not there yet. -/
def addName (names : List String) (name : String) : List String :=
  if name ∈ names then names else names ++ [name]

theorem nextName?_eq_some_iff {path whole : List String} {name : String} :
    nextName? path whole = some name ↔ path ++ [name] <+: whole := by
  induction path generalizing whole with
  | nil =>
    cases whole with
    | nil => simp [nextName?]
    | cons first whole => simp [nextName?, eq_comm]
  | cons first path inductionHypothesis =>
    cases whole with
    | nil => simp [nextName?]
    | cons other whole =>
      rw [nextName?, List.cons_append, List.cons_prefix_cons]
      split
      · rename_i same
        rw [inductionHypothesis, and_iff_right same]
      · rename_i different
        simp [different]

theorem mem_namesBelow {path : List String} {paths : List (List String)} {name : String} :
    name ∈ namesBelow path paths ↔ ∃ whole ∈ paths, path ++ [name] <+: whole := by
  simp [namesBelow, nextName?_eq_some_iff]

theorem eraseDups_concat (names : List String) (name : String) :
    (names ++ [name]).eraseDups = addName names.eraseDups name := by
  rw [List.eraseDups_append, addName]
  by_cases listed : name ∈ names
  · simp [List.removeAll, listed]
  · simp [List.removeAll, listed, List.eraseDups_cons]

theorem namesBelow_concat (path : List String) (paths : List (List String)) (whole : List String) :
    namesBelow path (paths ++ [whole]) =
      (nextName? path whole).elim (namesBelow path paths) (addName (namesBelow path paths)) := by
  rw [namesBelow, List.filterMap_append]
  cases next : nextName? path whole with
  | none => simp [next, namesBelow]
  | some name => simp [next, namesBelow, eraseDups_concat]

theorem nodup_addName {names : List String} (distinct : names.Nodup) (name : String) : (addName names name).Nodup := by
  rw [addName]
  split
  · exact distinct
  · rename_i fresh
    rw [← List.concat_eq_append]
    exact distinct.concat fresh

theorem nodup_namesBelow (path : List String) (paths : List (List String)) : (namesBelow path paths).Nodup := by
  induction paths using List.reverseRecOn with
  | nil => exact List.nodup_nil
  | append_singleton paths whole inductionHypothesis =>
    rw [namesBelow_concat]
    cases nextName? path whole with
    | none => exact inductionHypothesis
    | some name => exact nodup_addName inductionHypothesis name

/-! ## One insertion -/

theorem names_setMember (members : List (String × Value)) (name : String) (v : Value) :
    (setMember members name v).map Prod.fst = addName (members.map Prod.fst) name := by
  induction members with
  | nil => rfl
  | cons member members inductionHypothesis =>
    obtain ⟨other, w⟩ := member
    by_cases same : other = name
    · simp [setMember, addName, same]
    · rw [setMember, if_neg same, List.map_cons, inductionHypothesis]
      simp only [addName, List.map_cons, List.mem_cons, Ne.symm same, false_or]
      split <;> rfl

theorem lookup_setMember_of_ne {name other : String} (different : other ≠ name) (members : List (String × Value))
    (v : Value) : (setMember members name v).lookup other = members.lookup other := by
  induction members with
  | nil => simp [setMember, List.lookup_cons, beq_false_of_ne different]
  | cons member members inductionHypothesis =>
    obtain ⟨first, w⟩ := member
    by_cases same : first = name
    · simp [setMember, same, List.lookup_cons, beq_false_of_ne different]
    · simp [setMember, same, List.lookup_cons, inductionHypothesis]

/-- An insertion into a struct sets one member of it: to the value, if the path ends there, and otherwise to what
an insertion makes of the member or of an empty struct. -/
theorem insertPath_struct (members : List (String × Value)) (first : String) (rest : List String) (v : Value) :
    ∃ inner, (struct members).insertPath (first :: rest) v = struct (setMember members first inner) ∧
      (rest = [] → inner = v) ∧
      (rest ≠ [] → inner = ((members.lookup first).getD (struct [])).insertPath rest v) := by
  cases rest with
  | nil => exact ⟨v, rfl, fun _ => rfl, fun nonempty => absurd rfl nonempty⟩
  | cons name rest => exact ⟨_, rfl, nofun, fun _ => rfl⟩

/-- What an insertion adds to a struct on its way, or would add if the struct was there. -/
theorem names_insertPath {record : Value} {path : List String} {members : List (String × Value)}
    (opened : record.membersAt? path = some members) {whole : List String} (short : ¬ whole <+: path) (v : Value) :
    ∃ later, (record.insertPath whole v).membersAt? path = some later ∧
      later.map Prod.fst = (nextName? path whole).elim (members.map Prod.fst) (addName (members.map Prod.fst)) := by
  induction path generalizing record whole with
  | nil =>
    cases whole with
    | nil => exact absurd List.nil_prefix short
    | cons first rest =>
      cases record with
      | struct outer =>
        cases opened
        obtain ⟨inner, inserted, -⟩ := insertPath_struct members first rest v
        exact ⟨_, by rw [inserted, membersAt?], names_setMember members first inner⟩
      | _ => cases opened
  | cons name path inductionHypothesis =>
    cases whole with
    | nil => exact absurd List.nil_prefix short
    | cons first rest =>
      cases record with
      | struct outer =>
        obtain ⟨inner, inserted, -, further⟩ := insertPath_struct outer first rest v
        rw [inserted, membersAt?]
        by_cases same : name = first
        · subst same
          have nonempty : rest ≠ [] := by
            rintro rfl
            exact short (by simp)
          rw [lookup_setMember, further nonempty, nextName?, if_pos rfl]
          exact inductionHypothesis opened fun ends => short (List.cons_prefix_cons.mpr ⟨rfl, ends⟩)
        · rw [lookup_setMember_of_ne same, nextName?, if_neg same]
          exact ⟨members, opened, rfl⟩
      | _ => cases opened

theorem getPath?_insertPath_self {record : Value} {path : List String} {members : List (String × Value)}
    (opened : record.membersAt? path = some members) (name : String) (v : Value) :
    (record.insertPath (path ++ [name]) v).getPath? (path ++ [name]) = some v := by
  induction path generalizing record with
  | nil =>
    cases record with
    | struct outer => simp [insertPath, set, getPath?, get?]
    | _ => cases opened
  | cons first path inductionHypothesis =>
    cases record with
    | struct outer =>
      rw [List.cons_append, insertPath_cons, getPath?, get?, lookup_setMember]
      exact inductionHypothesis opened
    | _ => cases opened

theorem getPath?_insertPath_of_apart {whole other : List String} (apart : Apart whole other) (record v : Value) :
    (record.insertPath whole v).getPath? other = record.getPath? other := by
  induction whole generalizing record other with
  | nil => exact absurd List.nil_prefix apart.1
  | cons first rest inductionHypothesis =>
    cases other with
    | nil => exact absurd List.nil_prefix apart.2
    | cons name path =>
      cases record with
      | struct outer =>
        obtain ⟨inner, inserted, -, further⟩ := insertPath_struct outer first rest v
        rw [inserted, getPath?, getPath?, get?, get?]
        by_cases same : name = first
        · subst same
          have apart : Apart rest path := by simpa [Apart] using apart
          have nonempty : rest ≠ [] := by
            rintro rfl
            exact apart.1 List.nil_prefix
          rw [lookup_setMember, further nonempty]
          have aside := inductionHypothesis apart ((outer.lookup name).getD (struct []))
          cases found : outer.lookup name with
          | some w => simpa [found] using aside
          | none =>
            cases path with
            | nil => exact absurd List.nil_prefix apart.2
            | cons next path => simpa [found, getPath?, get?] using aside
        · rw [lookup_setMember_of_ne same]
      | _ => cases rest <;> rfl

/-! ## Any number of insertions -/

/-- Puts values at paths, one after the other. -/
def insertAll (record : Value) (entries : List (List String × Value)) : Value :=
  entries.foldl (fun record entry => record.insertPath entry.1 entry.2) record

/-- What insertions make of an empty record: the values are there, and every struct that is not within one of them
has just the members that paths go through. -/
structure Filled (entries : List (List String × Value)) (record : Value) : Prop where
  values : ∀ entry ∈ entries, record.getPath? entry.1 = some entry.2
  names : ∀ path, (∀ entry ∈ entries, ¬ entry.1 <+: path) → ∃ members, record.membersAt? path = some members ∧
    members.map Prod.fst = namesBelow path (entries.map Prod.fst)

theorem membersAt?_empty (path : List String) : (struct []).membersAt? path = some [] := by
  induction path with
  | nil => rfl
  | cons name path inductionHypothesis => exact inductionHypothesis

theorem Filled.insertPath {entries : List (List String × Value)} {record : Value} (filled : Filled entries record)
    {whole : List String} (nonempty : whole ≠ []) (apart : ∀ entry ∈ entries, Apart entry.1 whole) (v : Value) :
    Filled (entries ++ [(whole, v)]) (record.insertPath whole v) where
  values := by
    intro entry listed
    rcases List.mem_append.mp listed with earlier | last
    · rw [getPath?_insertPath_of_apart (apart entry earlier).symm, filled.values entry earlier]
    · obtain rfl := List.mem_singleton.mp last
      obtain ⟨path, name, rfl⟩ := List.eq_nil_or_concat' whole |>.resolve_left nonempty
      have clear : ∀ entry ∈ entries, ¬ entry.1 <+: path := fun entry earlier inside =>
        (apart entry earlier).1 (inside.trans (List.prefix_append ..))
      obtain ⟨members, opened, -⟩ := filled.names path clear
      exact getPath?_insertPath_self opened name v
  names := by
    intro path clear
    have before : ∀ entry ∈ entries, ¬ entry.1 <+: path := fun entry earlier =>
      clear entry (List.mem_append_left _ earlier)
    obtain ⟨members, opened, named⟩ := filled.names path before
    obtain ⟨later, reopened, renamed⟩ := names_insertPath opened (clear (whole, v) (by simp)) v
    refine ⟨later, reopened, ?_⟩
    rw [renamed, List.map_append, List.map_singleton, namesBelow_concat, named]

theorem filled_insertAll {entries : List (List String × Value)} (nonempty : ∀ entry ∈ entries, entry.1 ≠ [])
    (apart : entries.Pairwise fun a b => Apart a.1 b.1) : Filled entries ((struct []).insertAll entries) := by
  induction entries using List.reverseRecOn with
  | nil => exact ⟨by simp, fun path _ => ⟨[], membersAt?_empty path, rfl⟩⟩
  | append_singleton entries entry inductionHypothesis =>
    rw [List.forall_mem_append] at nonempty
    rw [List.pairwise_append] at apart
    have filled := inductionHypothesis nonempty.1 apart.1
    rw [insertAll, List.foldl_append]
    exact filled.insertPath (nonempty.2 entry (by simp)) (fun earlier listed => apart.2.2 earlier listed entry (by simp))
      entry.2

/-! ## Repeated names -/

mutual

/-- No struct in the value has two members of one name. -/
def DistinctNames : Value → Prop
  | array items => DistinctNamesIn items
  | present inner => inner.DistinctNames
  | struct members => (members.map Prod.fst).Nodup ∧ DistinctNamesOf members
  | enum _ payload => payload.DistinctNames
  | scalar _ | text _ | bytes _ | absent => True

def DistinctNamesIn : List Value → Prop
  | [] => True
  | item :: rest => item.DistinctNames ∧ DistinctNamesIn rest

def DistinctNamesOf : List (String × Value) → Prop
  | [] => True
  | (_, v) :: rest => v.DistinctNames ∧ DistinctNamesOf rest

end

theorem DistinctNamesOf.lookup {members : List (String × Value)} (each : DistinctNamesOf members) {name : String}
    {v : Value} (found : members.lookup name = some v) : v.DistinctNames := by
  induction members with
  | nil => cases found
  | cons member members inductionHypothesis =>
    obtain ⟨other, w⟩ := member
    rw [List.lookup_cons] at found
    split at found
    · cases found
      exact each.1
    · exact inductionHypothesis each.2 found

theorem DistinctNamesOf.setMember {members : List (String × Value)} (each : DistinctNamesOf members) (name : String)
    {v : Value} (distinct : v.DistinctNames) : DistinctNamesOf (setMember members name v) := by
  induction members with
  | nil => exact ⟨distinct, trivial⟩
  | cons member members inductionHypothesis =>
    obtain ⟨other, w⟩ := member
    rw [Value.setMember]
    split
    · exact ⟨distinct, each.2⟩
    · exact ⟨each.1, inductionHypothesis each.2⟩

theorem DistinctNames.getPath? {record v : Value} (distinct : record.DistinctNames) {path : List String}
    (found : record.getPath? path = some v) : v.DistinctNames := by
  induction path generalizing record with
  | nil =>
    cases found
    exact distinct
  | cons name path inductionHypothesis =>
    obtain ⟨inner, member, further⟩ := Option.bind_eq_some_iff.mp found
    cases record with
    | struct members => exact inductionHypothesis (distinct.2.lookup member) further
    | _ => cases member

theorem DistinctNames.insertPath {record : Value} (distinct : record.DistinctNames) (path : List String) {v : Value}
    (inside : v.DistinctNames) : (record.insertPath path v).DistinctNames := by
  induction path generalizing record with
  | nil => exact distinct
  | cons first rest inductionHypothesis =>
    cases record with
    | struct members =>
      obtain ⟨inner, inserted, ends, further⟩ := insertPath_struct members first rest v
      have innerDistinct : inner.DistinctNames := by
        by_cases last : rest = []
        · exact ends last ▸ inside
        · rw [further last]
          apply inductionHypothesis
          cases found : members.lookup first with
          | none => exact ⟨List.nodup_nil, trivial⟩
          | some w => exact distinct.2.lookup found
      rw [inserted]
      refine ⟨?_, distinct.2.setMember first innerDistinct⟩
      rw [names_setMember]
      exact nodup_addName distinct.1 first
    | _ => cases rest <;> exact distinct

theorem distinctNames_insertAll {entries : List (List String × Value)} {record : Value} (distinct : record.DistinctNames)
    (each : ∀ entry ∈ entries, entry.2.DistinctNames) : (record.insertAll entries).DistinctNames := by
  induction entries generalizing record with
  | nil => exact distinct
  | cons entry entries inductionHypothesis =>
    obtain ⟨first, others⟩ := List.forall_mem_cons.mp each
    exact inductionHypothesis (distinct.insertPath entry.1 first) others

/-! ## Whole records -/

theorem getPath?_of_membersAt? {record : Value} {path : List String} {members : List (String × Value)}
    (opened : record.membersAt? path = some members) (there : path = [] ∨ members ≠ []) :
    record.getPath? path = some (struct members) := by
  induction path generalizing record with
  | nil =>
    cases record with
    | struct outer =>
      cases opened
      rfl
    | _ => cases opened
  | cons name path inductionHypothesis =>
    have nonempty : members ≠ [] := there.resolve_left (by simp)
    cases record with
    | struct outer =>
      rw [membersAt?] at opened
      cases found : outer.lookup name with
      | none =>
        rw [found, Option.getD_none, membersAt?_empty] at opened
        exact absurd (Option.some.inj opened).symm nonempty
      | some inner =>
        rw [found, Option.getD_some] at opened
        simpa [Value.getPath?, get?, found] using inductionHypothesis opened (.inr nonempty)
    | _ => cases opened

theorem membersAt?_of_getPath? {record : Value} {path : List String} {v : Value}
    (found : record.getPath? path = some v) : record.membersAt? path = v.membersAt? [] := by
  induction path generalizing record with
  | nil =>
    cases found
    rfl
  | cons name path inductionHypothesis =>
    obtain ⟨inner, member, further⟩ := Option.bind_eq_some_iff.mp found
    cases record with
    | struct outer =>
      rw [membersAt?, show outer.lookup name = some inner from member]
      exact inductionHypothesis further
    | _ => cases member

namespace Filled

variable {entries : List (List String × Value)} {record : Value} (filled : Filled entries record)

include filled

/-- A struct on the way to a value has just the members that paths go through. -/
theorem struct_on_way {path : List String} (clear : ∀ entry ∈ entries, ¬ entry.1 <+: path)
    (onWay : path = [] ∨ ∃ entry ∈ entries, path <+: entry.1) :
    ∃ members, record.getPath? path = some (struct members) ∧
      members.map Prod.fst = namesBelow path (entries.map Prod.fst) := by
  obtain ⟨members, opened, named⟩ := filled.names path clear
  refine ⟨members, getPath?_of_membersAt? opened ?_, named⟩
  refine onWay.imp_right fun ⟨entry, listed, rest, whole⟩ => ?_
  cases rest with
  | nil =>
    have ends : entry.1 <+: path := ⟨[], by rw [List.append_nil, ← whole, List.append_nil]⟩
    exact absurd ends (clear entry listed)
  | cons name rest =>
    have through : path ++ [name] <+: entry.1 := ⟨rest, by rw [List.append_assoc, List.singleton_append, whole]⟩
    have member : name ∈ members.map Prod.fst := by
      rw [named, mem_namesBelow]
      exact ⟨entry.1, List.mem_map_of_mem listed, through⟩
    rintro rfl
    cases member

/-- What is found in the record is on the way to a value, or it is found in a value. -/
theorem on_way_or_within {path : List String} {v : Value} (found : record.getPath? path = some v)
    (nonempty : path ≠ []) :
    (∃ entry ∈ entries, path <+: entry.1) ∨
      ∃ entry ∈ entries, ∃ inner, path = entry.1 ++ inner ∧ entry.2.getPath? inner = some v := by
  by_cases within : ∃ entry ∈ entries, entry.1 <+: path
  · obtain ⟨entry, listed, inner, rfl⟩ := within
    rw [getPath?_append, filled.values entry listed] at found
    exact .inr ⟨entry, listed, inner, rfl, found⟩
  · left
    obtain ⟨outer, name, rfl⟩ := (List.eq_nil_or_concat' path).resolve_left nonempty
    rw [getPath?_append] at found
    obtain ⟨w, holder, member⟩ := Option.bind_eq_some_iff.mp found
    have clear : ∀ entry ∈ entries, ¬ entry.1 <+: outer := fun entry listed inside =>
      within ⟨entry, listed, inside.trans (List.prefix_append ..)⟩
    obtain ⟨members, opened, named⟩ := filled.names outer clear
    rw [membersAt?_of_getPath? holder] at opened
    cases w with
    | struct held =>
      cases opened
      have known : name ∈ members.map Prod.fst := by
        by_contra fresh
        simp [Value.getPath?, get?, lookup_of_fresh fresh] at member
      rw [named, mem_namesBelow] at known
      obtain ⟨whole, listed, through⟩ := known
      obtain ⟨entry, among, rfl⟩ := List.mem_map.mp listed
      exact ⟨entry, among, through⟩
    | _ => cases opened

end Filled

/-- Values that are put into an empty record, at paths that do not lead through each other, are all found at their
paths.  Every struct on the way has the names with which paths go on there as its members, in the order in which they
first occurred and each of them once.  Nothing else is in the record but what is in the values, and a name is only
repeated in it if it is repeated in one of them. -/
theorem insertAll_complete {entries : List (List String × Value)} (nonempty : ∀ entry ∈ entries, entry.1 ≠ [])
    (apart : entries.Pairwise fun a b => Apart a.1 b.1) :
    let record := (struct []).insertAll entries
    (∀ entry ∈ entries, record.getPath? entry.1 = some entry.2) ∧
      (∀ path, (path = [] ∨ ∃ entry ∈ entries, path <+: entry.1 ∧ path ≠ entry.1) →
        ∃ members, record.getPath? path = some (struct members) ∧
          members.map Prod.fst = namesBelow path (entries.map Prod.fst) ∧ (members.map Prod.fst).Nodup) ∧
      (∀ path v, path ≠ [] → record.getPath? path = some v →
        (∃ entry ∈ entries, path <+: entry.1) ∨
          ∃ entry ∈ entries, ∃ inner, path = entry.1 ++ inner ∧ entry.2.getPath? inner = some v) ∧
      (record.DistinctNames ↔ ∀ entry ∈ entries, entry.2.DistinctNames) := by
  intro record
  have filled : Filled entries record := filled_insertAll nonempty apart
  refine ⟨filled.values, fun path onWay => ?_, fun path v inside found => filled.on_way_or_within found inside, ?_⟩
  · have clear : ∀ entry ∈ entries, ¬ entry.1 <+: path := by
      intro entry listed through
      rcases onWay with rfl | ⟨whole, among, before, different⟩
      · exact nonempty entry listed (List.prefix_nil.mp through)
      · -- A value on the way to `path` is on the way to the value behind `path`.
        by_cases same : entry = whole
        · subst same
          exact different (before.eq_of_length_le through.length_le)
        · have : Std.Symm fun a b : List String × Value => Apart a.1 b.1 := ⟨fun _ _ => And.symm⟩
          exact (apart.forall listed among same).1 (through.trans before)
    obtain ⟨members, found, named⟩ := filled.struct_on_way clear
      (onWay.imp_right fun ⟨entry, listed, before, _⟩ => ⟨entry, listed, before⟩)
    exact ⟨members, found, named, named ▸ nodup_namesBelow path _⟩
  · constructor
    · intro distinct entry listed
      exact distinct.getPath? (filled.values entry listed)
    · exact distinctNames_insertAll ⟨List.nodup_nil, trivial⟩

/-- A struct that a later path meets again, next to one that is put there as a value. -/
theorem insertAll_complete_shared :
    let entries : List (List String × Value) :=
      [(["b", "x"], text "1"), (["a"], struct [("x", absent)]), (["b", "y", "z"], text "2")]
    let record := (struct []).insertAll entries
    (∀ entry ∈ entries, entry.1 ≠ []) ∧ (entries.Pairwise fun a b => Apart a.1 b.1) ∧
      record.getPath? ["b", "x"] = some (text "1") ∧ record.getPath? ["b", "y", "z"] = some (text "2") ∧
      (∃ members, record = struct members ∧ members.map Prod.fst = ["b", "a"]) ∧
      (∃ members, record.getPath? ["b"] = some (struct members) ∧ members.map Prod.fst = ["x", "y"]) ∧
      record.getPath? ["a", "y"] = none ∧ record.DistinctNames := by
  intro entries record
  have nonempty : ∀ entry ∈ entries, entry.1 ≠ [] := by simp [entries]
  have apart : entries.Pairwise fun a b => Apart a.1 b.1 := by simp [entries, Apart]
  obtain ⟨values, structs, others, distinct⟩ := insertAll_complete nonempty apart
  obtain ⟨root, found, names, -⟩ := structs [] (.inl rfl)
  obtain ⟨inner, foundInner, namesInner, -⟩ :=
    structs ["b"] (.inr ⟨(["b", "x"], text "1"), by simp [entries], by simp, by simp⟩)
  refine ⟨nonempty, apart, values (["b", "x"], text "1") (by simp [entries]),
    values (["b", "y", "z"], text "2") (by simp [entries]), ⟨root, Option.some.inj found, names.trans ?_⟩,
    ⟨inner, foundInner, namesInner.trans ?_⟩, ?_, distinct.mpr (by simp [entries, DistinctNames, DistinctNamesOf])⟩
  · decide
  · decide
  · rw [Option.eq_none_iff_forall_ne_some]
    intro v there
    have wrong := others ["a", "y"] v (by simp) there
    simp [entries, Value.getPath?, get?, List.lookup_cons] at wrong

/-- A struct that is put into a record brings its own members, which are on no path, and its own
repetitions. -/
theorem insertAll_keeps_repeated :
    let entries : List (List String × Value) := [(["a"], struct [("x", absent), ("x", absent)])]
    let record := (struct []).insertAll entries
    (∀ entry ∈ entries, entry.1 ≠ []) ∧ (entries.Pairwise fun a b => Apart a.1 b.1) ∧
      (record.getPath? ["a", "x"] = some absent ∧ ∀ entry ∈ entries, ¬ ["a", "x"] <+: entry.1) ∧
      ¬ record.DistinctNames := by
  intro entries record
  refine ⟨by simp [entries], by simp [entries], ⟨rfl, by simp [entries]⟩, ?_⟩
  intro distinct
  have repeated : (struct [("x", absent), ("x", absent)]).DistinctNames :=
    @DistinctNames.getPath? record _ distinct ["a"] rfl
  exact absurd repeated.1 (by decide)

end PackedRecord.Value
