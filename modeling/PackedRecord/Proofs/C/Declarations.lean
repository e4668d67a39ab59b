import PackedRecord.C.Storage
import PackedRecord.Proofs.C.Numerals

/-!
# The lines of generated structs

A struct is printed member by member, each on a line of its own, apart from an optional number, which is a
small struct of four lines.

* `textLines_storage`: with identifiers for names, the text of a struct are these lines.
* `numerals_storage`: its numbers are the dimensions of the members.
-/

namespace PackedRecord.C

namespace Member

def name : Member → String
  | numbers _ name _ | texts name _ | optionalNumber _ name => name

def dimensions : Member → List Nat
  | numbers _ _ dimensions | texts _ dimensions => dimensions
  | optionalNumber _ _ => []

def lines : Member → List String
  | numbers kind name dimensions => ["  " ++ kind.cType ++ " " ++ name ++ dimensionsText dimensions ++ ";"]
  | texts name dimensions => ["  char *" ++ name ++ dimensionsText dimensions ++ ";"]
  | optionalNumber kind name =>
    ["  struct \x7b", "    uint8_t is_some;", "    " ++ kind.cType ++ " value;", "  \x7d " ++ name ++ ";"]

theorem intercalate_lines (member : Member) : "\n".intercalate member.lines = "  " ++ member.text := by
  apply String.toList_injective
  cases member with
  | numbers kind name dimensions | texts name dimensions =>
    unfold lines text
    simp
  | optionalNumber kind name =>
    unfold lines text presenceMember valueMember
    simp [String.intercalate_cons_cons]

theorem lines_ne_nil (member : Member) : member.lines ≠ [] := by
  cases member <;> simp [lines]

end Member

theorem unbroken_dimensionsText (dimensions : List Nat) : Unbroken (dimensionsText dimensions) := by
  induction dimensions with
  | nil => decide
  | cons n dimensions inductionHypothesis =>
    rw [dimensionsText, List.map_cons, String.join_cons]
    exact (((Unbroken.append (by decide) (unbroken_toString n)).append (by decide)).append inductionHypothesis)

theorem Member.lines_inner {member : Member} (identifier : isIdentifier member.name = true) :
    ∀ line ∈ member.lines, '\n' ∉ line.toList ∧ line.toList.head? = some ' ' := by
  have name : '\n' ∉ member.name.toList := notMem_of_isIdentifier identifier rfl
  have type : ∀ kind : ScalarKind, '\n' ∉ kind.cType.toList := by
    intro kind
    cases kind <;> decide
  have brackets := fun dimensions => (unbroken_dimensionsText dimensions).1
  cases member with
  | numbers kind name' dimensions => simpa [lines] using ⟨type kind, name, brackets dimensions⟩
  | texts name' dimensions => simpa [lines] using ⟨name, brackets dimensions⟩
  | optionalNumber kind name' => simpa [lines] using ⟨type kind, name⟩

theorem numerals_dimensionsText (dimensions : List Nat) :
    Opens (dimensionsText dimensions) ∧ numerals (dimensionsText dimensions) = dimensions := by
  induction dimensions with
  | nil => decide
  | cons n dimensions inductionHypothesis =>
    have cons : dimensionsText (n :: dimensions) = "[" ++ toString n ++ "]" ++ dimensionsText dimensions := by
      rw [dimensionsText, List.map_cons, String.join_cons]
      rfl
    rw [cons]
    constructor
    · simp [Opens]; rfl
    · rw [numerals_of_opens _ inductionHypothesis.1, numerals_inside (by decide), numerals_toString,
        inductionHypothesis.2]
      rfl

theorem numerals_lines {member : Member} (identifier : isIdentifier member.name = true) :
    member.lines.flatMap numerals = member.dimensions := by
  have name := numerals_of_isIdentifier identifier
  cases member with
  | numbers kind name' dimensions =>
    obtain ⟨opens, brackets⟩ := numerals_dimensionsText dimensions
    have front : numerals ("  " ++ kind.cType ++ " " ++ name') = [] := by
      have named : numerals (" " ++ name') = [] := by
        rw [numerals_of_closes (by decide)]
        exact name
      have typed : numerals ("  " ++ kind.cType) = [] := by
        cases kind <;> decide
      rw [String.append_assoc, numerals_of_opens _ (by simp [Opens]; rfl), typed, named]
      rfl
    unfold Member.lines
    rw [List.flatMap_singleton, numerals_of_opens _ (by decide), numerals_of_opens _ opens, front, brackets]
    exact List.append_nil _
  | texts name' dimensions =>
    obtain ⟨opens, brackets⟩ := numerals_dimensionsText dimensions
    have front : numerals ("  char *" ++ name') = [] := by
      rw [numerals_of_closes (by decide)]
      exact name
    unfold Member.lines
    rw [List.flatMap_singleton, numerals_of_opens _ (by decide), numerals_of_opens _ opens, front, brackets]
    exact List.append_nil _
  | optionalNumber kind name' =>
    have value : numerals ("    " ++ kind.cType ++ " value;") = [] := by
      cases kind <;> decide
    have last : numerals ("  \x7d " ++ name' ++ ";") = [] := by
      rw [numerals_inside (by decide)]
      exact name
    have front : numerals "  struct \x7b" = [] ∧ numerals "    uint8_t is_some;" = [] := by decide
    unfold Member.lines
    simp [front, value, last, Member.dimensions]

theorem name_of_memberOf {name : String} {ty : FieldType} {member : Member}
    (held : memberOf name ty = .ok member) : member.name = name := by
  unfold memberOf at held
  repeat' split at held
  all_goals cases held
  all_goals rfl

/-- A struct has a member for each field, and all of them have identifiers for names. -/
theorem members_of_storage {symbol : String} {fields : List Field} {made : Storage}
    (stored : storage symbol fields = .ok made) (identified : Identified fields) :
    made.tag = symbol ∧ List.Forall₂ (fun field member => memberOf field.1 field.2 = .ok member) fields made.members ∧
      ∀ member ∈ made.members, isIdentifier member.name = true := by
  obtain ⟨members, held, built⟩ := bind_eq_ok stored
  cases built
  have held := mapM_eq_ok_iff.mp held
  refine ⟨rfl, held, fun member listed => ?_⟩
  obtain ⟨field, among, holds⟩ := exists_left_of_mem held listed
  exact name_of_memberOf holds ▸ identified field among

theorem intercalate_flatMap {α : Type} {lines : α → List String} (nonempty : ∀ a, lines a ≠ []) (items : List α) :
    "\n".intercalate (items.flatMap lines) = "\n".intercalate (items.map fun a => "\n".intercalate (lines a)) := by
  induction items with
  | nil => rfl
  | cons a items inductionHypothesis =>
    cases items with
    | nil => simp
    | cons b items =>
      have others : (b :: items).flatMap lines ≠ [] := by simp [nonempty b]
      rw [List.flatMap_cons, String.intercalate_append_of_ne_nil (nonempty a) others, inductionHypothesis]
      simp only [List.map_cons, String.intercalate_cons_cons]

theorem text_storage {storage : Storage} (nonempty : storage.members ≠ []) :
    storage.text = "\n".intercalate
      (("struct " ++ storage.tag ++ " \x7b") :: (storage.members.flatMap Member.lines ++ ["\x7d;"])) ++ "\n" := by
  have inside : storage.members.flatMap Member.lines ≠ [] := by
    obtain ⟨member, listed⟩ := List.exists_mem_of_ne_nil _ nonempty
    exact fun none => member.lines_ne_nil (List.flatMap_eq_nil_iff.mp none member listed)
  rw [← List.singleton_append, String.intercalate_append_of_ne_nil (by simp) (by simp),
    String.intercalate_append_of_ne_nil inside (by simp), intercalate_flatMap Member.lines_ne_nil]
  simp only [Member.intercalate_lines, String.intercalate_singleton]
  apply String.toList_injective
  simp [Storage.text]

section

variable {storage : Storage} (tag : isIdentifier storage.tag = true) (nonempty : storage.members ≠ [])
  (members : ∀ member ∈ storage.members, isIdentifier member.name = true)

include tag nonempty members

theorem textLines_storage : textLines storage.text =
    ("struct " ++ storage.tag ++ " \x7b") :: (storage.members.flatMap Member.lines ++ ["\x7d;"]) := by
  have head : '\n' ∉ storage.tag.toList := notMem_of_isIdentifier tag rfl
  rw [text_storage nonempty]
  refine textLines_intercalate (by simp) ?_
  rw [List.forall_mem_cons, List.forall_mem_append, List.forall_mem_singleton]
  refine ⟨by simpa using head, ?_, by decide⟩
  intro line listed
  obtain ⟨member, among, listed⟩ := List.mem_flatMap.mp listed
  exact (Member.lines_inner (members member among) line listed).1

/-- The numbers of a struct are the dimensions of its members. -/
theorem numerals_storage : numerals storage.text = storage.members.flatMap Member.dimensions := by
  have head : numerals ("struct " ++ storage.tag ++ " \x7b") = [] := by
    rw [numerals_inside (by decide), numerals_of_isIdentifier tag]
  have last : numerals "\x7d;" = [] ∧ numerals "\n" = [] := by decide
  have inside : storage.members.flatMap (fun member => member.lines.flatMap numerals) =
      storage.members.flatMap Member.dimensions :=
    List.flatMap_congr fun member listed => numerals_lines (members member listed)
  rw [text_storage nonempty, numerals_of_opens _ (by decide), numerals_intercalate (by decide) (by decide),
    List.flatMap_cons, List.flatMap_append, List.flatMap_assoc, inside, head]
  simp [last]

end

end PackedRecord.C
