import PackedRecord.C.Platform
import PackedRecord.Proofs.C.Declarations
import PackedRecord.Proofs.C.Nesting
import PackedRecord.Proofs.C.ReleaseList

/-!
# What a text defines

A struct or a function is defined by a line that starts at the left margin and opens a block: a type, a name
and possibly parameters.  Lines inside a block are indented, so a text defines just what these lines name.

* `definedNames` reads the names off a text, and `definedNames_feed` takes texts apart at line feeds.
* `Function.Plain.definedNames_text`: a function defines its own name and nothing else.
* `definedNames_storage`: a struct defines its tag.
-/

namespace PackedRecord.C

open Stmt

/-- The name that a line defines, which is its second word. -/
def definedName? (line : List Char) : Option String :=
  if line.head?.any startsName = true ∧ line.getLast? = some '\x7b' then
    some (String.ofList ((line.dropWhile (· ≠ ' ')).tail.takeWhile continuesName))
  else none

def definedNames (text : String) : List String :=
  (text.toList.splitOn '\n').filterMap definedName?

/-! ## Texts in parts -/

theorem splitOn_feed (a b : List Char) :
    (a ++ '\n' :: b).splitOn '\n' = a.splitOn '\n' ++ b.splitOn '\n' := by
  simp [List.splitOn, List.splitOnP_append_cons]

theorem definedNames_feed (a b : String) : definedNames (a ++ "\n" ++ b) = definedNames a ++ definedNames b := by
  have spelled : (a ++ "\n" ++ b).toList = a.toList ++ '\n' :: b.toList := by simp
  rw [definedNames, spelled, splitOn_feed, List.filterMap_append]
  rfl

@[simp] theorem definedNames_empty : definedNames "" = [] := by
  decide

theorem definedNames_ended (a : String) : definedNames (a ++ "\n") = definedNames a := by
  have parts := definedNames_feed a ""
  rwa [String.append_empty, definedNames_empty, List.append_nil] at parts

theorem definedNames_intercalate (parts : List String) :
    definedNames ("\n".intercalate parts) = parts.flatMap definedNames := by
  induction parts with
  | nil => exact definedNames_empty
  | cons part rest inductionHypothesis =>
    cases rest with
    | nil => simp
    | cons next rest =>
      rw [String.intercalate_cons_cons, definedNames_feed, inductionHypothesis]
      rfl

theorem definedNames_join {α : Type} (text : String) (part : α → String) (items : List α) :
    definedNames (text ++ String.join (items.map fun item => "\n" ++ part item)) =
      definedNames text ++ items.flatMap fun item => definedNames (part item) := by
  induction items generalizing text with
  | nil => simp
  | cons item items inductionHypothesis =>
    rw [List.map_cons, String.join_cons, ← String.append_assoc, ← String.append_assoc, inductionHypothesis,
      definedNames_feed, List.flatMap_cons, List.append_assoc]

theorem mem_intercalate {separator part : List Char} {parts : List (List Char)} {c : Char}
    (listed : part ∈ parts) (inside : c ∈ part) : c ∈ separator.intercalate parts := by
  induction parts with
  | nil => cases listed
  | cons first rest inductionHypothesis =>
    cases rest with
    | nil => simp_all
    | cons next rest =>
      rw [List.intercalate_cons_cons]
      rcases List.mem_cons.mp listed with rfl | listed
      · simp [inside]
      · simp [inductionHypothesis listed]

/-- Nothing is defined without a block. -/
theorem definedNames_eq_nil {text : String} (closed : '\x7b' ∉ text.toList) : definedNames text = [] := by
  rw [definedNames, List.filterMap_eq_nil_iff]
  intro line listed
  refine if_neg fun opens => closed ?_
  have joined : ['\n'].intercalate (text.toList.splitOn '\n') = text.toList := List.intercalate_splitOn '\n'
  rw [← joined]
  exact mem_intercalate listed (List.mem_of_getLast? opens.2)

theorem definedNames_line {line : String} (unbroken : '\n' ∉ line.toList) :
    definedNames line = (definedName? line.toList).toList := by
  rw [definedNames, List.splitOn_eq_singleton unbroken]
  cases named : definedName? line.toList <;> simp [named]

/-- Nothing is defined by a line whose first character does not start a name. -/
theorem definedNames_inner {line : String} (unbroken : '\n' ∉ line.toList)
    (inner : line.toList.head?.any startsName = false) : definedNames line = [] := by
  rw [definedNames_line unbroken, definedName?, if_neg (by simp [inner])]
  rfl

def Word (word : List Char) : Prop :=
  word.head?.any startsName = true ∧ ' ' ∉ word

instance (word : List Char) : Decidable (Word word) :=
  inferInstanceAs (Decidable (_ ∧ _))

theorem definedName?_head {word name rest : List Char} {stop : Char} (single : Word word)
    (continues : ∀ c ∈ name, continuesName c = true) (stops : continuesName stop = false) :
    definedName? (word ++ ' ' :: (name ++ stop :: (rest ++ ['\x7b']))) = some (String.ofList name) := by
  have second : ((word ++ ' ' :: (name ++ stop :: (rest ++ ['\x7b']))).dropWhile (· ≠ ' ')).tail =
      name ++ stop :: (rest ++ ['\x7b']) := by
    have before : ∀ c ∈ word, decide (c ≠ ' ') = true := by
      intro c listed
      exact decide_eq_true fun blank => single.2 (blank ▸ listed)
    rw [List.dropWhile_append_of_pos before]
    simp
  have first : (word ++ ' ' :: (name ++ stop :: (rest ++ ['\x7b']))).head?.any startsName = true := by
    cases word with
    | nil => cases single.1
    | cons c word => simpa using single.1
  have last : (word ++ ' ' :: (name ++ stop :: (rest ++ ['\x7b']))).getLast? = some '\x7b' := by
    have grouped : word ++ ' ' :: (name ++ stop :: (rest ++ ['\x7b'])) =
      (word ++ ' ' :: (name ++ stop :: rest)) ++ ['\x7b'] := by simp
    rw [grouped, List.getLast?_concat]
  rw [definedName?, if_pos ⟨first, last⟩, second, List.takeWhile_append_of_pos continues]
  simp [stops]

/-! ## Functions -/

/-- A function with an identifier for a name and a single word for the type of its result. -/
structure Function.Plain (f : Function) : Prop where
  tidy : f.Tidy
  result : Word f.signature.result.toList
  identifier : isIdentifier f.signature.name = true

namespace Function.Plain

variable {f : Function} (plain : f.Plain)

include plain

theorem definedNames_text : definedNames f.text = [f.signature.name] := by
  have inside : ∀ line ∈ linesOf 1 f.body, definedNames line = [] := by
    intro line listed
    have nested := nested_linesOf 1 f.body plain.tidy.body
    obtain ⟨rest, spelled⟩ := nested.deep line listed
    exact definedNames_inner (nested.unbroken line listed) (by rw [← spelled]; rfl)
  have head : definedNames (f.signature.text ++ " \x7b") = [f.signature.name] := by
    have spelled : (f.signature.text ++ " \x7b").toList = f.signature.result.toList ++ ' ' ::
        (f.signature.name.toList ++ '(' :: ((", ".intercalate f.signature.parameters ++ ") ").toList ++ ['\x7b'])) := by
      simp [Signature.text]
    rw [definedNames_line (by simpa using plain.tidy.head.1.1), spelled, definedName?_head plain.result
      (continuesName_of_mem plain.identifier) (by decide), String.ofList_toList]
    rfl
  have last : definedNames "\x7d" = [] := by decide
  rw [Function.text, definedNames_ended, definedNames_intercalate, Function.lines, List.flatMap_cons, head,
    List.flatMap_append, List.flatMap_eq_nil_iff.mpr inside]
  simp [last]

end Function.Plain

theorem definedNames_prototypes {functions : List Function} (plain : ∀ f ∈ functions, f.Plain) :
    definedNames (String.join (functions.map fun f => f.signature.prototype)) = [] := by
  apply definedNames_eq_nil
  simp only [String.toList_join, List.mem_flatMap, List.mem_map]
  rintro ⟨_, ⟨f, listed, rfl⟩, inside⟩
  simp [Signature.prototype, (plain f listed).tidy.head.1.2.1] at inside

theorem plain_adapter {name callee : String} {parameters arguments : List String}
    (named : isIdentifier name = true) (called : isIdentifier callee = true)
    (given : ∀ parameter ∈ parameters, Unbroken parameter) (handed : ∀ argument ∈ arguments, Tidy argument) :
    Function.Plain ⟨⟨"int", name, parameters⟩, [.forward callee arguments]⟩ := by
  refine ⟨⟨tidy_signature (by decide : Tidy "int") (tidy_of_isIdentifier named).1 given, ?_⟩,
    (by decide : Word "int".toList), named⟩
  simpa [textsIn, texts] using ⟨tidy_of_isIdentifier called, handed⟩

section

variable {symbol : String} (identifier : isIdentifier symbol = true)

include identifier

theorem plain_codec {plan : Plan} (named : ∀ step ∈ plan.steps, ∀ place, step.place? = some place → place.Named)
    (direction : Direction) : (codec symbol plan direction).Plain := by
  refine ⟨tidy_codec identifier named direction, ?_, ?_⟩
  · cases direction <;> exact (by decide : Word "int".toList)
  · cases direction <;> exact isIdentifier_append identifier (by decide) (by decide)

theorem plain_release {fields : List Field} (identified : (FieldType.struct fields).EveryScope Identified) :
    (Function.mk (releaseSignature symbol) (releaseStmts fields)).Plain := by
  have parameter : Unbroken ("struct " ++ symbol ++ " *" ++ releaseBase) :=
    (unbroken_record identifier).append (by decide)
  have name : isIdentifier (symbol ++ "_release") = true :=
    isIdentifier_append identifier (by decide) (by decide)
  refine ⟨⟨tidy_signature (by decide : Tidy "void") (tidy_of_isIdentifier name).1
    (List.forall_mem_singleton.mpr parameter), ?_⟩, (by decide : Word "void".toList), name⟩
  have pointers : ∀ x ∈ ownedIn { base := releaseBase } fields, Tidy x.text := by
    intro x listed
    cases pointer_of_mem_ownedIn identified rfl x listed with
    | field named => exact tidy_field named
    | item named i => exact tidy_item named (.literal i)
  have freed : ∀ owned : List Lvalue, (∀ x ∈ owned, Tidy x.text) →
      ∀ text ∈ textsIn (owned.map .free), Tidy text := by
    intro owned each
    induction owned with
    | nil => simp [textsIn]
    | cons x owned inductionHypothesis =>
      obtain ⟨first, others⟩ := List.forall_mem_cons.mp each
      simpa [textsIn, texts, first] using inductionHypothesis others
  show ∀ text ∈ textsIn (releaseStmts fields), Tidy text
  rw [releaseStmts]
  split
  · decide
  · exact freed _ pointers

theorem plain_adapters : ∀ f ∈ adapterFunctions symbol, f.Plain := by
  have record := unbroken_record identifier
  have out : Unbroken ("struct " ++ symbol ++ " *" ++ readerBase) := record.append (by decide)
  have taken : Unbroken ("const " ++ ("struct " ++ symbol ++ " *") ++ writerBase) :=
    (Unbroken.append (by decide) record).append (by decide)
  have name : ∀ {suffix : String}, suffix.toList.all continuesName = true → '_' ∈ suffix.toList →
      isIdentifier (symbol ++ suffix) = true := isIdentifier_append identifier
  have reads : isIdentifier (symbol ++ "_deserialize") = true := name (by decide) (by decide)
  have writes : isIdentifier (symbol ++ "_serialize") = true := name (by decide) (by decide)
  refine List.forall_mem_cons.mpr ⟨?_, List.forall_mem_cons.mpr ⟨?_, List.forall_mem_singleton.mpr ?_⟩⟩
  · exact plain_adapter (name (by decide) (by decide)) reads
      (List.forall_mem_cons.mpr ⟨by decide, List.forall_mem_singleton.mpr out⟩) (by decide)
  · exact plain_adapter (name (by decide) (by decide)) writes
      (List.forall_mem_cons.mpr ⟨taken, List.forall_mem_singleton.mpr (by decide)⟩) (by decide)
  · exact plain_adapter (name (by decide) (by decide)) reads
      (List.forall_mem_cons.mpr ⟨by decide, List.forall_mem_singleton.mpr out⟩) (by decide)

end

/-! ## Structs -/

theorem definedNames_member {member : Member} (identifier : isIdentifier member.name = true) :
    definedNames ("  " ++ member.text) = [] := by
  rw [← member.intercalate_lines, definedNames_intercalate, List.flatMap_eq_nil_iff]
  intro line listed
  obtain ⟨unbroken, blank⟩ := Member.lines_inner identifier line listed
  exact definedNames_inner unbroken (by rw [blank]; rfl)

theorem definedNames_storage {storage : Storage} (tag : isIdentifier storage.tag = true)
    (members : ∀ member ∈ storage.members, isIdentifier member.name = true) :
    definedNames storage.text = [storage.tag] := by
  have lines : storage.text = "struct " ++ storage.tag ++ " \x7b" ++ "\n" ++
      ("\n".intercalate (storage.members.map fun member => "  " ++ member.text) ++ "\n" ++ "\x7d;") ++ "\n" := by
    apply String.toList_injective
    simp [Storage.text]
  have head : definedNames ("struct " ++ storage.tag ++ " \x7b") = [storage.tag] := by
    have spelled : ("struct " ++ storage.tag ++ " \x7b").toList =
        "struct".toList ++ ' ' :: (storage.tag.toList ++ ' ' :: ([] ++ ['\x7b'])) := by simp
    rw [definedNames_line (by simpa using (tidy_of_isIdentifier tag).1.1), spelled,
      definedName?_head (by decide) (continuesName_of_mem tag) (by decide), String.ofList_toList]
    rfl
  have inside : storage.members.flatMap (fun member => definedNames ("  " ++ member.text)) = [] :=
    List.flatMap_eq_nil_iff.mpr fun member listed => definedNames_member (members member listed)
  have last : definedNames "\x7d;" = [] := by decide
  rw [lines, definedNames_ended, definedNames_feed, head, definedNames_feed, definedNames_intercalate,
    List.flatMap_map, inside, last]
  rfl

end PackedRecord.C
