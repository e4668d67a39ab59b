import PackedRecord.Proofs.Json.Objects
import PackedRecord.Proofs.Manifest.Symbols

/-!
# Names that macros take away

A header starts with macros for the status codes.  The preprocessor replaces such a name wherever it stands, also
where a record has it for a struct or a member.  Names are checked to be identifiers and no keywords, but not against
these macros.

* `C.objectMacro?_openingLines`, `C.objectMacros_prelude`: the macros without parameters that a header starts with.
* `CompileOptions.symbol_mem_macroNames_iff`, `functionName_notMem_macroNames`: which generated names they take away.
* `names_survive_iff`: when the names of a record are left alone, exactly.
* `names_taken_away`: two records that are compiled though the preprocessor takes their names away.
-/

namespace PackedRecord

def Status.macroNames : List String :=
  all.map macroName

namespace C

/-! ## Macros of a text -/

/-- The macro without parameters that a line defines, with what it stands for.  Parameters would follow the name at
once. -/
def objectMacro? (line : List Char) : Option (String × String) :=
  if "#define ".toList <+: line then
    let rest := line.drop "#define ".toList.length
    let body := rest.dropWhile continuesName
    if body.head? = some '(' then none
    else some (String.ofList (rest.takeWhile continuesName), String.ofList (body.dropWhile (· = ' ')))
  else none

/-- The macros without parameters that a text defines, in order. -/
def objectMacros (text : String) : List (String × String) :=
  (text.toList.splitOn '\n').filterMap objectMacro?

/-- What the preprocessor makes of a name behind a text. -/
def expand (text name : String) : String :=
  ((objectMacros text).lookup name).getD name

theorem objectMacros_lines {lines : List String} (unbroken : ∀ line ∈ lines, '\n' ∉ line.toList) :
    objectMacros (String.join (lines.map (· ++ "\n"))) = lines.filterMap fun line => objectMacro? line.toList := by
  induction lines with
  | nil => decide
  | cons line lines inductionHypothesis =>
    obtain ⟨first, others⟩ := List.forall_mem_cons.mp unbroken
    have spelled : (String.join ((line :: lines).map (· ++ "\n"))).toList =
        line.toList ++ '\n' :: (String.join (lines.map (· ++ "\n"))).toList := by simp
    rw [objectMacros, spelled, splitOn_feed, List.splitOn_eq_singleton first, List.filterMap_append, ← objectMacros,
      inductionHypothesis others]
    cases macroOf : objectMacro? line.toList <;> simp [macroOf]

theorem objectMacro?_define {name rest : List Char} {stop : Char} (continues : ∀ c ∈ name, continuesName c = true)
    (stops : continuesName stop = false) :
    objectMacro? ("#define ".toList ++ (name ++ stop :: rest)) =
      if stop = '(' then none else some (String.ofList name, String.ofList ((stop :: rest).dropWhile (· = ' '))) := by
  have body : (name ++ stop :: rest).dropWhile continuesName = stop :: rest := by
    rw [List.dropWhile_append_of_pos continues]
    simp [stops]
  have front : (name ++ stop :: rest).takeWhile continuesName = name := by
    rw [List.takeWhile_append_of_pos continues]
    simp [stops]
  rw [objectMacro?, if_pos (List.prefix_append ..), List.drop_left]
  simp only [body, front, List.head?_cons, Option.some.injEq]

/-! ## Preludes -/

/-- The lines of a prelude in front of the status codes. -/
def Platform.openingLines (platform : Platform) : List String :=
  ["#pragma once", ""] ++ platform.includes.map (fun header => "#include <" ++ header ++ ">") ++ [""]
    ++ platform.hooks.flatMap (fun hook => ["#ifndef " ++ hook.1, "#define " ++ hook.1 ++ hook.2, "#endif"]) ++ [""]

def statusLine (status : Status) : String :=
  "#define " ++ status.macroName ++ " " ++ toString status.code

theorem Platform.prelude_eq_lines (platform : Platform) :
    platform.prelude = String.join ((platform.openingLines ++ Status.all.map statusLine).map (· ++ "\n")) := by
  apply String.toList_injective
  unfold prelude openingLines statusLine
  simp [String.toList_join, hookText, List.flatMap_map, List.flatMap_assoc]

theorem Platform.forall_mem_openingLines {platform : Platform} {p : String → Prop}
    (fixed : ∀ line ∈ ["#pragma once", "", "#endif"], p line)
    (includes : ∀ header ∈ platform.includes, p ("#include <" ++ header ++ ">"))
    (hooks : ∀ hook ∈ platform.hooks, p ("#ifndef " ++ hook.1) ∧ p ("#define " ++ hook.1 ++ hook.2)) :
    ∀ line ∈ platform.openingLines, p line := by
  obtain ⟨once, blank, closing⟩ : p "#pragma once" ∧ p "" ∧ p "#endif" := by simpa using fixed
  have gap : ∀ line ∈ [""], p line := List.forall_mem_singleton.mpr blank
  simp only [openingLines, List.forall_mem_append, List.forall_mem_map, List.mem_flatMap]
  refine ⟨⟨⟨⟨List.forall_mem_cons.mpr ⟨once, gap⟩, includes⟩, gap⟩, ?_⟩, gap⟩
  rintro line ⟨hook, listed, among⟩
  obtain ⟨opened, defined⟩ := hooks hook listed
  have three : ∀ line ∈ ["#ifndef " ++ hook.1, "#define " ++ hook.1 ++ hook.2, "#endif"], p line := by
    simp [opened, defined, closing]
  exact three line among

theorem Platform.unbroken_openingLines (platform : Platform) : ∀ line ∈ platform.openingLines, '\n' ∉ line.toList := by
  have headers : ∀ header ∈ platform.includes, '\n' ∉ header.toList := by
    cases platform <;> decide
  have hooks : ∀ hook ∈ platform.hooks, '\n' ∉ hook.1.toList ∧ '\n' ∉ hook.2.toList := by
    cases platform <;> decide
  apply forall_mem_openingLines
  · decide
  · intro header listed
    simp [headers header listed]
  · intro hook listed
    obtain ⟨name, text⟩ := hooks hook listed
    simp [name, text]

theorem unbroken_statusLine (status : Status) : '\n' ∉ (statusLine status).toList := by
  have fixed : '\n' ∉ "#define ".toList ∧ '\n' ∉ " ".toList := by decide
  simp only [statusLine, String.toList_append, List.mem_append, fixed, (unbroken_macroName status).1,
    (unbroken_toString status.code).1, or_false, not_false_eq_true]

theorem objectMacro?_hook {hook : String × String} (name : ∀ c ∈ hook.1.toList, continuesName c = true)
    (parameters : hook.2.toList.head? = some '(') : objectMacro? ("#define " ++ hook.1 ++ hook.2).toList = none := by
  obtain ⟨rest, spelled⟩ := List.head?_eq_some_iff.mp parameters
  rw [String.toList_append, String.toList_append, spelled, List.append_assoc, objectMacro?_define name (by decide),
    if_pos rfl]

/-- In front of the status codes there are only macros with parameters. -/
theorem objectMacro?_openingLines (platform : Platform) :
    ∀ line ∈ platform.openingLines, objectMacro? line.toList = none := by
  have hooks : ∀ hook ∈ platform.hooks,
      hook.1.toList.all continuesName = true ∧ hook.2.toList.head? = some '(' := by
    cases platform <;> decide
  apply Platform.forall_mem_openingLines
  · decide
  · exact fun header _ => if_neg (by simp)
  · intro hook listed
    obtain ⟨name, parameters⟩ := hooks hook listed
    exact ⟨if_neg (by simp), objectMacro?_hook (List.all_eq_true.mp name) parameters⟩

theorem objectMacros_prelude (platform : Platform) :
    objectMacros platform.prelude = Status.all.map fun status => (status.macroName, toString status.code) := by
  have codes : ∀ status ∈ Status.all,
      objectMacro? (statusLine status).toList = some (status.macroName, toString status.code) := by decide
  have unbroken : ∀ line ∈ platform.openingLines ++ Status.all.map statusLine, '\n' ∉ line.toList := by
    rw [List.forall_mem_append, List.forall_mem_map]
    exact ⟨platform.unbroken_openingLines, fun status _ => unbroken_statusLine status⟩
  rw [Platform.prelude_eq_lines, objectMacros_lines unbroken, List.filterMap_append,
    List.filterMap_eq_nil_iff.mpr (objectMacro?_openingLines platform), List.filterMap_map, List.nil_append,
    ← List.filterMap_eq_map]
  exact List.filterMap_congr codes

theorem names_objectMacros_prelude (platform : Platform) :
    (objectMacros platform.prelude).map Prod.fst = Status.macroNames := by
  rw [objectMacros_prelude, List.map_map]
  rfl

/-- A status code does not stand for its own name. -/
theorem expand_prelude_eq_self_iff (platform : Platform) (name : String) :
    expand platform.prelude name = name ↔ name ∉ Status.macroNames := by
  have codes : ∀ status ∈ Status.all, toString status.code ≠ status.macroName := by decide
  rw [expand, ← names_objectMacros_prelude platform]
  cases found : (objectMacros platform.prelude).lookup name with
  | none =>
    refine iff_of_true rfl fun listed => ?_
    obtain ⟨entry, among, rfl⟩ := List.mem_map.mp listed
    simpa using List.lookup_eq_none_iff.mp found entry among
  | some body =>
    have among := mem_of_lookup found
    refine iff_of_false (fun same : body = name => ?_) (not_not_intro (List.mem_map_of_mem among))
    rw [objectMacros_prelude] at among
    obtain ⟨status, known, spelled⟩ := List.mem_map.mp among
    obtain ⟨rfl, rfl⟩ := Prod.mk.inj spelled
    exact codes status known same

end C

/-! ## Generated names -/

def cutsAt (mark : Char) : List Char → List (List Char × List Char)
  | [] => []
  | c :: rest => (if c = mark then [([], rest)] else []) ++ (cutsAt mark rest).map fun cut => (c :: cut.1, cut.2)

theorem mem_cutsAt {mark : Char} {text front back : List Char} :
    (front, back) ∈ cutsAt mark text ↔ front ++ mark :: back = text := by
  induction text generalizing front with
  | nil => simp [cutsAt]
  | cons c rest inductionHypothesis =>
    rw [cutsAt, List.mem_append, List.mem_map]
    cases front with
    | nil =>
      by_cases here : c = mark
      · simp [here, eq_comm]
      · simp [here, Ne.symm here]
    | cons first front =>
      have aside : (first :: front, back) ∉ (if c = mark then [([], rest)] else []) := by
        split <;> simp
      simp only [aside, false_or, Prod.mk.injEq, List.cons.injEq, List.cons_append]
      constructor
      · rintro ⟨⟨front', back'⟩, cut, ⟨rfl, rfl⟩, rfl⟩
        exact ⟨rfl, inductionHypothesis.mp cut⟩
      · rintro ⟨rfl, joined⟩
        exact ⟨(front, back), inductionHypothesis.mpr joined, ⟨rfl, rfl⟩, rfl⟩

def macroCuts : List (String × String) :=
  [("ALON", "OK"), ("ALON", "ERR_BUFFER_TOO_SHORT"), ("ALON_ERR", "BUFFER_TOO_SHORT"), ("ALON_ERR_BUFFER", "TOO_SHORT"),
    ("ALON_ERR_BUFFER_TOO", "SHORT"), ("ALON", "ERR_ALLOC"), ("ALON_ERR", "ALLOC")]

theorem CompileOptions.symbol_mem_macroNames_iff (options : CompileOptions) (name : String) :
    options.symbol name ∈ Status.macroNames ↔ (options.stem, name) ∈ macroCuts := by
  -- A stem may have an underscore itself, so every one in the name of a status code can be the one between.
  have cuts : ∀ macroName ∈ Status.macroNames, ∀ cut ∈ cutsAt '_' macroName.toList,
      (String.ofList cut.1, String.ofList cut.2) ∈ macroCuts := by decide
  have joins : ∀ cut ∈ macroCuts, cut.1 ++ "_" ++ cut.2 ∈ Status.macroNames := by decide
  constructor
  · intro listed
    have cut : (options.stem.toList, name.toList) ∈ cutsAt '_' (options.symbol name).toList :=
      mem_cutsAt.mpr (by simp [symbol])
    simpa using cuts _ listed _ cut
  · exact joins (options.stem, name)

theorem functionName_notMem_macroNames {options : CompileOptions} {name function : String}
    (listed : function ∈ options.functionNames name) : function ∉ Status.macroNames := by
  have suffixes : ∀ suffix ∈ options.platform.suffixes, suffix.toList.getLast?.any Char.isLower = true := by
    cases options.platform <;> decide
  have macros : ∀ macroName ∈ Status.macroNames, macroName.toList.getLast?.any Char.isLower = false := by decide
  obtain ⟨suffix, among, rfl⟩ := List.mem_map.mp listed
  intro taken
  have lower := suffixes suffix among
  have upper := macros _ taken
  rw [String.toList_append, List.getLast?_append] at upper
  cases last : suffix.toList.getLast? with
  | none => simp [last] at lower
  | some c => simp_all

/-- The names of a member: its own, and those in the small struct of an optional number. -/
def C.Member.names : C.Member → List String
  | numbers _ name _ | texts name _ => [name]
  | optionalNumber _ name => [presenceMember, valueMember, name]

/-- The names that the declarations of a record spell out. -/
def Code.names (code : Code) : List String :=
  code.storage.tag :: (code.functions.map (·.signature.name) ++ code.storage.members.flatMap C.Member.names)

theorem C.Member.name_mem_names (member : C.Member) : member.name ∈ member.names := by
  cases member <;> simp [name, names]

theorem C.Member.notMem_macroNames {member : C.Member} (kept : member.name ∉ Status.macroNames) :
    ∀ spelled ∈ member.names, spelled ∉ Status.macroNames := by
  have small : presenceMember ∉ Status.macroNames ∧ valueMember ∉ Status.macroNames := by decide
  cases member with
  | numbers kind name dimensions => exact List.forall_mem_singleton.mpr kept
  | texts name dimensions => exact List.forall_mem_singleton.mpr kept
  | optionalNumber kind name =>
    exact List.forall_mem_cons.mpr ⟨small.1, List.forall_mem_cons.mpr ⟨small.2, List.forall_mem_singleton.mpr kept⟩⟩

theorem members_kept_iff {symbol : String} {fields : List Field} {storage : C.Storage}
    (stored : C.storage symbol fields = .ok storage) :
    (∀ spelled ∈ storage.members.flatMap C.Member.names, spelled ∉ Status.macroNames) ↔
      ∀ field ∈ fields, field.1 ∉ Status.macroNames := by
  obtain ⟨members, held, built⟩ := bind_eq_ok stored
  obtain rfl : ⟨symbol, members⟩ = storage := Except.ok.inj built
  have each := mapM_eq_ok_iff.mp held
  constructor
  · intro kept field listed
    obtain ⟨member, among, holds⟩ := exists_right_of_mem each listed
    rw [← C.name_of_memberOf holds]
    exact kept _ (List.mem_flatMap.mpr ⟨member, among, member.name_mem_names⟩)
  · intro kept spelled listed
    obtain ⟨member, among, inside⟩ := List.mem_flatMap.mp listed
    obtain ⟨field, listed, holds⟩ := exists_left_of_mem each among
    refine C.Member.notMem_macroNames ?_ spelled inside
    rw [C.name_of_memberOf holds]
    exact kept field listed

/-! ## Records -/

/-- The names of a record that is compiled are left alone by the macros at the start of its header just if its tag
is not the name of a status code and no field has such a name.  For the tag there are a few stems and names to avoid;
the names of functions are never taken away. -/
theorem names_survive_iff {name : String} {schema : Schema} {options : CompileOptions} {code : Code}
    (compiled : compile name schema options = .ok code) :
    let macros := (C.objectMacros options.platform.prelude).map Prod.fst
    let kept := (options.stem, name) ∉ macroCuts ∧ ∀ field ∈ schema.fields, field.1 ∉ Status.macroNames
    (∀ function ∈ code.functions, function.signature.name ∉ macros) ∧
      ((∀ spelled ∈ code.names, spelled ∉ macros) ↔ kept) ∧
      (code.names.map (C.expand options.platform.prelude) = code.names ↔ kept) := by
  intro macros kept
  have functions : ∀ function ∈ code.functions.map (·.signature.name), function ∉ Status.macroNames := by
    rw [names_of_compile compiled]
    exact fun function listed => functionName_notMem_macroNames listed
  have exactly : (∀ spelled ∈ code.names, spelled ∉ Status.macroNames) ↔ kept := by
    obtain ⟨-, readPlan, writePlan, storage, -, -, stored, -, rfl⟩ := code_of_compile compiled
    have tag : storage.tag = options.symbol name := by
      obtain ⟨members, -, built⟩ := bind_eq_ok stored
      exact congrArg C.Storage.tag (Except.ok.inj built).symm
    rw [Code.names, List.forall_mem_cons, List.forall_mem_append, and_iff_right functions, members_kept_iff stored, tag,
      options.symbol_mem_macroNames_iff]
  have same : macros = Status.macroNames := C.names_objectMacros_prelude options.platform
  have fixed : code.names.map (C.expand options.platform.prelude) = code.names.map id ↔
      ∀ spelled ∈ code.names, C.expand options.platform.prelude spelled = spelled := List.map_inj_left
  refine ⟨?_, ?_, ?_⟩
  · rw [same]
    exact fun function listed => functions _ (List.mem_map_of_mem listed)
  · rw [same]
    exact exactly
  · rw [List.map_id] at fixed
    rw [fixed, ← exactly]
    simp only [C.expand_prelude_eq_self_iff]

/-- A stem, a name and a field that come close to status codes are left alone. -/
theorem names_survive_iff_close :
    ∃ code, compile "OKAY" ⟨.struct, [("ALON_ERR", .option (.scalar .u16)), ("OK", .text)]⟩
        { stem := "ALON", platform := .solana } = .ok code ∧
      code.names = ["ALON_OKAY", "ALON_OKAY_deserialize", "ALON_OKAY_serialize", "ALON_OKAY_release",
        "ALON_OKAY_deserialize_account", "ALON_OKAY_serialize_account", "ALON_OKAY_deserialize_instruction",
        "is_some", "value", "ALON_ERR", "OK"] ∧
      code.names.map (C.expand C.Platform.solana.prelude) = code.names := by
  obtain ⟨code, compiled⟩ : ∃ code, compile "OKAY" ⟨.struct, [("ALON_ERR", .option (.scalar .u16)), ("OK", .text)]⟩
      { stem := "ALON", platform := .solana } = .ok code := ⟨_, rfl⟩
  obtain ⟨-, -, kept⟩ := names_survive_iff compiled
  refine ⟨code, compiled, ?_, kept.mpr (by decide)⟩
  cases compiled
  decide

/-- A field with the name of a status code is accepted, and so are a stem and a name that make one together.  The
preprocessor then leaves a number where the member or the tag was. -/
theorem names_taken_away :
    (∃ code, compile "t" ⟨.struct, [("ALON_OK", .scalar .u8)]⟩ {} = .ok code ∧ "ALON_OK" ∈ code.names ∧
      "ALON_OK" ∈ (C.objectMacros C.Platform.host.prelude).map Prod.fst ∧
      C.expand C.Platform.host.prelude "ALON_OK" = "0") ∧
    ∃ code, compile "ERR_ALLOC" ⟨.struct, [("x", .scalar .u8)]⟩ { stem := "ALON" } = .ok code ∧
      code.storage.tag = "ALON_ERR_ALLOC" ∧
      "ALON_ERR_ALLOC" ∈ (C.objectMacros C.Platform.host.prelude).map Prod.fst ∧
      C.expand C.Platform.host.prelude "ALON_ERR_ALLOC" = "2" := by
  rw [C.names_objectMacros_prelude]
  simp only [C.expand, C.objectMacros_prelude]
  exact ⟨⟨_, rfl, by decide, by decide, by decide⟩, _, rfl, rfl, by decide, by decide⟩

end PackedRecord
