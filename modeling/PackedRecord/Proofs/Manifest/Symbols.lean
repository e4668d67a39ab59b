import PackedRecord.Manifest.Bundle
import PackedRecord.Proofs.C.Definitions
import PackedRecord.Proofs.Compile.Agreement
import PackedRecord.Proofs.Manifest.Reading

/-!
# Names of generated functions

All records of a manifest are compiled into one header and one source, in which no function may be defined
twice.  A name is made of the stem, the name of the record and one of a few suffixes.  None of the suffixes
is the end of another one, so a name can be taken apart from its end, even if a record has a name that ends
like a suffix.

* `append_suffix_inj`: how a name is taken apart.
* `definedNames_source`, `definedNames_header`: what the code of one record defines.
* `definedNames_of_build`: what a bundle defines, without clashes.
-/

namespace PackedRecord

def C.Platform.suffixes : C.Platform → List String
  | .host => ["_deserialize", "_serialize", "_release"]
  | .solana => ["_deserialize", "_serialize", "_release", "_deserialize_account", "_serialize_account",
    "_deserialize_instruction"]

/-- The names of a record's functions. -/
def CompileOptions.functionNames (options : CompileOptions) (name : String) : List String :=
  options.platform.suffixes.map (options.symbol name ++ ·)

/-! ## Names apart -/

theorem append_suffix_inj {platform : C.Platform} {stem stem' suffix suffix' : String}
    (listed : suffix ∈ platform.suffixes) (listed' : suffix' ∈ platform.suffixes)
    (same : stem ++ suffix = stem' ++ suffix') : stem = stem' ∧ suffix = suffix' := by
  have free : ∀ a ∈ platform.suffixes, ∀ b ∈ platform.suffixes, a.toList <:+ b.toList → a = b := by
    cases platform <;> decide
  have spelled : stem.toList ++ suffix.toList = stem'.toList ++ suffix'.toList := by
    simpa using congrArg String.toList same
  have ends : suffix.toList <:+ stem.toList ++ suffix.toList := List.suffix_append ..
  have ends' : suffix'.toList <:+ stem.toList ++ suffix.toList := ⟨_, spelled.symm⟩
  obtain rfl : suffix = suffix' := by
    rcases List.suffix_or_suffix_of_suffix ends ends' with inside | inside
    · exact free _ listed _ listed' inside
    · exact (free _ listed' _ listed inside).symm
  exact ⟨String.toList_injective (List.append_cancel_right spelled), rfl⟩

theorem CompileOptions.symbol_inj {options : CompileOptions} {name name' : String}
    (same : options.symbol name = options.symbol name') : name = name' := by
  have spelled := congrArg String.toList same
  simp only [symbol, String.toList_append] at spelled
  exact String.toList_injective (List.append_cancel_left spelled)

theorem nodup_functionNames (options : CompileOptions) {names : List String} (distinct : names.Nodup) :
    (names.flatMap options.functionNames).Nodup := by
  rw [List.nodup_flatMap]
  constructor
  · intro name _
    have suffixes : options.platform.suffixes.Nodup := by
      cases options.platform <;> decide
    refine suffixes.map_on fun suffix listed suffix' listed' same => ?_
    exact (append_suffix_inj listed listed' same).2
  · refine distinct.imp fun different name listed listed' => ?_
    obtain ⟨suffix, among, rfl⟩ := List.mem_map.mp listed
    obtain ⟨suffix', among', same⟩ := List.mem_map.mp listed'
    exact different (CompileOptions.symbol_inj (append_suffix_inj among' among same).1).symm

/-! ## One record -/

theorem isIdentifier_functionNames {options : CompileOptions} {name : String}
    (symbol : C.isIdentifier (options.symbol name) = true) :
    ∀ function ∈ options.functionNames name, C.isIdentifier function = true := by
  have shapes : ∀ suffix ∈ options.platform.suffixes,
      suffix.toList.all C.continuesName = true ∧ '_' ∈ suffix.toList := by
    cases options.platform <;> decide
  refine List.forall_mem_map.mpr fun suffix listed => ?_
  exact C.isIdentifier_append symbol (shapes suffix listed).1 (shapes suffix listed).2

section

variable {name : String} {schema : Schema} {options : CompileOptions} {code : Code}
  (compiled : compile name schema options = .ok code)

include compiled

theorem plain_functions : ∀ f ∈ code.functions, f.Plain := by
  obtain ⟨symbol, identified⟩ := identified_of_compile compiled
  obtain ⟨-, readPlan, writePlan, storage, readBuilt, writeBuilt, -, -, rfl⟩ := code_of_compile compiled
  have reads : (C.reader (options.symbol name) readPlan).Plain :=
    C.plain_codec symbol (fun _ listed _ placed => Plan.named_of_build readBuilt rfl identified listed placed) .read
  have writes : (C.writer (options.symbol name) writePlan).Plain :=
    C.plain_codec symbol (fun _ listed _ placed => Plan.named_of_build writeBuilt rfl identified listed placed) .write
  have adapts : ∀ f ∈ (options.platform.adapters? (options.symbol name)).getD [], f.Plain := by
    cases options.platform with
    | host => simp [C.Platform.adapters?]
    | solana => exact C.plain_adapters symbol
  exact List.forall_mem_append.mpr ⟨List.forall_mem_cons.mpr ⟨reads, List.forall_mem_cons.mpr
    ⟨writes, List.forall_mem_singleton.mpr (C.plain_release symbol identified)⟩⟩, adapts⟩

theorem names_of_compile : code.functions.map (·.signature.name) = options.functionNames name := by
  obtain ⟨-, readPlan, writePlan, storage, -, -, -, -, rfl⟩ := code_of_compile compiled
  obtain ⟨stem, platform⟩ := options
  cases platform <;> rfl

theorem definedNames_source : C.definedNames code.source = options.functionNames name := by
  have plain := plain_functions compiled
  rw [Code.source, Code.definitions, C.definedNames_intercalate, List.flatMap_map,
    List.flatMap_congr fun f listed => (plain f listed).definedNames_text, ← names_of_compile compiled,
    List.map_eq_flatMap]

theorem definedNames_header : C.definedNames code.header = [options.symbol name] := by
  have plain := plain_functions compiled
  obtain ⟨symbol, identified⟩ := identified_of_compile compiled
  obtain ⟨-, readPlan, writePlan, storage, -, -, stored, -, rfl⟩ := code_of_compile compiled
  obtain ⟨tagged, -, named⟩ := C.members_of_storage stored identified.1
  have defined := C.definedNames_storage (tagged ▸ symbol) named
  rw [Code.header, C.definedNames_feed, defined, tagged, Code.prototypes, C.definedNames_prototypes plain,
    List.append_nil]

end

/-! ## Bundles -/

theorem definedNames_prelude (platform : C.Platform) : C.definedNames platform.prelude = [] := by
  have includes : ∀ header ∈ platform.includes, '\x7b' ∉ header.toList := by
    cases platform <;> decide
  have hooks : ∀ hook ∈ platform.hooks, '\x7b' ∉ hook.1.toList ∧ '\x7b' ∉ hook.2.toList := by
    cases platform <;> decide
  have macros : ∀ status : Status, '\x7b' ∉ status.macroName.toList := fun status =>
    (C.unbroken_macroName status).2.1
  have codes : ∀ status ∈ Status.all, '\x7b' ∉ (toString status.code).toList := fun status _ =>
    (C.unbroken_toString status.code).2.1
  apply C.definedNames_eq_nil
  unfold C.Platform.prelude
  simpa [String.toList_join, C.Platform.hookText, macros] using And.intro includes (And.intro hooks codes)

theorem definedNames_codes {options : CompileOptions} {cases : List Case} {codes : List Code}
    (each : List.Forall₂ (fun c code => compile c.name c.definition options = .ok code) cases codes) :
    codes.flatMap (fun code => C.definedNames code.header) = cases.map (fun c => options.symbol c.name) ∧
    codes.flatMap (fun code => C.definedNames code.source) = cases.flatMap (fun c => options.functionNames c.name) ∧
    ∀ c ∈ cases, C.isIdentifier (options.symbol c.name) = true := by
  induction each with
  | nil => simp
  | cons compiled _ inductionHypothesis =>
    obtain ⟨headers, sources, symbols⟩ := inductionHypothesis
    refine ⟨?_, ?_, List.forall_mem_cons.mpr ⟨(identified_of_compile compiled).1, symbols⟩⟩
    · rw [List.flatMap_cons, definedNames_header compiled, headers, List.map_cons, List.singleton_append]
    · rw [List.flatMap_cons, definedNames_source compiled, sources, List.flatMap_cons]

theorem build_eq_ok {manifest : Manifest} {options : CompileOptions} {bundle : Bundle}
    (built : Bundle.build manifest options = .ok bundle) : ∃ codes,
      List.Forall₂ (fun c code => compile c.name c.definition options = .ok code) manifest.cases codes ∧
      bundle.header = options.platform.prelude ++ String.join (codes.map fun c => "\n" ++ c.header) ∧
      bundle.source =
        "#include \"" ++ options.stem ++ ".h\"\n" ++ String.join (codes.map fun c => "\n" ++ c.source) := by
  obtain ⟨codes, compiled, result⟩ := bind_eq_ok built
  have same := Except.ok.inj result
  exact ⟨codes, mapM_eq_ok_iff.mp (mapError_eq_ok_iff.mp compiled), (congrArg Bundle.header same).symm,
    (congrArg Bundle.source same).symm⟩

/-- A bundle defines a struct for each record, and a function for each record and suffix, in the order of the
manifest.  All of these names are identifiers, and if the records have different names, as in every manifest
that was read, no function is defined twice.  The functions stand behind the line that includes the header, in
which the stem is as it was given, even if nothing is compiled. -/
theorem definedNames_of_build :
    (∀ text manifest, Manifest.ofText text = .ok manifest → (manifest.cases.map Case.name).Nodup) ∧
    ∀ (manifest : Manifest) (options : CompileOptions) (bundle : Bundle),
      (manifest.cases.map Case.name).Nodup → Bundle.build manifest options = .ok bundle →
      ∃ functions, bundle.source = "#include \"" ++ options.stem ++ ".h\"\n" ++ functions ∧
        C.definedNames bundle.header = manifest.cases.map (fun c => options.symbol c.name) ∧
        C.definedNames functions = manifest.cases.flatMap (fun c => options.functionNames c.name) ∧
        (∀ name ∈ C.definedNames bundle.header ++ C.definedNames functions, C.isIdentifier name = true) ∧
        (C.definedNames functions).Nodup := by
  refine ⟨fun text manifest read => (Manifest.wellFormed_of_ofText read).distinct,
    fun manifest options bundle different built => ?_⟩
  obtain ⟨codes, compiled, headerParts, sourceParts⟩ := build_eq_ok built
  obtain ⟨headers, sources, symbols⟩ := definedNames_codes compiled
  have header : C.definedNames bundle.header = manifest.cases.map fun c => options.symbol c.name := by
    rw [headerParts, C.definedNames_join, definedNames_prelude, List.nil_append, headers]
  have source : C.definedNames (String.join (codes.map fun c => "\n" ++ c.source)) =
      manifest.cases.flatMap fun c => options.functionNames c.name := by
    have parts := C.definedNames_join "" Code.source codes
    rwa [String.empty_append, C.definedNames_empty, List.nil_append, sources] at parts
  have distinct := nodup_functionNames options different
  rw [List.flatMap_map] at distinct
  refine ⟨_, sourceParts, header, source, ?_, ?_⟩
  · rw [header, source]
    refine List.forall_mem_append.mpr ⟨List.forall_mem_map.mpr symbols, fun name listed => ?_⟩
    obtain ⟨c, among, listed⟩ := List.mem_flatMap.mp listed
    exact isIdentifier_functionNames (symbols c among) name listed
  · rw [source]
    exact distinct

/-- Two records, one of which has a name that ends like the name of a function of the other. -/
theorem definedNames_of_build_suffixed :
    let schema : Schema := ⟨.struct, [("s", .scalar .u8)]⟩
    let manifest : Manifest := ⟨[⟨"a", schema, []⟩, ⟨"a_serialize", schema, []⟩]⟩
    (manifest.cases.map Case.name).Nodup ∧
      ∃ bundle functions, Bundle.build manifest { platform := .solana } = .ok bundle ∧
        bundle.source = "#include \"alon.h\"\n" ++ functions ∧
        C.definedNames functions = ["alon_a_deserialize", "alon_a_serialize", "alon_a_release",
          "alon_a_deserialize_account", "alon_a_serialize_account", "alon_a_deserialize_instruction",
          "alon_a_serialize_deserialize", "alon_a_serialize_serialize", "alon_a_serialize_release",
          "alon_a_serialize_deserialize_account", "alon_a_serialize_serialize_account",
          "alon_a_serialize_deserialize_instruction"] ∧
        (C.definedNames functions).Nodup := by
  intro schema manifest
  have different : (manifest.cases.map Case.name).Nodup := by
    simp [manifest]
  obtain ⟨bundle, built⟩ : ∃ bundle, Bundle.build manifest { platform := .solana } = .ok bundle := by
    obtain ⟨first, compiled⟩ : ∃ code, compile "a" schema { platform := .solana } = .ok code := ⟨_, rfl⟩
    obtain ⟨second, compiled'⟩ : ∃ code, compile "a_serialize" schema { platform := .solana } = .ok code :=
      ⟨_, rfl⟩
    have codes : Bundle.codes manifest { platform := .solana } = .ok [first, second] :=
      mapM_eq_ok_iff.mpr (.cons compiled (.cons compiled' .nil))
    rw [Bundle.build, codes]
    exact ⟨_, rfl⟩
  obtain ⟨functions, source, -, names, -, distinct⟩ := definedNames_of_build.2 _ _ _ different built
  refine ⟨different, bundle, functions, built, source, ?_, distinct⟩
  rw [names]
  decide

end PackedRecord
