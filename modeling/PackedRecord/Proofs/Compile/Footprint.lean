import Mathlib.Algebra.BigOperators.Group.List.Lemmas
import Mathlib.Algebra.BigOperators.Ring.List
import Mathlib.Algebra.GroupWithZero.Nat
import PackedRecord.Proofs.C.FieldLines
import PackedRecord.Proofs.Compile.Agreement
import PackedRecord.Proofs.Compile.Storable

/-!
# Copies fit what is declared

A generated struct is declared by a walk over the types of its own, with one dimension for each layer of
an array, while a copy has a length that comes from the wire.  If the two disagreed at any depth, the
generated code would write past a member.  Here the two are read off the text: the lines of the struct, and
the lines of the functions that spell out a field.

* `Plan.moves_of_build`: each field of a record is moved once.
* `Code.Fits`: the lines that declare a field, copy it and give it back agree.
* `compile_footprint`: they do for every field of all generated code, and every number that is written down
  is within the range of a literal.
-/

namespace PackedRecord

/-! ## Members -/

namespace C

/-- The bytes of the types that generated structs are declared with. -/
def typeWidth? : String → Option Nat
  | "uint8_t" => some 1
  | "uint16_t" => some 2
  | "uint32_t" | "float" => some 4
  | "uint64_t" | "double" => some 8
  | _ => none

theorem typeWidth?_cType (kind : ScalarKind) : typeWidth? kind.cType = some kind.width := by
  cases kind <;> rfl

/-- Numbers in place are moved as one number, or as a block of their width. -/
theorem transfer?_of_inline {ty : FieldType} (inPlace : Inline ty) {width : Nat}
    (fixed : ty.fixedWidth? = some width) (access : Access) :
    (∃ kind, ty = .scalar kind ∧ ty.transfer? access = some (.scalar kind access)) ∨
      ty.transfer? access = some (.block ty width access) := by
  cases inPlace with
  | scalar kind => exact .inl ⟨kind, rfl, rfl⟩
  | bytes nonempty =>
    cases fixed
    exact .inr rfl
  | array nonempty each =>
    right
    cases each <;> simp [FieldType.transfer?, fixed]

theorem le_prod_of_mem {dimensions : List Nat} (positive : ∀ n ∈ dimensions, 1 ≤ n) {n : Nat}
    (listed : n ∈ dimensions) : n ≤ dimensions.prod := by
  have nonzero : dimensions.prod ≠ 0 := List.prod_ne_zero fun zero => absurd (positive 0 zero) (by decide)
  exact Nat.le_of_dvd (Nat.pos_of_ne_zero nonzero) (List.dvd_prod listed)

/-- The dimensions of a member are within the numbers of the step that moves it. -/
theorem le_of_mem_dimensions {name : String} {ty : FieldType} (storable : Storable ty) {member : Member}
    (held : memberOf name ty = .ok member) {access : Access} {transfer : Transfer}
    (moved : ty.transfer? access = some transfer) {most : Nat}
    (small : ∀ place, ∀ n ∈ (Step.move place transfer).sizes, n ≤ most) : ∀ n ∈ member.dimensions, n ≤ most := by
  cases storable with
  | inline inPlace fixed =>
    obtain ⟨kind, dimensions, parts, positive, size⟩ := arrayParts?_of_inline inPlace
    cases (memberOf_of_inline inPlace parts).symm.trans held
    rcases transfer?_of_inline inPlace fixed access with ⟨kind', rfl, isScalar⟩ | isBlock
    · cases parts
      simp [Member.dimensions]
    · cases isBlock.symm.trans moved
      intro n listed
      calc
        n ≤ dimensions.prod := le_prod_of_mem positive listed
        _ ≤ kind.width * dimensions.prod := Nat.le_mul_of_pos_left _ (by cases kind <;> decide)
        _ = _ := size _ fixed
        _ ≤ most := small ⟨{ base := readerBase }, name⟩ _ (by cases access <;> simp [Step.sizes])
  | texts nonempty =>
    cases held
    cases moved
    simpa [Member.dimensions, Step.sizes] using small ⟨{ base := readerBase }, name⟩
  | text | optionalText | optionalScalar =>
    cases held
    simp [Member.dimensions]

end C

/-! ## What is moved for a field -/

theorem FieldType.leavesIn_of_flat (scope : Scope) {fields : List Field}
    (flat : ∀ field ∈ fields, ∀ inner, field.2 ≠ .struct inner) :
    leavesIn scope fields = fields.map fun field => (⟨scope, field.1⟩, field.2) := by
  induction fields with
  | nil => rfl
  | cons field fields inductionHypothesis =>
    obtain ⟨name, ty⟩ := field
    obtain ⟨first, others⟩ := List.forall_mem_cons.mp flat
    rw [leavesIn, inductionHypothesis others, List.map_cons]
    cases ty with
    | struct inner => exact absurd rfl (first inner)
    | _ => rfl

namespace Plan

/-- A field is moved at its place in the record, as its type wants it. -/
def MovesField (base : String) (move : Place × Transfer) (field : Field) : Prop :=
  move.1 = ⟨{ base }, field.1⟩ ∧ ∃ access, field.2.transfer? access = some move.2

/-- Without nested structs, what is moved are the fields, in order. -/
theorem moves_of_build {fields : List Field} (flat : ∀ field ∈ fields, ∀ inner, field.2 ≠ .struct inner)
    {base : String} {plan : Plan} (built : build fields base = .ok plan) :
    List.Forall₂ (MovesField base) plan.moves fields := by
  obtain ⟨final, laid, -⟩ := laidOut_of_build built
  have related := laid.moves
  rw [FieldType.leavesIn_of_flat _ flat, List.forall₂_map_right_iff] at related
  rw [moves]
  generalize plan.steps = steps at related
  clear built laid flat
  induction steps generalizing fields with
  | nil => simpa using related
  | cons step steps inductionHypothesis =>
    cases step with
    | seedCursor offset => exact inductionHypothesis related
    | move place transfer =>
      rw [List.filter_cons_of_pos rfl] at related
      obtain ⟨field, fields, first, others, rfl⟩ := List.forall₂_cons_left_iff.mp related
      obtain ⟨access, transfer', same, moved⟩ := first
      cases same
      exact .cons ⟨rfl, access, moved⟩ (inductionHypothesis others)

variable {moves : List (Place × Transfer)} {fields : List Field} {base : String}

theorem names_of_moves (related : List.Forall₂ (MovesField base) moves fields) :
    moves.map (fun move => move.1.name) = fields.map Prod.fst := by
  induction related with
  | nil => rfl
  | cons first others inductionHypothesis => rw [List.map_cons, List.map_cons, inductionHypothesis, first.1]

theorem top_of_moves (related : List.Forall₂ (MovesField base) moves fields) :
    ∀ move ∈ moves, move.1.scope.members = [] := by
  induction related with
  | nil => simp
  | cons first others inductionHypothesis =>
    exact List.forall_mem_cons.mpr ⟨by rw [first.1], inductionHypothesis⟩

/-- Where names are distinct, each field is moved once. -/
theorem filter_moves (related : List.Forall₂ (MovesField base) moves fields)
    (distinct : (fields.map Prod.fst).Nodup) :
    ∀ field ∈ fields, ∃ transfer access, field.2.transfer? access = some transfer ∧
      (moves.filter fun move => move.1.name = field.1) = [(⟨{ base }, field.1⟩, transfer)] := by
  intro field listed
  obtain ⟨⟨place, transfer⟩, among, rfl, access, moved⟩ := exists_left_of_mem related listed
  rw [← names_of_moves related] at distinct
  exact ⟨transfer, access, moved, filter_eq_singleton distinct among⟩

theorem moves_rebase (plan : Plan) (base : String) :
    (plan.rebase base).moves = plan.moves.map fun move => (move.1.rebase base, move.2) := by
  simp only [moves, rebase, List.filterMap_map, List.map_filterMap]
  congr 1
  funext step
  cases step <;> rfl

end Plan

/-! ## Lines of a field -/

namespace C

theorem text_top (base name : String) : (⟨{ base }, name⟩ : Place).text = base ++ "->" ++ name := by
  apply String.toList_injective
  simp [Place.toList_text, Place.path]

theorem text_value (base name : String) :
    "&" ++ ((⟨{ base }, name⟩ : Place).member valueMember).text = "&" ++ (base ++ "->" ++ name) ++ ".value" := by
  apply String.toList_injective
  unfold valueMember
  simp [Place.toList_text, Place.path, Place.member, Scope.enter]

theorem freeLine_field (name : String) :
    freeLine (.field ⟨{ base := "x" }, name⟩) = "  alon_free(x->" ++ name ++ ");" := by
  apply String.toList_injective
  unfold freeLine
  simp [Lvalue.text, text_top]

theorem freeLine_item (name : String) (i : Nat) :
    freeLine (.item ⟨{ base := "x" }, name⟩ (.literal i)) = "  alon_free(x->" ++ name ++ "[" ++ toString i ++ "]);" := by
  apply String.toList_injective
  unfold freeLine
  simp [Lvalue.text, Subscript.text, text_top]

theorem lines_texts (name : String) (count : Nat) :
    (Member.texts name []).lines = ["  char *" ++ name ++ ";"] ∧
      (Member.texts name [count]).lines = ["  char *" ++ name ++ "[" ++ toString count ++ "];"] := by
  constructor
  · refine eq_of_toList ?_
    unfold Member.lines dimensionsText
    simp
  · refine eq_of_toList ?_
    unfold Member.lines dimensionsText
    simp

end C

/-- The reader and the writer have one line that copies a field. -/
def Code.CopiesOnce (code : Code) (name : String) (line : C.Direction → String → String) : Prop :=
  C.copiesOf "out" name code.reader.text = [line .read ("out->" ++ name)] ∧
    C.copiesOf "in" name code.writer.text = [line .write ("in->" ++ name)]

/-- The lines that declare a field, those that copy it and those that give it back agree.  Numbers are copied
as a whole.  Texts are copied one by one, in a loop if there are several, and each is given back. -/
def Code.Fits (code : Code) (name : String) (declared : List String) : Transfer → Prop
  | .scalar _ _ | .block _ _ _ => ∃ (type : String) (width : Nat) (dimensions : List Nat) (position : String),
    C.typeWidth? type = some width ∧ (∀ n ∈ dimensions, 1 ≤ n) ∧
    declared = ["  " ++ type ++ " " ++ name ++ String.join (dimensions.map fun n => "[" ++ toString n ++ "]") ++ ";"] ∧
    code.CopiesOnce name fun direction x =>
      "  " ++ C.copyText direction ("&" ++ x) position (toString (width * dimensions.prod))
  | .optionalScalar _ => ∃ type width, C.typeWidth? type = some width ∧
    declared =
      ["  struct \x7b", "    uint8_t is_some;", "    " ++ type ++ " value;", "  \x7d " ++ name ++ ";"] ∧
    code.CopiesOnce name fun direction x =>
      "      " ++ C.copyText direction ("&" ++ x ++ ".value") "offset" (toString width)
  | .texts count => 1 ≤ count ∧ declared = ["  char *" ++ name ++ "[" ++ toString count ++ "];"] ∧
    (code.CopiesOnce name fun direction x => "    " ++ C.copyText direction (x ++ "[i]") "offset" "len") ∧
    (∀ line ∈ C.copiesOf "out" name code.reader.text, C.LoopsOver count line code.reader.text) ∧
    (∀ line ∈ C.copiesOf "in" name code.writer.text, C.LoopsOver count line code.writer.text) ∧
    C.freesOf "x" name code.release.text =
      (List.range count).map fun i => "  alon_free(x->" ++ name ++ "[" ++ toString i ++ "]);"
  | .text => declared = ["  char *" ++ name ++ ";"] ∧
    (code.CopiesOnce name fun direction x => "    " ++ C.copyText direction x "offset" "len") ∧
    C.freesOf "x" name code.release.text = ["  alon_free(x->" ++ name ++ ");"]
  | .optionalText => declared = ["  char *" ++ name ++ ";"] ∧
    (code.CopiesOnce name fun direction x => "      " ++ C.copyText direction x "offset" "len") ∧
    C.freesOf "x" name code.release.text = ["  alon_free(x->" ++ name ++ ");"]

/-- Both plans move a field once and alike, with numbers that can be written down. -/
theorem Plan.exists_transfer {fields : List Field} (supported : Supported fields) {readPlan writePlan : Plan}
    (readBuilt : build fields C.readerBase = .ok readPlan)
    (writeBuilt : build fields C.writerBase = .ok writePlan) :
    ∀ field ∈ fields, ∃ transfer access, field.2.transfer? access = some transfer ∧
      (readPlan.moves.filter fun move => move.1.name = field.1) =
        [(⟨{ base := C.readerBase }, field.1⟩, transfer)] ∧
      (writePlan.moves.filter fun move => move.1.name = field.1) =
        [(⟨{ base := C.writerBase }, field.1⟩, transfer)] ∧
      ∀ place, ∀ n ∈ (Step.move place transfer).sizes, n ≤ maxLiteral := by
  intro field listed
  have related := moves_of_build supported.flat readBuilt
  obtain ⟨transfer, access, moved, alone⟩ := filter_moves related supported.distinct field listed
  refine ⟨transfer, access, moved, alone, ?_, ?_⟩
  · rw [build_rebase fields C.readerBase C.writerBase, readBuilt] at writeBuilt
    cases writeBuilt
    rw [moves_rebase, List.filter_map]
    show List.map _ (readPlan.moves.filter fun move => move.1.name = field.1) = _
    rw [alone]
    rfl
  · intro place n size
    obtain ⟨final, laid, -⟩ := laidOut_of_build readBuilt
    obtain ⟨step, stepped, same⟩ := List.mem_filterMap.mp (mem_of_filter_eq alone)
    cases step with
    | seedCursor offset => cases same
    | move place' transfer' =>
      cases same
      exact laid.sizes_le (Nat.zero_le _) _ stepped n size

/-- A field for which the functions have the lines of its step fits the member that is declared for it. -/
theorem Code.fits_of_storable {code : Code} {field : Field} (storable : Storable field.2) {member : C.Member}
    (held : C.memberOf field.1 field.2 = .ok member) {access : Access} {transfer : Transfer}
    (moved : field.2.transfer? access = some transfer)
    (reads : C.copiesOf "out" field.1 code.reader.text = [C.copyLine .read ⟨{ base := "out" }, field.1⟩ transfer])
    (writes : C.copiesOf "in" field.1 code.writer.text = [C.copyLine .write ⟨{ base := "in" }, field.1⟩ transfer])
    (loops : ∀ count, transfer = .texts count →
      C.LoopsOver count (C.copyLine .read ⟨{ base := "out" }, field.1⟩ transfer) code.reader.text ∧
        C.LoopsOver count (C.copyLine .write ⟨{ base := "in" }, field.1⟩ transfer) code.writer.text)
    (frees : C.freesOf "x" field.1 code.release.text =
      (C.ownedBy { base := "x" } field.1 field.2).map C.freeLine) :
    code.Fits field.1 member.lines transfer := by
  obtain ⟨name, ty⟩ := field
  cases storable with
  | inline inPlace fixed =>
    obtain ⟨kind, dimensions, parts, positive, size⟩ := C.arrayParts?_of_inline inPlace
    cases (C.memberOf_of_inline inPlace parts).symm.trans held
    have total := size _ fixed
    rcases C.transfer?_of_inline inPlace fixed access with ⟨kind', rfl, isScalar⟩ | isBlock
    · cases isScalar.symm.trans moved
      cases parts
      simp only [C.copyLine, C.text_top] at reads writes
      refine ⟨_, _, [], C.positionText access, C.typeWidth?_cType kind, positive, rfl, ?_⟩
      rw [List.prod_nil, Nat.mul_one]
      exact ⟨reads, writes⟩
    · cases isBlock.symm.trans moved
      simp only [C.copyLine, C.text_top] at reads writes
      refine ⟨_, _, dimensions, C.positionText access, C.typeWidth?_cType kind, positive, rfl, ?_⟩
      rw [total]
      exact ⟨reads, writes⟩
  | text | optionalText =>
    cases held
    cases moved
    simp only [C.copyLine, C.text_top] at reads writes
    refine ⟨(C.lines_texts name 0).1, ⟨reads, writes⟩, frees.trans ?_⟩
    rw [C.ownedBy, List.map_singleton, C.freeLine_field]
  | texts nonempty =>
    cases held
    cases moved
    obtain ⟨readLoop, writeLoop⟩ := loops _ rfl
    refine ⟨C.one_le_toNat nonempty, (C.lines_texts name _).2, ?_, ?_, ?_, frees.trans ?_⟩
    · simp only [C.copyLine, C.text_top] at reads writes
      exact ⟨reads, writes⟩
    · rw [reads]
      exact List.forall_mem_singleton.mpr readLoop
    · rw [writes]
      exact List.forall_mem_singleton.mpr writeLoop
    · rw [C.ownedBy, List.map_map]
      exact List.map_congr_left fun i _ => C.freeLine_item name i
  | optionalScalar kind =>
    cases held
    cases moved
    refine ⟨_, _, C.typeWidth?_cType kind, rfl, ?_⟩
    simp only [C.copyLine, C.text_value] at reads writes
    exact ⟨reads, writes⟩

theorem C.lt_of_mem_ownedBy {scope : Scope} {name : String} {ty : FieldType} (storable : Storable ty) {place : Place}
    {n : Nat} (listed : Lvalue.item place (.literal n) ∈ ownedBy scope name ty) {access : Access}
    {transfer : Transfer} (moved : ty.transfer? access = some transfer) :
    ∃ count, transfer = .texts count ∧ n < count := by
  cases storable with
  | inline inPlace fixed =>
    cases inPlace with
    | array nonempty each => cases each <;> cases listed
    | _ => cases listed
  | texts nonempty =>
    cases moved
    rw [ownedBy] at listed
    obtain ⟨i, below, same⟩ := List.mem_map.mp listed
    cases same
    exact ⟨_, rfl, List.mem_range.mp below⟩
  | text | optionalText | optionalScalar => simp [ownedBy] at listed

section

variable {name : String} {schema : Schema} {options : CompileOptions} {code : Code}
  (compiled : compile name schema options = .ok code)

include compiled

theorem Code.storage_of_compile : code.storage.tag = options.symbol name ∧ code.storage.members ≠ [] ∧
    List.Forall₂ (fun field member => C.memberOf field.1 field.2 = .ok member) schema.fields code.storage.members ∧
    ∀ member ∈ code.storage.members, C.isIdentifier member.name = true := by
  obtain ⟨symbol, identified⟩ := identified_of_compile compiled
  obtain ⟨verified, readPlan, writePlan, storage, -, -, stored, -, rfl⟩ := code_of_compile compiled
  obtain ⟨tagged, held, named⟩ := C.members_of_storage stored identified.1
  refine ⟨tagged, fun none => (verify_eq_ok verified).2.nonempty ?_, held, named⟩
  exact List.length_eq_zero_iff.mp (held.length_eq.trans (congrArg List.length none))

/-- Every number in generated code is within the range of a literal. -/
theorem Code.le_of_mem_numerals :
    ∀ text ∈ code.storage.text :: code.functions.map C.Function.text, ∀ n ∈ C.numerals text, n ≤ maxLiteral := by
  obtain ⟨symbol, identified⟩ := identified_of_compile compiled
  obtain ⟨tagged, nonempty, held, named⟩ := Code.storage_of_compile compiled
  obtain ⟨verified, readPlan, writePlan, storage, readBuilt, writeBuilt, -, -, rfl⟩ :=
    code_of_compile compiled
  obtain ⟨-, supported⟩ := verify_eq_ok verified
  have each := Plan.exists_transfer supported readBuilt writeBuilt
  have storable := storable_of_verify verified
  rw [List.forall_mem_cons, List.forall_mem_map]
  constructor
  · intro n listed
    rw [C.numerals_storage (tagged ▸ symbol) nonempty named, List.mem_flatMap] at listed
    obtain ⟨member, among, listed⟩ := listed
    obtain ⟨field, among, holds⟩ := exists_left_of_mem held among
    obtain ⟨transfer, access, moved, -, -, small⟩ := each field among
    exact C.le_of_mem_dimensions (storable field among) holds moved small n listed
  · intro function listed
    simp only [functions, List.cons_append, List.nil_append, List.mem_cons] at listed
    rcases listed with rfl | rfl | rfl | listed
    · exact C.le_of_mem_numerals_codec readBuilt symbol (by decide) identified .read
    · exact C.le_of_mem_numerals_codec writeBuilt symbol (by decide) identified .write
    · intro n listed
      obtain ⟨place, owned⟩ := C.mem_ownedIn_of_numerals symbol identified n listed
      rw [C.ownedIn_eq_flatMap_fields] at owned
      obtain ⟨field, among, owned⟩ := List.mem_flatMap.mp owned
      obtain ⟨transfer, access, moved, -, -, small⟩ := each field among
      obtain ⟨count, rfl, below⟩ := C.lt_of_mem_ownedBy (storable field among) owned moved
      exact Nat.le_trans (Nat.le_of_lt below) (small place count (by simp [Step.sizes]))
    · intro n written
      cases platform : options.platform with
      | host => simp [platform, C.Platform.adapters?] at listed
      | solana =>
        simp only [platform, C.Platform.adapters?, Option.getD_some] at listed
        rw [C.numerals_adapters symbol function listed] at written
        cases written

end

/-- Declared storage is what the copies move.  The struct has one block of lines for every field, and it fits
the one copy that the reader and the writer each have for the field: the width of the type times all dimensions
is the width of the copy, and the dimension of an array of texts is the bound of the loop around the copy and
the number of texts given back.  No dimension is empty, and no number is out of the range of a literal. -/
theorem compile_footprint {name : String} {schema : Schema} {options : CompileOptions} {code : Code}
    (compiled : compile name schema options = .ok code) :
    ∃ readPlan writePlan declared, Plan.build schema.fields "out" = .ok readPlan ∧
      Plan.build schema.fields "in" = .ok writePlan ∧
      C.textLines code.storage.text =
        ("struct " ++ options.symbol name ++ " \x7b") :: (declared.flatten ++ ["\x7d;"]) ∧
      List.Forall₂ (fun field lines => ∃ transfer,
          (readPlan.moves.filter fun move => move.1.name = field.1) = [(⟨{ base := "out" }, field.1⟩, transfer)] ∧
          (writePlan.moves.filter fun move => move.1.name = field.1) = [(⟨{ base := "in" }, field.1⟩, transfer)] ∧
          code.Fits field.1 lines transfer)
        schema.fields declared ∧
      ∀ text ∈ code.storage.text :: code.functions.map C.Function.text,
        ∀ n ∈ C.numerals text, n ≤ 2 ^ 63 - 1 := by
  have written := Code.le_of_mem_numerals compiled
  obtain ⟨symbol, identified⟩ := identified_of_compile compiled
  obtain ⟨tagged, nonempty, held, named⟩ := Code.storage_of_compile compiled
  have lines := C.textLines_storage (tagged ▸ symbol) nonempty named
  obtain ⟨verified, readPlan, writePlan, storage, readBuilt, writeBuilt, -, -, rfl⟩ :=
    code_of_compile compiled
  obtain ⟨-, supported⟩ := verify_eq_ok verified
  refine ⟨readPlan, writePlan, storage.members.map C.Member.lines, readBuilt, writeBuilt, ?_, ?_, written⟩
  · rw [lines, tagged, List.flatMap_def]
  · rw [List.forall₂_map_right_iff]
    refine List.Forall₂.imp ?_ ((List.forall₂_and_left _ _).mpr ⟨fun field listed => listed, held⟩)
    intro field member ⟨listed, held⟩
    obtain ⟨transfer, access, moved, read, write, -⟩ :=
      Plan.exists_transfer supported readBuilt writeBuilt field listed
    refine ⟨transfer, read, write, ?_⟩
    have reads := C.copiesOf_codec readBuilt symbol identified (by decide) .read
      (Plan.top_of_moves (Plan.moves_of_build supported.flat readBuilt)) field.1
    have writes := C.copiesOf_codec writeBuilt symbol identified (by decide) .write
      (Plan.top_of_moves (Plan.moves_of_build supported.flat writeBuilt)) field.1
    rw [read, List.map_singleton] at reads
    rw [write, List.map_singleton] at writes
    refine Code.fits_of_storable (storable_of_verify verified field listed) held moved reads writes ?_
      (C.freesOf_release symbol identified supported.flat supported.distinct field listed)
    rintro count rfl
    exact ⟨C.loops_codec readBuilt symbol identified (by decide) .read (mem_of_filter_eq read),
      C.loops_codec writeBuilt symbol identified (by decide) .write (mem_of_filter_eq write)⟩

/-- An array of arrays of runs of bytes is declared with three dimensions and copied as their product, and an
array of texts is copied in a loop. -/
theorem compile_footprint_grid :
    let grid : FieldType := .array (.array (.bytes 5) 4) 3
    let fields : List Field := [("grid", grid), ("names", .array .text 2)]
    ∃ code, compile "board" ⟨.struct, fields⟩ {} = .ok code ∧
      C.textLines code.storage.text =
        ["struct alon_board \x7b", "  uint8_t grid[3][4][5];", "  char *names[2];", "\x7d;"] ∧
      code.Fits "grid" ["  uint8_t grid[3][4][5];"] (.block grid 60 (.static 0)) ∧
      code.Fits "names" ["  char *names[2];"] (.texts 2) := by
  intro grid fields
  have compiled : ∃ code, compile "board" ⟨.struct, fields⟩ {} = .ok code := ⟨_, rfl⟩
  obtain ⟨code, compiled⟩ := compiled
  have text : C.textLines code.storage.text =
      ["struct alon_board \x7b", "  uint8_t grid[3][4][5];", "  char *names[2];", "\x7d;"] := by
    cases compiled
    decide
  obtain ⟨readPlan, writePlan, declared, readBuilt, -, lines, related, -⟩ := compile_footprint compiled
  cases readBuilt
  cases related with
  | cons first related =>
    cases related with
    | cons second related =>
      cases related
      obtain ⟨_, firstRead, -, gridFits⟩ := first
      obtain ⟨_, secondRead, -, namesFits⟩ := second
      cases firstRead
      cases secondRead
      obtain ⟨type, width, dimensions, position, -, -, rfl, -⟩ := id gridFits
      obtain ⟨-, rfl, -⟩ := id namesFits
      obtain ⟨gridLine, rest⟩ := List.cons.inj (List.cons.inj (text.symm.trans lines)).2
      obtain ⟨namesLine, -⟩ := List.cons.inj rest
      exact ⟨code, compiled, text, gridLine ▸ gridFits, namesLine ▸ namesFits⟩

end PackedRecord
