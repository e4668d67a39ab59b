import Mathlib.Data.List.Basic
import PackedRecord.C.Identifier
import PackedRecord.Proofs.Except
import PackedRecord.Proofs.Plan.Structure
import PackedRecord.Proofs.Value.Insertion
import PackedRecord.Proofs.Value.Normal

/-!
# Which places a record has

A walk into the structs of a record meets each field that is no struct once, under a path of its own.
Generated code spells that path out, and no two places have the same spelling as long as all names are
identifiers: an arrow ends the base, dots divide the path, and no name holds any of these.

* `FieldType.pairwise_leavesIn`: the paths of a record, none in front of another.
* `Place.text_inj`: a place can be read off its text.
* `Plan.places_eq_leaves`: the places of a plan are those of its record.
* `Plan.places_apart`: generated code has a text of its own for each of them.
-/

namespace PackedRecord

/-! ## Names -/

namespace C

theorem continuesName_of_mem {name : String} (identifier : isIdentifier name = true) :
    ∀ c ∈ name.toList, continuesName c = true := by
  rw [isIdentifier, isName, Bool.and_eq_true] at identifier
  have shape := identifier.1
  split at shape
  · cases shape
  · rename_i first rest spelled
    rw [spelled]
    simp only [Bool.and_eq_true, List.all_eq_true, startsName, Bool.or_eq_true] at shape
    refine List.forall_mem_cons.mpr ⟨?_, shape.2⟩
    rw [continuesName, Char.isAlphanum]
    rcases shape.1 with letter | underscore
    · simp [letter]
    · simp [underscore]

/-- A character that no name has does not occur in an identifier. -/
theorem notMem_of_isIdentifier {name : String} (identifier : isIdentifier name = true) {c : Char}
    (foreign : continuesName c = false) : c ∉ name.toList := by
  intro listed
  rw [continuesName_of_mem identifier c listed] at foreign
  cases foreign

theorem toList_ne_nil_of_isIdentifier {name : String} (identifier : isIdentifier name = true) :
    name.toList ≠ [] := by
  intro empty
  rw [isIdentifier, isName, empty] at identifier
  cases identifier

/-- A longer name is an identifier too.  It has an underscore behind its first character, as no keyword has. -/
theorem isIdentifier_append {stem tail : String} (identifier : isIdentifier stem = true)
    (continues : tail.toList.all continuesName = true) (underscore : '_' ∈ tail.toList) :
    isIdentifier (stem ++ tail) = true := by
  have keywordTails : ∀ keyword ∈ keywords, '_' ∉ keyword.toList.tail := by decide
  cases spelled : stem.toList with
  | nil => exact absurd spelled (toList_ne_nil_of_isIdentifier identifier)
  | cons first rest =>
    have whole : (stem ++ tail).toList = first :: (rest ++ tail.toList) := by simp [spelled]
    simp only [isIdentifier, isName, spelled, Bool.and_eq_true] at identifier
    have unkept : stem ++ tail ∉ keywords := by
      intro listed
      have outside := keywordTails _ listed
      simp [whole, underscore] at outside
    simp only [isIdentifier, isName, whole, Bool.and_eq_true, List.all_append, Bool.not_eq_true',
      List.contains_eq_mem, decide_eq_false_iff_not]
    exact ⟨⟨identifier.1.1, identifier.1.2, continues⟩, unkept⟩

end C

def Identified (fields : List Field) : Prop :=
  ∀ field ∈ fields, C.isIdentifier field.1 = true

instance (fields : List Field) : Decidable (Identified fields) :=
  inferInstanceAs (Decidable (∀ field ∈ fields, _))

namespace FieldType

variable {good : List Field → Prop} [DecidablePred good]

mutual

def decideEveryScope : (ty : FieldType) → Decidable (ty.EveryScope good)
  | .struct fields =>
    have := decideEveryScopeIn fields
    inferInstanceAs (Decidable (good fields ∧ EveryScopeIn good fields))
  | .scalar _ | .text | .bytes _ | .array .. | .option _ | .enum _ => isTrue trivial

def decideEveryScopeIn : (fields : List Field) → Decidable (EveryScopeIn good fields)
  | [] => isTrue trivial
  | (_, ty) :: rest =>
    have := decideEveryScope ty
    have := decideEveryScopeIn rest
    inferInstanceAs (Decidable (ty.EveryScope good ∧ EveryScopeIn good rest))

end

instance (ty : FieldType) : Decidable (ty.EveryScope good) :=
  ty.decideEveryScope

end FieldType

namespace Place

def Named (p : Place) : Prop :=
  C.isIdentifier p.scope.base = true ∧ ∀ name ∈ p.path, C.isIdentifier name = true

theorem Named.member {p : Place} (named : p.Named) {name : String} (identifier : C.isIdentifier name = true) :
    (p.member name).Named := by
  refine ⟨named.1, ?_⟩
  rw [path, List.forall_mem_append]
  exact ⟨named.2, List.forall_mem_singleton.mpr identifier⟩

/-! ## Texts of places -/

theorem toList_text (p : Place) :
    p.text.toList = p.scope.base.toList ++ '-' :: '>' :: ['.'].intercalate (p.path.map String.toList) := by
  simp [text, Scope.resolve, path, String.toList_intercalate]

theorem path_inj {p q : Place} (base : p.scope.base = q.scope.base) (same : p.path = q.path) : p = q := by
  obtain ⟨⟨pBase, pMembers⟩, pName⟩ := p
  obtain ⟨⟨qBase, qMembers⟩, qName⟩ := q
  obtain ⟨rfl, names⟩ := List.append_inj' same rfl
  cases List.singleton_inj.mp names
  cases base
  rfl

/-- A text is divided in one way at the first of a character. -/
theorem eq_of_divided {divider : Char} {a b rest rest' : List Char} (outside : divider ∉ a)
    (outside' : divider ∉ b) (same : a ++ divider :: rest = b ++ divider :: rest') :
    a = b ∧ rest = rest' := by
  have front : ∀ {l rest : List Char}, divider ∉ l →
      (l ++ divider :: rest).takeWhile (· ≠ divider) = l := by
    intro l rest outside
    rw [List.takeWhile_append_of_pos, List.takeWhile_cons_of_neg (by simp), List.append_nil]
    intro c listed
    have : c ≠ divider := fun divides => outside (divides ▸ listed)
    simpa using this
  obtain rfl : a = b := by rw [← @front a rest outside, same, front outside']
  exact ⟨rfl, by simpa using same⟩

theorem text_inj {p q : Place} (pNamed : p.Named) (qNamed : q.Named) (same : p.text = q.text) : p = q := by
  have spelled := congrArg String.toList same
  rw [toList_text, toList_text] at spelled
  obtain ⟨bases, spelled⟩ := eq_of_divided (C.notMem_of_isIdentifier pNamed.1 rfl)
    (C.notMem_of_isIdentifier qNamed.1 rfl) spelled
  have parts : ∀ {r : Place}, r.Named →
      (['.'].intercalate (r.path.map String.toList)).splitOn '.' = r.path.map String.toList := by
    intro r named
    refine List.splitOn_intercalate _ ?_ (by simp [path])
    intro part listed
    obtain ⟨name, among, rfl⟩ := List.mem_map.mp listed
    exact C.notMem_of_isIdentifier (named.2 name among) rfl
  have paths : p.path.map String.toList = q.path.map String.toList := by
    rw [← parts pNamed, (List.cons.inj spelled).2, parts qNamed]
  exact path_inj (String.toList_injective bases)
    (List.map_injective_iff.mpr (fun _ _ => String.toList_injective) paths)

theorem notMem_intercalate {c divider : Char} (different : c ≠ divider) {parts : List (List Char)}
    (outside : ∀ part ∈ parts, c ∉ part) : c ∉ [divider].intercalate parts := by
  induction parts with
  | nil => simp
  | cons part rest inductionHypothesis =>
    obtain ⟨first, others⟩ := List.forall_mem_cons.mp outside
    cases rest with
    | nil => simpa using first
    | cons next rest =>
      rw [List.intercalate_cons_cons]
      simp [first, different, inductionHypothesis others]

/-- A character outside names and paths does not occur in the text of a place. -/
theorem notMem_text {p : Place} (named : p.Named) {c : Char} (foreign : C.continuesName c = false)
    (divides : c ∉ ['-', '>', '.']) : c ∉ p.text.toList := by
  simp only [List.mem_cons, List.not_mem_nil, or_false, not_or] at divides
  obtain ⟨dash, greater, dot⟩ := divides
  have between : c ∉ ['.'].intercalate (p.path.map String.toList) := by
    refine notMem_intercalate dot fun part listed => ?_
    obtain ⟨name, among, rfl⟩ := List.mem_map.mp listed
    exact C.notMem_of_isIdentifier (named.2 name among) foreign
  rw [toList_text]
  simp [C.notMem_of_isIdentifier named.1 foreign, dash, greater, between]

end Place

/-! ## Leaves -/

namespace FieldType

theorem leavesIn_eq_flatMap (scope : Scope) (fields : List Field) :
    leavesIn scope fields = fields.flatMap fun field => field.2.leaves scope field.1 := by
  induction fields with
  | nil => rfl
  | cons field fields inductionHypothesis => rw [leavesIn, inductionHypothesis, List.flatMap_cons]

theorem leaves_of_flat {ty : FieldType} (flat : ∀ inner, ty ≠ .struct inner) (scope : Scope) (name : String) :
    ty.leaves scope name = [(⟨scope, name⟩, ty)] := by
  cases ty with
  | struct inner => exact absurd rfl (flat inner)
  | _ => rfl

theorem flat_of_mem_leaves (ty : FieldType) : ∀ (scope : Scope) (name : String),
    ∀ leaf ∈ ty.leaves scope name, ∀ inner, leaf.2 ≠ .struct inner := by
  induction ty with
  | struct fields inductionHypothesis =>
    intro scope name leaf listed
    rw [leaves, leavesIn_eq_flatMap, List.mem_flatMap] at listed
    obtain ⟨field, among, listed⟩ := listed
    exact inductionHypothesis field among _ _ leaf listed
  | _ =>
    intro scope name leaf listed
    rw [leaves_of_flat (by simp)] at listed
    obtain rfl := List.mem_singleton.mp listed
    simp

theorem flat_of_mem_leavesIn (scope : Scope) (fields : List Field) :
    ∀ leaf ∈ leavesIn scope fields, ∀ inner, leaf.2 ≠ .struct inner := by
  intro leaf listed
  rw [leavesIn_eq_flatMap, List.mem_flatMap] at listed
  obtain ⟨field, -, listed⟩ := listed
  exact flat_of_mem_leaves _ _ _ leaf listed

/-- Everything below a field has the path of the field in front. -/
theorem path_of_mem_leaves (ty : FieldType) : ∀ (scope : Scope) (name : String),
    ∀ leaf ∈ ty.leaves scope name,
      leaf.1.scope.base = scope.base ∧ scope.members ++ [name] <+: leaf.1.path := by
  induction ty with
  | struct fields inductionHypothesis =>
    intro scope name leaf listed
    rw [leaves, leavesIn_eq_flatMap, List.mem_flatMap] at listed
    obtain ⟨field, among, listed⟩ := listed
    obtain ⟨base, front⟩ := inductionHypothesis field among (scope.enter name) field.1 leaf listed
    exact ⟨base, (List.prefix_append _ _).trans front⟩
  | _ =>
    intro scope name leaf listed
    rw [leaves_of_flat (by simp)] at listed
    obtain rfl := List.mem_singleton.mp listed
    exact ⟨rfl, List.prefix_rfl⟩

theorem not_prefix_of_ne {front p q : List String} {name other : String} (different : name ≠ other)
    (first : front ++ [name] <+: p) (second : front ++ [other] <+: q) : ¬ p <+: q := by
  intro within
  have same : front ++ [name] = front ++ [other] :=
    (List.prefix_of_prefix_length_le (first.trans within) second (by simp)).eq_of_length (by simp)
  exact different (by simpa using same)

/-- The paths of a struct, if those below each of its fields are apart. -/
theorem pairwise_leavesIn_of_each {fields : List Field} (distinct : (fields.map Prod.fst).Nodup)
    (each : ∀ field ∈ fields, ∀ scope name, (field.2.leaves scope name).Pairwise fun a b => Value.Apart a.1.path b.1.path)
    (scope : Scope) : (leavesIn scope fields).Pairwise fun a b => Value.Apart a.1.path b.1.path := by
  rw [List.Nodup, List.pairwise_map] at distinct
  rw [leavesIn_eq_flatMap, List.pairwise_flatMap]
  refine ⟨fun field listed => each field listed _ _, ?_⟩
  refine distinct.imp fun different a listed b listed' => ?_
  have front := (path_of_mem_leaves _ _ _ a listed).2
  have front' := (path_of_mem_leaves _ _ _ b listed').2
  exact ⟨not_prefix_of_ne different front front', not_prefix_of_ne different.symm front' front⟩

theorem pairwise_leaves {ty : FieldType} (distinct : ty.EveryScope fun fields => (fields.map Prod.fst).Nodup) :
    ∀ (scope : Scope) (name : String), (ty.leaves scope name).Pairwise fun a b => Value.Apart a.1.path b.1.path := by
  induction ty with
  | struct fields inductionHypothesis =>
    intro scope name
    have within := everyScopeIn_iff.mp distinct.2
    exact pairwise_leavesIn_of_each distinct.1
      (fun field listed => inductionHypothesis field listed (within field listed)) _
  | _ =>
    intro scope name
    rw [leaves_of_flat (by simp)]
    exact List.pairwise_singleton _ _

theorem pairwise_leavesIn {fields : List Field}
    (distinct : (struct fields).EveryScope fun fields => (fields.map Prod.fst).Nodup) (scope : Scope) :
    (leavesIn scope fields).Pairwise fun a b => Value.Apart a.1.path b.1.path :=
  pairwise_leavesIn_of_each distinct.1
    (fun field listed => pairwise_leaves (everyScopeIn_iff.mp distinct.2 field listed)) scope

theorem named_of_mem_leaves {ty : FieldType} (identified : ty.EveryScope Identified) :
    ∀ {scope : Scope} {name : String}, (⟨scope, name⟩ : Place).Named →
      ∀ leaf ∈ ty.leaves scope name, leaf.1.Named := by
  induction ty with
  | struct fields inductionHypothesis =>
    intro scope name named leaf listed
    obtain ⟨names, within⟩ := identified
    rw [everyScopeIn_iff] at within
    rw [leaves, leavesIn_eq_flatMap, List.mem_flatMap] at listed
    obtain ⟨field, among, listed⟩ := listed
    exact inductionHypothesis field among (within field among) (named.member (names field among)) leaf listed
  | _ =>
    intro scope name named leaf listed
    rw [leaves_of_flat (by simp)] at listed
    obtain rfl := List.mem_singleton.mp listed
    exact named

theorem named_of_mem_leavesIn {fields : List Field} (identified : (struct fields).EveryScope Identified)
    {base : String} (identifier : C.isIdentifier base = true) :
    ∀ leaf ∈ leavesIn { base } fields, leaf.1.Named := by
  intro leaf listed
  rw [leavesIn_eq_flatMap, List.mem_flatMap] at listed
  obtain ⟨field, among, listed⟩ := listed
  have top : (⟨{ base }, field.1⟩ : Place).Named :=
    ⟨identifier, by simpa [Place.path] using identified.1 field among⟩
  exact named_of_mem_leaves (everyScopeIn_iff.mp identified.2 field among) top leaf listed

end FieldType

/-! ## Places of plans -/

namespace Plan

variable {fields : List Field} {base : String} {plan : Plan}

def places (plan : Plan) : List Place :=
  plan.steps.filterMap Step.place?

theorem places_of_moves {steps : List Step} {leaves : List (Place × FieldType)}
    (moves : List.Forall₂ Step.Moves steps leaves) : steps.filterMap Step.place? = leaves.map Prod.fst := by
  induction moves with
  | nil => rfl
  | cons first others inductionHypothesis =>
    obtain ⟨access, transfer, rfl, -⟩ := first
    simp [Step.place?, inductionHypothesis]

theorem places_eq_leaves (built : build fields base = .ok plan) :
    plan.places = (FieldType.leavesIn { base } fields).map Prod.fst := by
  obtain ⟨final, laid, -⟩ := laidOut_of_build built
  have kept : plan.places = (plan.steps.filter fun step => step.place?.isSome).filterMap Step.place? := by
    rw [places, List.filterMap_filter]
    congr 1
    funext step
    cases step <;> rfl
  rw [kept]
  exact places_of_moves laid.moves

theorem exists_leaf (built : build fields base = .ok plan) {step : Step} (listed : step ∈ plan.steps)
    {place : Place} (moved : step.place? = some place) :
    ∃ ty, (place, ty) ∈ FieldType.leavesIn { base } fields := by
  have among : place ∈ plan.places := List.mem_filterMap.mpr ⟨step, listed, moved⟩
  rw [places_eq_leaves built] at among
  obtain ⟨leaf, walked, rfl⟩ := List.mem_map.mp among
  exact ⟨leaf.2, walked⟩

theorem base_of_build (built : build fields base = .ok plan) {step : Step} (listed : step ∈ plan.steps)
    {place : Place} (moved : step.place? = some place) : place.scope.base = base := by
  obtain ⟨ty, leaf⟩ := exists_leaf built listed moved
  rw [FieldType.leavesIn_eq_flatMap, List.mem_flatMap] at leaf
  obtain ⟨field, -, leaf⟩ := leaf
  exact (FieldType.path_of_mem_leaves _ _ _ _ leaf).1

theorem named_of_build (built : build fields base = .ok plan) (identifier : C.isIdentifier base = true)
    (identified : (FieldType.struct fields).EveryScope Identified) {step : Step} (listed : step ∈ plan.steps)
    {place : Place} (moved : step.place? = some place) : place.Named := by
  obtain ⟨ty, leaf⟩ := exists_leaf built listed moved
  exact FieldType.named_of_mem_leavesIn identified identifier _ leaf

/-- Neither of two fields of a record is inside the other, and generated code calls them by different texts.
These texts come from `Scope.resolve`, which tells apart whatever is called by identifiers. -/
theorem places_apart (identifier : C.isIdentifier base = true)
    (named : (FieldType.struct fields).EveryScope fun fields =>
      Identified fields ∧ (fields.map Prod.fst).Nodup)
    (built : build fields base = .ok plan) :
    (plan.places.map Place.text).Nodup ∧
    plan.places.Pairwise (fun p q => ¬ p.path <+: q.path ∧ ¬ q.path <+: p.path) ∧
    ∀ (scope scope' : Scope) (field field' : String),
      (∀ segment ∈ scope.base :: scope.members ++ [field], C.isIdentifier segment = true) →
      (∀ segment ∈ scope'.base :: scope'.members ++ [field'], C.isIdentifier segment = true) →
      scope.resolve field = scope'.resolve field' → scope = scope' ∧ field = field' := by
  have identified := named.mono fun _ both => both.1
  have apart : plan.places.Pairwise fun p q => Value.Apart p.path q.path := by
    rw [places_eq_leaves built, List.pairwise_map]
    exact FieldType.pairwise_leavesIn (named.mono fun _ both => both.2) _
  have spelled : ∀ place ∈ plan.places, place.Named := by
    intro place listed
    obtain ⟨step, among, moved⟩ := List.mem_filterMap.mp listed
    exact named_of_build built identifier identified among moved
  refine ⟨?_, apart, ?_⟩
  · rw [List.Nodup, List.pairwise_map]
    refine apart.imp_of_mem fun listed listed' apart same => ?_
    rw [Place.text_inj (spelled _ listed) (spelled _ listed') same] at apart
    exact apart.1 List.prefix_rfl
  · intro scope scope' field field' segments segments' same
    have whole : (⟨scope, field⟩ : Place).Named := List.forall_mem_cons.mp segments
    have whole' : (⟨scope', field'⟩ : Place).Named := List.forall_mem_cons.mp segments'
    have equal := Place.text_inj whole whole' same
    exact ⟨congrArg Place.scope equal, congrArg Place.name equal⟩

/-- The same two names are used at every depth of this record. -/
theorem places_apart_recurring :
    let fields : List Field := [("a", .scalar .u8),
      ("b", .struct [("a", .text), ("b", .struct [("b", .bytes 2), ("a", .option .text)])])]
    ∃ plan, build fields "out" = .ok plan ∧
      plan.places.map Place.text = ["out->a", "out->b.a", "out->b.b.b", "out->b.b.a"] ∧
      (plan.places.map Place.text).Nodup ∧
      plan.places.Pairwise (fun p q => ¬ p.path <+: q.path ∧ ¬ q.path <+: p.path) := by
  intro fields
  obtain ⟨plan, built⟩ : ∃ plan, build fields "out" = .ok plan := ⟨_, rfl⟩
  have texts : plan.places.map Place.text = ["out->a", "out->b.a", "out->b.b.b", "out->b.b.a"] := by
    cases built
    decide
  obtain ⟨distinct, apart, -⟩ := places_apart (by decide) (by decide) built
  exact ⟨plan, built, texts, distinct, apart⟩

end Plan

end PackedRecord
