import Mathlib.Data.List.Forall2
import PackedRecord.Proofs.Plan.Walk

/-!
# The structure of a plan

A plan has two parts.  The fields of the first tile the fixed part of the record, each where the one
before it ends; those of the second are moved at the cursor, which is started once between the two.
Where the cursor starts is only known to be the end of the fixed part when all fields have been walked.

* `Staged`: the two parts, as what a piece of the walk adds to them.  Pieces join by `Staged.append`,
  also where a nested struct starts the cursor for everything around it.
* `LaidOut.moves`: steps and fields correspond one to one, in the order of a walk into the structs.
* `Plan.structure_of_build`: both, for every plan, with the bounds on what it has numbers for.
-/

namespace PackedRecord

/-! ## What steps are about -/

namespace Step

def extent? : Step → Option (Access × Nat)
  | move _ (.scalar kind access) => some (access, kind.width)
  | move _ (.block _ length access) => some (access, length)
  | _ => none

def isVariable : Step → Bool
  | move _ .text | move _ (.texts _) | move _ .optionalText | move _ (.optionalScalar _) => true
  | _ => false

/-- A step behind the start of the cursor: it moves a field, at the cursor. -/
def AtCursor (step : Step) : Prop :=
  step.place?.isSome = true ∧ ∀ access width, step.extent? = some (access, width) → access = .cursor

/-- The numbers in a step: positions that are known in advance, widths and counts. -/
def sizes : Step → List Nat
  | seedCursor offset => [offset]
  | move _ transfer =>
    match transfer with
    | .scalar kind (.static offset) => [offset, kind.width]
    | .scalar kind .cursor => [kind.width]
    | .block _ length (.static offset) => [offset, length]
    | .block _ length .cursor => [length]
    | .texts count => [count]
    | .optionalScalar kind => [kind.width]
    | .text | .optionalText => []

end Step

/-! ## The fields of a record, one by one -/

namespace FieldType

/-- How a field of a type is moved, if fields of fixed width lie at `access`. -/
def transfer? (access : Access) : FieldType → Option Transfer
  | scalar kind => some (.scalar kind access)
  | text => some .text
  | bytes length => some (.block (.bytes length) length.toNat access)
  | array text count => some (.texts count.toNat)
  | array element count =>
    (array element count).fixedWidth?.map fun width => .block (.array element count) width access
  | option text => some .optionalText
  | option (scalar kind) => some (.optionalScalar kind)
  | _ => none

mutual

/-- The places below a field that are no structs, with their types, in order. -/
def leaves (scope : Scope) (name : String) : FieldType → List (Place × FieldType)
  | struct fields => leavesIn (scope.enter name) fields
  | ty => [(⟨scope, name⟩, ty)]

def leavesIn (scope : Scope) : List Field → List (Place × FieldType)
  | [] => []
  | (name, ty) :: rest => ty.leaves scope name ++ leavesIn scope rest

end

end FieldType

/-- A step moves what is at a place, as its type wants it. -/
def Step.Moves (step : Step) (leaf : Place × FieldType) : Prop :=
  ∃ access transfer, step = .move leaf.1 transfer ∧ leaf.2.transfer? access = some transfer

theorem MovedFixed.transfer?_eq {ty : FieldType} {width : Nat} {transfer : Access → Transfer}
    (moved : MovedFixed ty width transfer) (access : Access) :
    ty.transfer? access = some (transfer access) := by
  cases moved with
  | scalar kind => rfl
  | block fixed copied =>
    rcases copied with ⟨length, rfl⟩ | ⟨element, count, rfl⟩
    · cases fixed
      rfl
    · cases element with
      | text => cases fixed
      | _ => simp [FieldType.transfer?, fixed]

theorem MovedFixed.leaves_eq {ty : FieldType} {width : Nat} {transfer : Access → Transfer}
    (moved : MovedFixed ty width transfer) (scope : Scope) (name : String) :
    ty.leaves scope name = [(⟨scope, name⟩, ty)] := by
  cases moved with
  | scalar kind => rfl
  | block fixed copied => rcases copied with ⟨length, rfl⟩ | ⟨element, count, rfl⟩ <;> rfl

theorem MovedFixed.extent?_eq {ty : FieldType} {width : Nat} {transfer : Access → Transfer}
    (moved : MovedFixed ty width transfer) (place : Place) (access : Access) :
    (Step.move place (transfer access)).extent? = some (access, width) := by
  cases moved <;> rfl

theorem MovedFixed.mem_sizes {ty : FieldType} {width : Nat} {transfer : Access → Transfer}
    (moved : MovedFixed ty width transfer) (place : Place) (access : Access) {n : Nat}
    (listed : n ∈ (Step.move place (transfer access)).sizes) : n = width ∨ access = .static n := by
  cases moved <;> cases access <;> simp_all [Step.sizes] <;> tauto

theorem MovedAtCursor.transfer?_eq {ty : FieldType} {transfer : Transfer}
    (moved : MovedAtCursor ty transfer) (access : Access) : ty.transfer? access = some transfer := by
  cases moved <;> rfl

theorem MovedAtCursor.leaves_eq {ty : FieldType} {transfer : Transfer} (moved : MovedAtCursor ty transfer)
    (scope : Scope) (name : String) : ty.leaves scope name = [(⟨scope, name⟩, ty)] := by
  cases moved <;> rfl

theorem MovedAtCursor.isVariable {ty : FieldType} {transfer : Transfer} (moved : MovedAtCursor ty transfer)
    (place : Place) : (Step.move place transfer).isVariable = true := by
  cases moved <;> rfl

theorem MovedAtCursor.le_maxLiteral {ty : FieldType} {transfer : Transfer}
    (moved : MovedAtCursor ty transfer) (place : Place) :
    ∀ n ∈ (Step.move place transfer).sizes, n ≤ maxLiteral := by
  cases moved with
  | text | optionalText => simp [Step.sizes]
  | texts small => simpa [Step.sizes] using small
  | optionalScalar kind => cases kind <;> simp [Step.sizes, ScalarKind.width, maxLiteral]

theorem Step.atCursor_of_isVariable {step : Step} (varies : step.isVariable = true) : step.AtCursor := by
  rcases step with offset | ⟨place, transfer⟩
  · cases varies
  · cases transfer with
    | scalar kind access | block ty length access => cases varies
    | _ => exact ⟨rfl, nofun⟩

/-! ## The two parts -/

/-- These steps move fields at known positions, the first at `start`, each next one where the one
before it ends, and the last up to `finish`. -/
inductive Tiles : (start : Nat) → List Step → (finish : Nat) → Prop where
  | nil {start : Nat} : Tiles start [] start
  | cons {start width finish : Nat} {step : Step} {steps : List Step}
    (extent : step.extent? = some (.static start, width)) (rest : Tiles (start + width) steps finish) :
    Tiles start (step :: steps) finish

theorem Tiles.append {start middle finish : Nat} {steps more : List Step} (first : Tiles start steps middle)
    (second : Tiles middle more finish) : Tiles start (steps ++ more) finish := by
  induction first with
  | nil => exact second
  | cons extent rest inductionHypothesis => exact .cons extent (inductionHypothesis second)

theorem Tiles.le {start finish : Nat} {steps : List Step} (tiles : Tiles start steps finish) :
    start ≤ finish := by
  induction tiles with
  | nil => exact Nat.le_refl _
  | cons extent rest inductionHypothesis => omega

/-- What a piece of a layout adds, from where the next field lies before it to where it lies after it.
The fixed part ends at `finish`, as far as this piece knows. -/
inductive Staged (finish : Nat) : (before : Access) → List Step → (after : Access) → Prop where
  | fixed {start : Nat} {steps : List Step} (tiles : Tiles start steps finish) :
    Staged finish (.static start) steps (.static finish)
  | started {start : Nat} {first : Step} {steps rest : List Step} (tiles : Tiles start steps finish)
    (varies : first.isVariable = true) (behind : ∀ step ∈ first :: rest, step.AtCursor) :
    Staged finish (.static start) (steps ++ .seedCursor finish :: first :: rest) .cursor
  | dynamic {steps : List Step} (behind : ∀ step ∈ steps, step.AtCursor) :
    Staged finish .cursor steps .cursor

theorem Staged.append {middle finish : Nat} {before between after : Access} {steps more : List Step}
    (first : Staged middle before steps between) (second : Staged finish between more after)
    (settled : between = .cursor → middle = finish) : Staged finish before (steps ++ more) after := by
  cases first with
  | fixed tiles =>
    cases second with
    | fixed others => exact .fixed (tiles.append others)
    | started others varies behind =>
      rw [← List.append_assoc]
      exact .started (tiles.append others) varies behind
  | started tiles varies behind =>
    cases second with
    | dynamic others =>
      obtain rfl := settled rfl
      rw [List.append_assoc, List.cons_append, List.cons_append]
      refine .started tiles varies fun step listed => ?_
      rcases List.mem_append.mp (List.cons_append ▸ listed) with listed | listed
      · exact behind step listed
      · exact others step listed
  | dynamic behind =>
    cases second with
    | dynamic others =>
      refine .dynamic fun step listed => ?_
      rcases List.mem_append.mp listed with listed | listed
      · exact behind step listed
      · exact others step listed

namespace LaidOut

variable {fields : List Field} {state final : LayoutState} {steps : List Step}

theorem of_dynamic (laid : LaidOut fields state steps final) (dynamic : state.dynamic = true) :
    final.staticOffset = state.staticOffset ∧ final.dynamic = true := by
  induction laid with
  | nil => exact ⟨rfl, dynamic⟩
  | fixed moved advanced rest inductionHypothesis =>
    obtain ⟨-, ⟨-, -, rfl⟩ | ⟨static, -⟩⟩ := LayoutState.advance?_eq_some advanced
    · exact inductionHypothesis dynamic
    · rw [dynamic] at static
      cases static
  | atCursor moved rest inductionHypothesis => exact inductionHypothesis rfl
  | nested within rest inductionWithin inductionRest =>
    obtain ⟨offset, dynamicWithin⟩ := inductionWithin dynamic
    obtain ⟨offsetRest, dynamicRest⟩ := inductionRest dynamicWithin
    exact ⟨offsetRest.trans offset, dynamicRest⟩

theorem settled (laid : LaidOut fields state steps final) :
    state.access = .cursor → state.staticOffset = final.staticOffset := by
  intro cursor
  by_cases dynamic : state.dynamic = true
  · exact (laid.of_dynamic dynamic).1.symm
  · rw [LayoutState.access, if_neg dynamic] at cursor
    cases cursor

theorem staged (laid : LaidOut fields state steps final) :
    Staged final.staticOffset state.access steps final.access := by
  -- By induction on the layout, one piece a field.  A nested struct is a piece of any length, which may
  -- have started the cursor or not.
  induction laid with
  | @nil state =>
    rw [LayoutState.access]
    split
    · exact .dynamic (by simp)
    · exact .fixed .nil
  | @fixed name ty fields state next final width transfer access steps moved advanced rest
      inductionHypothesis =>
    have first : Staged next.staticOffset state.access [.move ⟨state.scope, name⟩ (transfer access)]
        next.access := by
      have extent := moved.extent?_eq ⟨state.scope, name⟩ access
      obtain ⟨accessBefore, accessAfter⟩ := LayoutState.advance?_access advanced
      rw [accessBefore, accessAfter]
      cases access with
      | static offset =>
        rw [Access.shift, (LayoutState.advance?_ends advanced).2 offset rfl]
        refine .fixed (.cons extent ?_)
        rw [(LayoutState.advance?_ends advanced).2 offset rfl]
        exact .nil
      | cursor =>
        refine .dynamic fun step listed => ?_
        obtain rfl := List.mem_singleton.mp listed
        refine ⟨rfl, fun access' width' same => ?_⟩
        rw [extent] at same
        cases same
        rfl
    exact first.append inductionHypothesis rest.settled
  | @atCursor name ty fields state final transfer steps moved rest inductionHypothesis =>
    have varies := moved.isVariable ⟨state.scope, name⟩
    have behind : ∀ step ∈ [Step.move ⟨state.scope, name⟩ transfer], step.AtCursor := by
      intro step listed
      obtain rfl := List.mem_singleton.mp listed
      exact Step.atCursor_of_isVariable varies
    have first : Staged state.staticOffset state.access
        (state.seed ++ [.move ⟨state.scope, name⟩ transfer]) .cursor := by
      rw [LayoutState.access, LayoutState.seed]
      split
      · exact .dynamic behind
      · change Staged _ _ ([] ++ _) _
        exact .started .nil varies behind
    rw [List.append_cons]
    exact first.append inductionHypothesis fun _ => rest.settled rfl
  | nested within rest inductionWithin inductionRest =>
    exact inductionWithin.append inductionRest rest.settled

theorem sizes_le (laid : LaidOut fields state steps final) (small : state.staticOffset ≤ maxLiteral) :
    ∀ step ∈ steps, ∀ n ∈ step.sizes, n ≤ maxLiteral := by
  induction laid with
  | nil => simp
  | @fixed name ty fields state next final width transfer access steps moved advanced rest
      inductionHypothesis =>
    obtain ⟨narrow, ends⟩ := LayoutState.advance?_ends advanced
    have smallNext : next.staticOffset ≤ maxLiteral := by
      obtain ⟨-, ⟨-, -, rfl⟩ | ⟨-, fits, -, rfl⟩⟩ := LayoutState.advance?_eq_some advanced
      · exact small
      · exact fits
    intro step listed n size
    rcases List.mem_cons.mp listed with rfl | listed
    · rcases moved.mem_sizes ⟨state.scope, name⟩ access size with rfl | static
      · exact narrow
      · have := ends n static
        omega
    · exact inductionHypothesis smallNext step listed n size
  | @atCursor name ty fields state final transfer steps moved rest inductionHypothesis =>
    intro step listed n size
    rcases List.mem_append.mp listed with seeded | listed
    · rw [LayoutState.seed] at seeded
      split at seeded
      · cases seeded
      · obtain rfl := List.mem_singleton.mp seeded
        obtain rfl := List.mem_singleton.mp size
        exact small
    · rcases List.mem_cons.mp listed with rfl | listed
      · exact moved.le_maxLiteral ⟨state.scope, name⟩ n size
      · exact inductionHypothesis small step listed n size
  | nested within rest inductionWithin inductionRest =>
    intro step listed
    rcases List.mem_append.mp listed with listed | listed
    · exact inductionWithin small step listed
    · exact inductionRest (within.staticOffset_le_maxLiteral small) step listed

theorem moves (laid : LaidOut fields state steps final) :
    List.Forall₂ Step.Moves (steps.filter fun step => step.place?.isSome)
      (FieldType.leavesIn state.scope fields) := by
  induction laid with
  | nil => exact .nil
  | @fixed name ty fields state next final width transfer access steps moved advanced rest
      inductionHypothesis =>
    rw [(LayoutState.advance?_frame advanced).1] at inductionHypothesis
    rw [FieldType.leavesIn, moved.leaves_eq]
    exact .cons ⟨access, transfer access, rfl, moved.transfer?_eq access⟩ inductionHypothesis
  | @atCursor name ty fields state final transfer steps moved rest inductionHypothesis =>
    have unmoved : (state.seed.filter fun step => step.place?.isSome) = [] := by
      rw [LayoutState.seed]
      split <;> rfl
    rw [FieldType.leavesIn, moved.leaves_eq, List.filter_append, unmoved]
    exact .cons ⟨.cursor, transfer, rfl, moved.transfer?_eq .cursor⟩ inductionHypothesis
  | nested within rest inductionWithin inductionRest =>
    rw [within.scope_ascend] at inductionRest
    rw [FieldType.leavesIn, FieldType.leaves, List.filter_append]
    exact List.rel_append inductionWithin inductionRest

end LaidOut

/-! ## Whole plans -/

/-- Every plan has the structure that generated code relies on.  Its steps tile the fixed part; if there
are more, one step starts the cursor at the end of it, the next one moves a field of variable width,
and nothing from there on has a position that is known in advance.  All numbers in a plan can be written
as literals.  The steps that move something are the fields of the record that are no structs, with their
places and as their types want them. -/
theorem Plan.structure_of_build {fields : List Field} {base : String} {plan : Plan}
    (built : build fields base = .ok plan) :
    (∃ static dynamic, plan.steps = static ++ dynamic ∧ Tiles 0 static plan.fixedSize ∧
      (dynamic = [] ∨ ∃ first rest, dynamic = .seedCursor plan.fixedSize :: first :: rest ∧
        first.isVariable = true ∧ ∀ step ∈ first :: rest, step.AtCursor)) ∧
    plan.fixedSize ≤ 2 ^ 63 - 1 ∧ (∀ step ∈ plan.steps, ∀ n ∈ step.sizes, n ≤ 2 ^ 63 - 1) ∧
    List.Forall₂ Step.Moves (plan.steps.filter fun step => step.place?.isSome)
      (FieldType.leavesIn { base } fields) := by
  obtain ⟨final, laid, size⟩ := laidOut_of_build built
  have staged := laid.staged
  rw [← size] at staged
  refine ⟨?_, fixedSize_le_maxLiteral built, laid.sizes_le (Nat.zero_le _), laid.moves⟩
  · change Staged plan.fixedSize (.static 0) plan.steps final.access at staged
    generalize plan.steps = steps, final.access = after at staged
    cases staged with
    | fixed tiles => exact ⟨steps, [], by simp, tiles, .inl rfl⟩
    | started tiles varies behind => exact ⟨_, _, rfl, tiles, .inr ⟨_, _, rfl, varies, behind⟩⟩

/-- A text in a nested struct starts the cursor there, and what follows the struct is moved at it. -/
theorem Plan.structure_of_build_nested :
    ∃ plan, build [("id", .scalar .u16), ("inner", .struct [("key", .bytes 4), ("label", .text)]),
        ("tag", .scalar .u8)] "out" = .ok plan ∧ plan.fixedSize = 6 ∧
      (∃ static dynamic, plan.steps = static ++ dynamic ∧ Tiles 0 static plan.fixedSize ∧
        (dynamic = [] ∨ ∃ first rest, dynamic = .seedCursor plan.fixedSize :: first :: rest ∧
          first.isVariable = true ∧ ∀ step ∈ first :: rest, step.AtCursor)) ∧
      List.Forall₂ Step.Moves (plan.steps.filter fun step => step.place?.isSome)
        [(⟨{ base := "out" }, "id"⟩, .scalar .u16),
          (⟨{ base := "out", members := ["inner"] }, "key"⟩, .bytes 4),
          (⟨{ base := "out", members := ["inner"] }, "label"⟩, .text),
          (⟨{ base := "out" }, "tag"⟩, .scalar .u8)] := by
  obtain ⟨plan, built⟩ : ∃ plan, build [("id", .scalar .u16),
      ("inner", .struct [("key", .bytes 4), ("label", .text)]), ("tag", .scalar .u8)] "out" = .ok plan :=
    ⟨_, rfl⟩
  have size : plan.fixedSize = 6 := by
    cases built
    rfl
  obtain ⟨parts, -, -, moves⟩ := structure_of_build built
  exact ⟨plan, built, size, parts, moves⟩

end PackedRecord
