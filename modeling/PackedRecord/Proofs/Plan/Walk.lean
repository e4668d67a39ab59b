import PackedRecord.Plan.Build
import PackedRecord.Proofs.Value.Width

/-!
# How fields are laid out

`LaidOut fields state steps final` says what a plan is made of: every field of fixed width is one
move where the layout state says, every field of variable width is one move at the cursor, with the
cursor started before the first of them, and a nested struct is the layout of its own fields one
scope further down.

* `Plan.laidOut_of_build`: a plan that could be built is such a layout.

What is to be proved of plans is then an induction over layouts, with one case for each kind of
field and without the walk's error cases.
-/

namespace PackedRecord

/-! ## Layout states -/

theorem Scope.parent_enter (scope : Scope) (name : String) : (scope.enter name).parent = scope := by
  simp [enter, parent]

namespace Access

def offset : Access → Nat → Nat
  | static offset, _ => offset
  | cursor, position => position

/-- Where the field after one of this width lies.  At the cursor, the cursor itself has moved. -/
def shift (width : Nat) : Access → Access
  | static offset => static (offset + width)
  | cursor => cursor

end Access

namespace LayoutState

/-- The step that starts the cursor, before the first field of variable width only. -/
def seed (state : LayoutState) : List Step :=
  if state.dynamic then [] else [.seedCursor state.staticOffset]

def atCursor (state : LayoutState) : LayoutState :=
  { state with dynamic := true }

def access (state : LayoutState) : Access :=
  if state.dynamic then .cursor else .static state.staticOffset

/-- A field of fixed width is at the cursor once there is one, and before that where the fields so
far end. -/
theorem advance?_eq_some {state next : LayoutState} {width : Nat} {access : Access}
    (advanced : state.advance? width = some (access, next)) :
    width ≤ maxLiteral ∧
      ((state.dynamic = true ∧ access = .cursor ∧ next = state) ∨
        (state.dynamic = false ∧ state.staticOffset + width ≤ maxLiteral ∧
          access = .static state.staticOffset ∧
          next = { state with staticOffset := state.staticOffset + width })) := by
  simp only [advance?] at advanced
  split at advanced
  · cases advanced
  · refine ⟨by omega, ?_⟩
    split at advanced
    · rename_i dynamic
      cases advanced
      exact .inl ⟨dynamic, rfl, rfl⟩
    · rename_i notDynamic
      split at advanced
      · cases advanced
      · cases advanced
        exact .inr ⟨by simpa using notDynamic, by omega, rfl, rfl⟩

theorem advance?_eq_none_iff {state : LayoutState} {width : Nat} :
    state.advance? width = none ↔
      maxLiteral < width ∨ state.dynamic = false ∧ maxLiteral < state.staticOffset + width := by
  by_cases wide : maxLiteral < width
  · simp [advance?, wide]
  · cases dynamic : state.dynamic <;> simp [advance?, wide, dynamic]

/-- A field of fixed width is placed where the fields so far end, and the next one behind it. -/
theorem advance?_access {state next : LayoutState} {width : Nat} {access : Access}
    (advanced : state.advance? width = some (access, next)) :
    state.access = access ∧ next.access = access.shift width := by
  obtain ⟨-, ⟨dynamic, rfl, rfl⟩ | ⟨notDynamic, -, rfl, rfl⟩⟩ := advance?_eq_some advanced
  · simp [LayoutState.access, dynamic, Access.shift]
  · simp [LayoutState.access, notDynamic, Access.shift]

/-- A field of fixed width is no longer than the largest literal, and if its position is known in
advance it ends where the part with known positions ends with it. -/
theorem advance?_ends {state next : LayoutState} {width : Nat} {access : Access}
    (advanced : state.advance? width = some (access, next)) :
    width ≤ maxLiteral ∧ ∀ offset, access = .static offset → offset + width = next.staticOffset := by
  obtain ⟨small, ⟨-, rfl, rfl⟩ | ⟨-, -, rfl, rfl⟩⟩ := advance?_eq_some advanced
  · exact ⟨small, nofun⟩
  · refine ⟨small, ?_⟩
    rintro offset ⟨⟩
    rfl

/-- Placing a field of fixed width changes neither the scope nor whether there is a cursor. -/
theorem advance?_frame {state next : LayoutState} {width : Nat} {access : Access}
    (advanced : state.advance? width = some (access, next)) :
    next.scope = state.scope ∧ next.dynamic = state.dynamic ∧ state.staticOffset ≤ next.staticOffset := by
  obtain ⟨-, ⟨-, -, rfl⟩ | ⟨-, -, -, rfl⟩⟩ := advance?_eq_some advanced
  · exact ⟨rfl, rfl, Nat.le_refl _⟩
  · exact ⟨rfl, rfl, Nat.le_add_right _ _⟩

end LayoutState

/-! ## Layouts -/

/-- Types of fixed width, with their width and how they are moved once it is known where. -/
inductive MovedFixed : FieldType → Nat → (Access → Transfer) → Prop where
  | scalar (kind : ScalarKind) : MovedFixed (.scalar kind) kind.width (.scalar kind)
  | block {ty : FieldType} {width : Nat} (fixed : ty.fixedWidth? = some width)
    (copied : (∃ length, ty = .bytes length) ∨ ∃ element count, ty = .array element count) :
    MovedFixed ty width (.block ty width)

/-- Types of variable width, with how they are moved. -/
inductive MovedAtCursor : FieldType → Transfer → Prop where
  | text : MovedAtCursor .text .text
  | texts {count : UInt64} (small : count.toNat ≤ maxLiteral) :
    MovedAtCursor (.array .text count) (.texts count.toNat)
  | optionalText : MovedAtCursor (.option .text) .optionalText
  | optionalScalar (kind : ScalarKind) : MovedAtCursor (.option (.scalar kind)) (.optionalScalar kind)

theorem MovedFixed.fixedWidth? {ty : FieldType} {width : Nat} {transfer : Access → Transfer}
    (moved : MovedFixed ty width transfer) : ty.fixedWidth? = some width := by
  cases moved with
  | scalar kind => rfl
  | block fixed => exact fixed

/-- `LaidOut fields state steps final`: from `state` on, the fields are moved by these steps in
order, which ends in `final`. -/
inductive LaidOut : List Field → LayoutState → List Step → LayoutState → Prop where
  | nil {state : LayoutState} : LaidOut [] state [] state
  | fixed {name : String} {ty : FieldType} {fields : List Field} {state next final : LayoutState}
    {width : Nat} {transfer : Access → Transfer} {access : Access} {steps : List Step}
    (moved : MovedFixed ty width transfer) (advanced : state.advance? width = some (access, next))
    (rest : LaidOut fields next steps final) :
    LaidOut ((name, ty) :: fields) state (.move ⟨state.scope, name⟩ (transfer access) :: steps) final
  | atCursor {name : String} {ty : FieldType} {fields : List Field} {state final : LayoutState}
    {transfer : Transfer} {steps : List Step} (moved : MovedAtCursor ty transfer)
    (rest : LaidOut fields state.atCursor steps final) :
    LaidOut ((name, ty) :: fields) state
      (state.seed ++ .move ⟨state.scope, name⟩ transfer :: steps) final
  | nested {name : String} {inner fields : List Field} {state last final : LayoutState}
    {innerSteps steps : List Step} (within : LaidOut inner (state.descend name) innerSteps last)
    (rest : LaidOut fields last.ascend steps final) :
    LaidOut ((name, .struct inner) :: fields) state (innerSteps ++ steps) final

/-! ## Walks give layouts -/

namespace Plan

theorem placeFixed_eq_ok {state next : LayoutState} {place : Place} {width : Nat}
    {transfer : Access → Transfer} {steps : List Step}
    (placed : placeFixed state place width transfer = .ok (steps, next)) :
    ∃ access, state.advance? width = some (access, next) ∧ steps = [.move place (transfer access)] := by
  simp only [placeFixed] at placed
  split at placed
  · rename_i access next' advanced
    cases placed
    exact ⟨access, advanced, rfl⟩
  · cases placed

/-- A field of variable width is one step, behind the step that starts the cursor if that is due. -/
theorem placeAtCursor_eq (state : LayoutState) (place : Place) (transfer : Transfer) :
    placeAtCursor state place transfer = .ok (state.seed ++ [.move place transfer], state.atCursor) := by
  obtain ⟨offset, dynamic, scope⟩ := state
  cases dynamic <;> rfl

def WalksAreLayouts (fields : List Field) : Prop :=
  ∀ state steps final, walkFields fields state = .ok (steps, final) → LaidOut fields state steps final

/-- What one field adds in front of a layout of the fields after it. -/
theorem laidOut_cons_of_walkField {name : String} {ty : FieldType} {state next : LayoutState}
    {first : List Step}
    (nested : ∀ inner, ty = .struct inner → WalksAreLayouts inner)
    (walked : walkField name ty state = .ok (first, next)) {fields : List Field} {steps : List Step}
    {final : LayoutState} (rest : LaidOut fields next steps final) :
    LaidOut ((name, ty) :: fields) state (first ++ steps) final := by
  have fixedCase : ∀ {width : Nat} {transfer : Access → Transfer}, MovedFixed ty width transfer →
      placeFixed state ⟨state.scope, name⟩ width transfer = .ok (first, next) →
      LaidOut ((name, ty) :: fields) state (first ++ steps) final := by
    intro width transfer moved placed
    obtain ⟨access, advanced, rfl⟩ := placeFixed_eq_ok placed
    exact .fixed moved advanced rest
  have cursorCase : ∀ {transfer : Transfer}, MovedAtCursor ty transfer →
      placeAtCursor state ⟨state.scope, name⟩ transfer = .ok (first, next) →
      LaidOut ((name, ty) :: fields) state (first ++ steps) final := by
    intro transfer moved placed
    rw [placeAtCursor_eq] at placed
    cases placed
    rw [List.append_assoc]
    exact .atCursor moved rest
  cases ty with
  | scalar kind =>
    rw [walkField] at walked
    exact fixedCase (.scalar kind) walked
  | text =>
    rw [walkField] at walked
    exact cursorCase .text walked
  | bytes length =>
    rw [walkField] at walked
    exact fixedCase (.block rfl (.inl ⟨length, rfl⟩)) walked
  | array element count =>
    have blocks : ∀ {each length : Nat}, element.fixedWidth? = some each →
        sized? (each * count.toNat) = some length →
        placeFixed state ⟨state.scope, name⟩ length (.block (.array element count) length) =
          .ok (first, next) →
        LaidOut ((name, .array element count) :: fields) state (first ++ steps) final := by
      intro each length fixedElement sized placed
      refine fixedCase (.block ?_ (.inr ⟨element, count, rfl⟩)) placed
      simp only [FieldType.fixedWidth?, fixedElement, Option.bind_eq_bind, Option.bind_some, sized]
    cases element with
    | text =>
      rw [walkField] at walked
      split at walked
      · cases walked
      · exact cursorCase (.texts (by omega)) walked
    | enum variants =>
      rw [walkField] at walked
      cases walked
    | _ =>
      rw [walkField] at walked
      · split at walked
        · cases walked
        · rename_i each fixedElement
          split at walked
          · cases walked
          · rename_i length sized
            exact blocks fixedElement sized walked
      all_goals simp
  | option inner =>
    cases inner with
    | text =>
      rw [walkField] at walked
      exact cursorCase .optionalText walked
    | scalar kind =>
      rw [walkField] at walked
      exact cursorCase (.optionalScalar kind) walked
    | _ =>
      rw [walkField] at walked
      · cases walked
      all_goals simp
  | struct inner =>
    rw [walkField] at walked
    simp only [bind, Except.bind] at walked
    split at walked
    · cases walked
    · rename_i result inside
      cases walked
      exact .nested (nested inner rfl _ _ _ inside) rest
  | enum variants =>
    rw [walkField] at walked
    cases walked

/-- A walk is a layout if the walks into nested structs are. -/
theorem walksAreLayouts_of_nested {fields : List Field}
    (nested : ∀ field ∈ fields, ∀ inner, field.2 = .struct inner → WalksAreLayouts inner) :
    WalksAreLayouts fields := by
  induction fields with
  | nil =>
    intro state steps final walked
    cases walked
    exact .nil
  | cons field fields inductionHypothesis =>
    intro state steps final walked
    rw [walkFields] at walked
    simp only [bind, Except.bind] at walked
    split at walked
    · cases walked
    · rename_i first walkedFirst
      split at walked
      · cases walked
      · rename_i others walkedRest
        cases walked
        refine laidOut_cons_of_walkField (nested field List.mem_cons_self) walkedFirst ?_
        exact inductionHypothesis (fun other listed => nested other (List.mem_cons_of_mem _ listed))
          _ _ _ walkedRest

theorem walksAreLayouts (fields : List Field) : WalksAreLayouts fields := by
  refine walksAreLayouts_of_nested fun field _ => ?_
  generalize field.2 = ty
  induction ty with
  | struct fields inductionHypothesis =>
    rintro inner ⟨⟩
    exact walksAreLayouts_of_nested inductionHypothesis
  | _ => nofun

/-- A plan is a layout of its fields from the start, and covers what comes before the cursor. -/
theorem laidOut_of_build {fields : List Field} {base : String} {plan : Plan}
    (built : build fields base = .ok plan) :
    ∃ final, LaidOut fields (.start base) plan.steps final ∧ plan.fixedSize = final.staticOffset := by
  simp only [build, bind, Except.bind] at built
  split at built
  · cases built
  · rename_i result walked
    cases built
    exact ⟨result.2, walksAreLayouts fields _ _ _ walked, rfl⟩

end Plan

/-! ## What a layout keeps -/

theorem LaidOut.scope_eq {fields : List Field} {state final : LayoutState} {steps : List Step}
    (laid : LaidOut fields state steps final) : final.scope = state.scope := by
  induction laid with
  | nil => rfl
  | fixed moved advanced rest inductionHypothesis =>
    rw [inductionHypothesis, (LayoutState.advance?_frame advanced).1]
  | atCursor moved rest inductionHypothesis =>
    rw [inductionHypothesis]
    rfl
  | nested within rest scopeWithin scopeRest =>
    rw [scopeRest]
    rw [LayoutState.ascend, scopeWithin, LayoutState.descend, Scope.parent_enter]

/-- After the fields of a nested struct, the walk is back in the scope around it. -/
theorem LaidOut.scope_ascend {inner : List Field} {name : String} {state last : LayoutState}
    {steps : List Step} (within : LaidOut inner (state.descend name) steps last) :
    last.ascend.scope = state.scope := by
  rw [LayoutState.ascend, within.scope_eq, LayoutState.descend, Scope.parent_enter]

theorem LaidOut.staticOffset_le {fields : List Field} {state final : LayoutState} {steps : List Step}
    (laid : LaidOut fields state steps final) : state.staticOffset ≤ final.staticOffset := by
  induction laid with
  | nil => exact Nat.le_refl _
  | fixed moved advanced rest inductionHypothesis =>
    exact Nat.le_trans (LayoutState.advance?_frame advanced).2.2 inductionHypothesis
  | atCursor moved rest inductionHypothesis => exact inductionHypothesis
  | nested within rest growsWithin growsRest => exact Nat.le_trans growsWithin growsRest

/-- Positions that are known in advance can be written as literals. -/
theorem LaidOut.staticOffset_le_maxLiteral {fields : List Field} {state final : LayoutState}
    {steps : List Step} (laid : LaidOut fields state steps final)
    (small : state.staticOffset ≤ maxLiteral) : final.staticOffset ≤ maxLiteral := by
  induction laid with
  | nil => exact small
  | fixed moved advanced rest inductionHypothesis =>
    apply inductionHypothesis
    obtain ⟨-, ⟨-, -, rfl⟩ | ⟨-, fits, -, rfl⟩⟩ := LayoutState.advance?_eq_some advanced
    · exact small
    · exact fits
  | atCursor moved rest inductionHypothesis => exact inductionHypothesis small
  | nested within rest smallWithin smallRest => exact smallRest (smallWithin small)

theorem Plan.fixedSize_le_maxLiteral {fields : List Field} {base : String} {plan : Plan}
    (built : build fields base = .ok plan) : plan.fixedSize ≤ maxLiteral := by
  obtain ⟨final, laid, size⟩ := laidOut_of_build built
  rw [size]
  exact laid.staticOffset_le_maxLiteral (Nat.zero_le _)

/-- The part with known positions is within what a word can count. -/
theorem Plan.fixedSize_lt {fields : List Field} {base : String} {plan : Plan}
    (built : build fields base = .ok plan) : plan.fixedSize < 2 ^ 64 :=
  Nat.lt_of_le_of_lt (fixedSize_le_maxLiteral built) (by decide)

open FieldType (SpellsFields)

/-- What is laid out has at least the bytes whose positions are known, and no others while there is
no cursor. -/
theorem LaidOut.staticOffset_of_spells {fields : List Field} {state final : LayoutState}
    {steps : List Step} (laid : LaidOut fields state steps final) {bytes : List UInt8}
    {members : List (String × Value)} (spelled : SpellsFields fields bytes members) :
    final.staticOffset ≤ state.staticOffset + bytes.length ∧
      (final.dynamic = false →
        state.dynamic = false ∧ final.staticOffset = state.staticOffset + bytes.length) := by
  induction laid generalizing bytes members with
  | nil =>
    cases spelled
    exact ⟨Nat.le_add_right _ _, fun static => ⟨static, rfl⟩⟩
  | fixed moved advanced rest inductionHypothesis =>
    cases spelled with
    | cons head tail =>
      have width := FieldType.Spells.length_eq _ _ moved.fixedWidth? _ _ head
      obtain ⟨atMost, exact⟩ := inductionHypothesis tail
      rw [List.length_append]
      obtain ⟨-, ⟨dynamic, -, rfl⟩ | ⟨notDynamic, -, -, rfl⟩⟩ := LayoutState.advance?_eq_some advanced
      · refine ⟨by omega, fun static => ?_⟩
        rw [(exact static).1] at dynamic
        cases dynamic
      · simp only at atMost exact
        refine ⟨by omega, fun static => ⟨notDynamic, ?_⟩⟩
        have := (exact static).2
        omega
  | atCursor moved rest inductionHypothesis =>
    cases spelled with
    | cons head tail =>
      obtain ⟨atMost, exact⟩ := inductionHypothesis tail
      rw [List.length_append]
      simp only [LayoutState.atCursor] at atMost exact
      exact ⟨by omega, fun static => absurd (exact static).1 (by simp)⟩
  | nested within rest inductionWithin inductionRest =>
    cases spelled with
    | cons head tail =>
      cases head with
      | struct inner =>
        obtain ⟨atMostWithin, exactWithin⟩ := inductionWithin inner
        obtain ⟨atMostRest, exactRest⟩ := inductionRest tail
        rw [List.length_append]
        simp only [LayoutState.descend, LayoutState.ascend] at atMostWithin exactWithin atMostRest exactRest
        refine ⟨by omega, fun static => ?_⟩
        obtain ⟨notDynamic, endRest⟩ := exactRest static
        obtain ⟨notDynamicBefore, endWithin⟩ := exactWithin notDynamic
        exact ⟨notDynamicBefore, by omega⟩

/-! ## Scopes -/

mutual

/-- Every struct that the walk goes into below a field is as said. -/
def FieldType.EveryScope (good : List Field → Prop) : FieldType → Prop
  | .struct fields => good fields ∧ EveryScopeIn good fields
  | _ => True

/-- Every struct that the walk goes into below these fields is as said. -/
def FieldType.EveryScopeIn (good : List Field → Prop) : List Field → Prop
  | [] => True
  | (_, ty) :: rest => ty.EveryScope good ∧ EveryScopeIn good rest

end

end PackedRecord
