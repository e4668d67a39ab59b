import Mathlib.Algebra.GroupWithZero.Nat
import Mathlib.Data.List.DropRight
import PackedRecord.Proofs.Plan.Walk

/-!
# Layout states after any calls

A layout state is changed by four calls: a field of fixed width is placed, the cursor is started, and a struct
is gone into or come back from.  Here they come in any order and number, also in orders that no walk over
fields has.

* `dynamic_run`, `staticOffset_run_of_dynamic`, `staticOffset_run_le`, `staticOffset_run`: the cursor stays,
  and what lies before it does not change any more.
* `members_run_rdrop`, `scope_run_of_matched`: the scope is a stack that cannot be emptied below its base.
* `run_start`: all that the calls so far say about the state, and about what it answers next.
-/

namespace PackedRecord

inductive LayoutCall where
  | advance (width : Nat)
  | goDynamic
  | descend (name : String)
  | ascend
  deriving DecidableEq

namespace LayoutCall

def inScope : LayoutCall → Scope → Scope
  | descend name, scope => scope.enter name
  | ascend, scope => scope.parent
  | advance _, scope | goDynamic, scope => scope

def movesScope : LayoutCall → Bool
  | descend _ | ascend => true
  | advance _ | goDynamic => false

/-- The structs that were gone into and not come back from, outermost first.  The calls are given from the last
to the first: a way back takes away the nearest way in before it, if there is one. -/
def openBefore : (back : Nat) → List LayoutCall → List String
  | _, [] => []
  | back, ascend :: earlier => openBefore (back + 1) earlier
  | 0, descend name :: earlier => openBefore 0 earlier ++ [name]
  | back + 1, descend _ :: earlier => openBefore back earlier
  | back, advance _ :: earlier => openBefore back earlier
  | back, goDynamic :: earlier => openBefore back earlier

/-- The structs in which calls from the base of a record end. -/
def stillOpen (calls : List LayoutCall) : List String :=
  openBefore 0 calls.reverse

/-- Calls in which every way into a struct has its way back behind it, and the other way round. -/
inductive Matched : List LayoutCall → Prop where
  | nil : Matched []
  | other {call : LayoutCall} {calls : List LayoutCall} (stays : call.movesScope = false) (rest : Matched calls) :
    Matched (call :: calls)
  | nested {name : String} {inner calls : List LayoutCall} (within : Matched inner) (rest : Matched calls) :
    Matched (descend name :: (inner ++ ascend :: calls))

theorem inScope_of_stays {call : LayoutCall} (stays : call.movesScope = false) (scope : Scope) :
    call.inScope scope = scope := by
  cases call with
  | advance width | goDynamic => rfl
  | descend name | ascend => cases stays

theorem base_inScope (call : LayoutCall) (scope : Scope) : (call.inScope scope).base = scope.base := by
  cases call <;> rfl

end LayoutCall

open LayoutCall

namespace LayoutState

/-- The state after a call.  A field that cannot be placed leaves the state as it was. -/
def after (state : LayoutState) : LayoutCall → LayoutState
  | .advance width => (state.advance? width).elim state Prod.snd
  | .goDynamic => state.goDynamic.2
  | .descend name => state.descend name
  | .ascend => state.ascend

def run (state : LayoutState) (calls : List LayoutCall) : LayoutState :=
  calls.foldl after state

def placedBy (state : LayoutState) : LayoutCall → Option Nat
  | .advance width => (state.advance? width).map fun _ => width
  | .goDynamic | .descend _ | .ascend => none

def placed (state : LayoutState) : List LayoutCall → List Nat
  | [] => []
  | call :: calls => (state.placedBy call).toList ++ (state.after call).placed calls

variable {state : LayoutState}

theorem run_cons (state : LayoutState) (call : LayoutCall) (calls : List LayoutCall) :
    state.run (call :: calls) = (state.after call).run calls :=
  rfl

theorem run_append (state : LayoutState) (calls more : List LayoutCall) :
    state.run (calls ++ more) = (state.run calls).run more :=
  List.foldl_append

/-! ## One call -/

theorem goDynamic_eq (state : LayoutState) :
    state.goDynamic = (if state.dynamic then none else some state.staticOffset, state.atCursor) := by
  obtain ⟨offset, dynamic, scope⟩ := state
  cases dynamic <;> rfl

/-- A field of fixed width changes the state only if it is placed before there is a cursor. -/
theorem after_advance (state : LayoutState) (width : Nat) :
    (state.after (.advance width) = state ∧ (state.dynamic = true ∨ state.placedBy (.advance width) = none)) ∨
      (state.dynamic = false ∧ state.placedBy (.advance width) = some width ∧
        state.staticOffset + width ≤ maxLiteral ∧
        state.after (.advance width) = { state with staticOffset := state.staticOffset + width }) := by
  cases advanced : state.advance? width with
  | none => exact .inl ⟨by simp [after, advanced], .inr (by simp [placedBy, advanced])⟩
  | some next =>
    obtain ⟨-, ⟨dynamic, -, same⟩ | ⟨static, fits, -, grown⟩⟩ := advance?_eq_some advanced
    · exact .inl ⟨by simp [after, advanced, same], .inl dynamic⟩
    · exact .inr ⟨static, by simp [placedBy, advanced], fits, by simp [after, advanced, grown]⟩

theorem dynamic_after (state : LayoutState) (call : LayoutCall) :
    (state.after call).dynamic = true ↔ state.dynamic = true ∨ call = .goDynamic := by
  cases call with
  | advance width =>
    obtain ⟨same, -⟩ | ⟨-, -, -, grown⟩ := after_advance state width
    · simp [same]
    · simp [grown]
  | goDynamic => simp [after, goDynamic_eq, atCursor]
  | descend name | ascend => simp [after, descend, ascend]

theorem staticOffset_after (state : LayoutState) (call : LayoutCall) :
    (state.after call).staticOffset =
      if state.dynamic then state.staticOffset else state.staticOffset + (state.placedBy call).getD 0 := by
  cases call with
  | advance width =>
    obtain ⟨same, dynamic | refused⟩ | ⟨static, fits, -, grown⟩ := after_advance state width
    · simp [same, dynamic]
    · simp [same, refused]
    · simp [grown, static, fits]
  | goDynamic => simp [after, placedBy, goDynamic_eq, atCursor]
  | descend name | ascend => simp [after, placedBy, descend, ascend]

theorem staticOffset_after_le (small : state.staticOffset ≤ maxLiteral) (call : LayoutCall) :
    (state.after call).staticOffset ≤ maxLiteral := by
  cases call with
  | advance width =>
    obtain ⟨same, -⟩ | ⟨-, -, fits, grown⟩ := after_advance state width
    · rwa [same]
    · rwa [grown]
  | goDynamic => simpa [after, goDynamic_eq, atCursor] using small
  | descend name | ascend => exact small

theorem scope_after (state : LayoutState) (call : LayoutCall) : (state.after call).scope = call.inScope state.scope := by
  cases call with
  | advance width =>
    obtain ⟨same, -⟩ | ⟨-, -, -, grown⟩ := after_advance state width
    · rw [same, inScope]
    · rw [grown, inScope]
  | goDynamic => rw [after, goDynamic_eq, inScope, atCursor]
  | descend name | ascend => rfl

/-! ## The cursor and the fixed part -/

theorem dynamic_run (state : LayoutState) (calls : List LayoutCall) :
    (state.run calls).dynamic = true ↔ state.dynamic = true ∨ .goDynamic ∈ calls := by
  induction calls generalizing state with
  | nil => simp [run]
  | cons call calls inductionHypothesis =>
    rw [run_cons, inductionHypothesis, dynamic_after, List.mem_cons, or_assoc]
    exact or_congr_right (or_congr_left eq_comm)

theorem staticOffset_run_of_dynamic (dynamic : state.dynamic = true) (calls : List LayoutCall) :
    (state.run calls).staticOffset = state.staticOffset := by
  induction calls generalizing state with
  | nil => rfl
  | cons call calls inductionHypothesis =>
    have stays := (dynamic_after state call).mpr (.inl dynamic)
    rw [run_cons, inductionHypothesis stays, staticOffset_after, if_pos dynamic]

theorem staticOffset_run_le (small : state.staticOffset ≤ maxLiteral) (calls : List LayoutCall) :
    (state.run calls).staticOffset ≤ maxLiteral := by
  induction calls generalizing state with
  | nil => exact small
  | cons call calls inductionHypothesis => exact inductionHypothesis (staticOffset_after_le small call)

/-- Until there is a cursor, fields are placed one behind the other. -/
theorem staticOffset_run (static : state.dynamic = false) (calls : List LayoutCall) :
    (state.run calls).staticOffset =
      state.staticOffset + (state.placed (calls.takeWhile (· ≠ .goDynamic))).sum := by
  induction calls generalizing state with
  | nil => simp [run, placed]
  | cons call calls inductionHypothesis =>
    rw [run_cons]
    by_cases starts : call = .goDynamic
    · have dynamic := (dynamic_after state call).mpr (.inr starts)
      rw [staticOffset_run_of_dynamic dynamic, staticOffset_after]
      simp [starts, static, placedBy, placed]
    · have stays : (state.after call).dynamic = false := by
        rw [← Bool.not_eq_true, dynamic_after]
        simp [static, starts]
      rw [inductionHypothesis stays, staticOffset_after, List.takeWhile_cons_of_pos (by simpa using starts), placed]
      cases state.placedBy call <;> simp [static, Nat.add_assoc]

/-! ## The scope -/

theorem scope_run (state : LayoutState) (calls : List LayoutCall) :
    (state.run calls).scope = calls.foldl (fun scope call => call.inScope scope) state.scope := by
  induction calls generalizing state with
  | nil => rfl
  | cons call calls inductionHypothesis => rw [run_cons, inductionHypothesis, scope_after, List.foldl_cons]

theorem base_run (state : LayoutState) (calls : List LayoutCall) : (state.run calls).scope.base = state.scope.base := by
  induction calls generalizing state with
  | nil => rfl
  | cons call calls inductionHypothesis => rw [run_cons, inductionHypothesis, scope_after, base_inScope]

theorem scope_run_filter (state : LayoutState) (calls : List LayoutCall) :
    (state.run (calls.filter movesScope)).scope = (state.run calls).scope := by
  rw [scope_run, scope_run, List.foldl_filter]
  congr 1
  funext scope call
  cases moves : call.movesScope with
  | false => simp [inScope_of_stays moves]
  | true => simp

/-- The members of the scope without the innermost `back` of them.  The induction is from the last call on, which
is the first one that `openBefore` looks at. -/
theorem members_run_rdrop (base : String) (calls : List LayoutCall) (back : Nat) :
    ((start base).run calls).scope.members.rdrop back = openBefore back calls.reverse := by
  induction calls using List.reverseRecOn generalizing back with
  | nil => simp [run, start, openBefore]
  | append_singleton calls call inductionHypothesis =>
    rw [List.reverse_concat, run_append, run_cons, run, List.foldl_nil, scope_after]
    cases call with
    | advance width | goDynamic => rw [inScope, inductionHypothesis, openBefore]
    | descend name =>
      rw [inScope, Scope.enter]
      cases back with
      | zero => rw [openBefore, ← inductionHypothesis, List.rdrop_zero, List.rdrop_zero]
      | succ back => rw [openBefore, ← inductionHypothesis, List.rdrop_concat_succ]
    | ascend =>
      rw [inScope, Scope.parent, openBefore, ← inductionHypothesis]
      simp only [List.rdrop, List.dropLast_eq_take, List.take_take, List.length_take]
      congr 1
      omega

theorem scope_run_start (base : String) (calls : List LayoutCall) :
    ((start base).run calls).scope = { base, members := stillOpen calls } := by
  have members := members_run_rdrop base calls 0
  have same := base_run (start base) calls
  rw [List.rdrop_zero] at members
  rw [stillOpen, ← members]
  exact congrArg (Scope.mk · _) same

/-- Calls that match leave the scope as it was, from wherever they start. -/
theorem scope_run_of_matched {calls : List LayoutCall} (matched : Matched calls) (state : LayoutState) :
    (state.run calls).scope = state.scope := by
  induction matched generalizing state with
  | nil => rfl
  | other stays rest inductionHypothesis =>
    rw [run_cons, inductionHypothesis, scope_after, inScope_of_stays stays]
  | @nested name inner calls within rest inductionWithin inductionRest =>
    rw [run_cons, run_append, run_cons, inductionRest, scope_after, inductionWithin, scope_after, inScope, inScope,
      Scope.parent_enter]

theorem scope_ascend_of_matched {inner : List LayoutCall} (matched : Matched inner) (state : LayoutState)
    (before : List LayoutCall) (name : String) :
    (state.run (before ++ .descend name :: inner)).ascend.scope = (state.run before).scope := by
  rw [ascend, run_append, run_cons, scope_run_of_matched matched, scope_after, inScope, Scope.parent_enter]

/-! ## Histories -/

/-- Whatever calls have been made since the start, there is a cursor just if it has been started, and the fixed
part is as long as the fields that were placed before that, up to the largest literal and from then on for good.
The cursor starts at its end, once.  A field is refused just if it or the fixed part with it would be too long, and
is otherwise placed at the end of the fixed part or at the cursor.  The scope is a matter of the ways in and back
alone: coming back undoes the latest way in that has not been undone, and nothing at the base. -/
theorem run_start (base : String) (calls : List LayoutCall) :
    let state := (start base).run calls
    (state.dynamic = true ↔ .goDynamic ∈ calls) ∧
      state.staticOffset = ((start base).placed (calls.takeWhile (· ≠ .goDynamic))).sum ∧
      state.staticOffset ≤ 2 ^ 63 - 1 ∧
      (.goDynamic ∈ calls → ∀ more, (state.run more).staticOffset = state.staticOffset) ∧
      state.goDynamic.1 = (if .goDynamic ∈ calls then none else some state.staticOffset) ∧
      (∀ width, state.advance? width = none ↔
        2 ^ 63 - 1 < width ∨ state.dynamic = false ∧ 2 ^ 63 - 1 < state.staticOffset + width) ∧
      (∀ width access next, state.advance? width = some (access, next) →
        access = if .goDynamic ∈ calls then .cursor else .static state.staticOffset) ∧
      state.scope = { base, members := stillOpen calls } ∧
      state.scope = ((start base).run (calls.filter movesScope)).scope ∧
      (∀ before name inner, calls = before ++ .descend name :: inner → Matched inner →
        state.ascend.scope = ((start base).run before).scope) ∧
      (stillOpen calls = [] → state.ascend = state) := by
  intro state
  have dynamic : state.dynamic = true ↔ .goDynamic ∈ calls :=
    (dynamic_run (start base) calls).trans (or_iff_right Bool.false_ne_true)
  have scope : state.scope = { base, members := stillOpen calls } := scope_run_start base calls
  refine ⟨dynamic, (staticOffset_run rfl calls).trans (Nat.zero_add _), staticOffset_run_le (Nat.zero_le _) calls, ?_,
    ?_, fun width => advance?_eq_none_iff, ?_, scope, (scope_run_filter _ calls).symm, ?_, ?_⟩
  · intro started more
    exact staticOffset_run_of_dynamic (dynamic.mpr started) more
  · simp [goDynamic_eq, dynamic]
  · intro width access next advanced
    rw [← (advance?_access advanced).1]
    simp [LayoutState.access, dynamic]
  · rintro before name inner rfl matched
    exact scope_ascend_of_matched matched (start base) before name
  · intro atBase
    have bottom : state.scope.parent = state.scope := by
      rw [scope, atBase]
      rfl
    rw [ascend, bottom]

/-- A field is refused for the end that it would have, and another one is placed once there is a cursor.  The struct
is left again as it was gone into, and there is nothing around the record. -/
theorem run_start_refused :
    let calls : List LayoutCall :=
      [.advance 3, .descend "head", .advance (2 ^ 63 - 3), .descend "inner", .goDynamic, .ascend]
    let state := (start "out").run calls
    let bottom := (start "out").run (calls ++ [.ascend])
    state.dynamic = true ∧ state.staticOffset = 3 ∧ (∀ more, (state.run more).staticOffset = 3) ∧
      state.goDynamic.1 = none ∧ state.advance? (2 ^ 63) = none ∧
      (∀ access next, state.advance? (2 ^ 63 - 3) = some (access, next) → access = .cursor) ∧
      state.scope = { base := "out", members := ["head"] } ∧ state.ascend.scope = { base := "out" } ∧
      bottom.ascend = bottom := by
  intro calls state bottom
  obtain ⟨dynamic, offset, -, settled, seed, refused, access, scope, -, undone, -⟩ := run_start "out" calls
  obtain ⟨-, -, -, -, -, -, -, -, -, -, atBase⟩ := run_start "out" (calls ++ [.ascend])
  have started : LayoutCall.goDynamic ∈ calls := by decide
  have three : state.staticOffset = 3 := offset.trans (by decide)
  have inner : Matched [.advance (2 ^ 63 - 3), .descend "inner", .goDynamic, .ascend] :=
    .other rfl (@Matched.nested "inner" [.goDynamic] [] (.other rfl .nil) .nil)
  refine ⟨dynamic.mpr started, three, fun more => (settled started more).trans three, ?_,
    (refused _).mpr (.inl (by decide)), ?_, scope, undone [.advance 3] "head" _ rfl inner, atBase rfl⟩
  · rw [seed, if_pos started]
  · intro found next placed
    rw [access _ _ _ placed, if_pos started]

end LayoutState

end PackedRecord
