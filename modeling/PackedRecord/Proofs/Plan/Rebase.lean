import PackedRecord.Plan.Build
import PackedRecord.Proofs.Schema.Induction

/-!
# Plans seen from another base pointer

A layout does not depend on the name of the pointer that it is seen from: the places differ in it, and
what happens at them does not.

* `Plan.build_rebase`: plans of the same fields from two bases fail alike, or are the same up to the base.
-/

namespace PackedRecord

def Scope.rebase (base : String) (scope : Scope) : Scope :=
  { scope with base }

def Place.rebase (base : String) (place : Place) : Place :=
  ⟨place.scope.rebase base, place.name⟩

def Step.rebase (base : String) : Step → Step
  | seedCursor offset => seedCursor offset
  | move place transfer => move (place.rebase base) transfer

def Plan.rebase (base : String) (plan : Plan) : Plan :=
  { plan with base, steps := plan.steps.map (Step.rebase base) }

namespace LayoutState

def rebase (base : String) (state : LayoutState) : LayoutState :=
  { state with scope := state.scope.rebase base }

theorem advance?_rebase (base : String) (state : LayoutState) (width : Nat) :
    (state.rebase base).advance? width =
      (state.advance? width).map fun placed => (placed.1, placed.2.rebase base) := by
  obtain ⟨offset, dynamic, scope⟩ := state
  by_cases wide : maxLiteral < width
  · simp [advance?, wide]
  cases dynamic with
  | true => simp [advance?, rebase, wide]
  | false => by_cases far : maxLiteral < offset + width <;> simp [advance?, rebase, wide, far]

end LayoutState

namespace Plan

def rebaseWalk (base : String) (walk : Walk) : Walk :=
  walk.map fun result => (result.1.map (Step.rebase base), result.2.rebase base)

theorem placeFixed_rebase (base : String) (state : LayoutState) (place : Place) (width : Nat)
    (transfer : Access → Transfer) :
    placeFixed (state.rebase base) (place.rebase base) width transfer =
      rebaseWalk base (placeFixed state place width transfer) := by
  simp only [placeFixed, LayoutState.advance?_rebase]
  cases state.advance? width <;> rfl

theorem placeAtCursor_rebase (base : String) (state : LayoutState) (place : Place) (transfer : Transfer) :
    placeAtCursor (state.rebase base) (place.rebase base) transfer =
      rebaseWalk base (placeAtCursor state place transfer) := by
  obtain ⟨offset, dynamic, scope⟩ := state
  cases dynamic <;> rfl

theorem walkFields_rebase_of_each (base : String) {fields : List Field}
    (each : ∀ field ∈ fields, ∀ name state,
      walkField name field.2 (state.rebase base) = rebaseWalk base (walkField name field.2 state))
    (state : LayoutState) :
    walkFields fields (state.rebase base) = rebaseWalk base (walkFields fields state) := by
  induction fields generalizing state with
  | nil => rfl
  | cons field fields inductionHypothesis =>
    obtain ⟨name, ty⟩ := field
    rw [walkFields, walkFields, each (name, ty) List.mem_cons_self]
    cases walkField name ty state with
    | error e => rfl
    | ok first =>
      have others := inductionHypothesis
        (fun field listed => each field (List.mem_cons_of_mem _ listed)) first.2
      simp only [rebaseWalk, Except.map, bind, Except.bind] at others ⊢
      rw [others]
      cases walkFields fields first.2 with
      | error e => rfl
      | ok rest => simp [pure, Except.pure]

theorem walkField_rebase (base : String) (ty : FieldType) : ∀ name state,
    walkField name ty (state.rebase base) = rebaseWalk base (walkField name ty state) := by
  induction ty with
  | scalar kind =>
    intro name state
    rw [walkField, walkField]
    exact placeFixed_rebase base state ⟨state.scope, name⟩ _ _
  | text =>
    intro name state
    rw [walkField, walkField]
    exact placeAtCursor_rebase base state ⟨state.scope, name⟩ _
  | bytes length =>
    intro name state
    rw [walkField, walkField]
    exact placeFixed_rebase base state ⟨state.scope, name⟩ _ _
  | array element count inductionHypothesis =>
    intro name state
    cases element with
    | text =>
      rw [walkField, walkField]
      split
      · rfl
      · exact placeAtCursor_rebase base state ⟨state.scope, name⟩ _
    | enum variants =>
      rw [walkField, walkField]
      rfl
    | _ =>
      rw [walkField, walkField]
      · split
        · rfl
        · split
          · rfl
          · exact placeFixed_rebase base state ⟨state.scope, name⟩ _ _
      all_goals simp
  | option inner inductionHypothesis =>
    intro name state
    cases inner with
    | text =>
      rw [walkField, walkField]
      exact placeAtCursor_rebase base state ⟨state.scope, name⟩ _
    | scalar kind =>
      rw [walkField, walkField]
      exact placeAtCursor_rebase base state ⟨state.scope, name⟩ _
    | _ =>
      rw [walkField, walkField]
      · rfl
      all_goals simp
  | struct fields inductionHypothesis =>
    intro name state
    have inside := walkFields_rebase_of_each base inductionHypothesis (state.descend name)
    rw [walkField, walkField, show (state.rebase base).descend name = (state.descend name).rebase base from rfl,
      inside]
    cases walkFields fields (state.descend name) <;> rfl
  | enum variants inductionHypothesis =>
    intro name state
    rw [walkField, walkField]
    rfl

/-- Plans of the same fields from two bases fail alike, or are the same up to the base. -/
theorem build_rebase (fields : List Field) (base base' : String) :
    build fields base' = (build fields base).map (rebase base') := by
  have walked := @walkFields_rebase_of_each base' fields (fun field _ => walkField_rebase base' field.2)
    (.start base)
  simp only [build]
  rw [show LayoutState.start base' = (LayoutState.start base).rebase base' from rfl, walked]
  cases walkFields fields (.start base) <;> rfl

end Plan

end PackedRecord
