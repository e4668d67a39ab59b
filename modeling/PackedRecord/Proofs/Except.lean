import Mathlib.Data.List.Forall2

/-!
# Computations that stop at the first fault

A check in several parts passes if each part does, and otherwise ends with the fault of the first part
that does not.
-/

namespace PackedRecord

variable {ε α β : Type}

theorem bind_eq_ok {check : Except ε α} {next : α → Except ε β} {b : β}
    (passed : (check >>= next) = .ok b) : ∃ a, check = .ok a ∧ next a = .ok b := by
  cases check with
  | ok a => exact ⟨a, rfl, passed⟩
  | error e => cases passed

theorem bind_eq_error {check : Except ε α} {next : α → Except ε β} {e : ε}
    (failed : (check >>= next) = .error e) :
    check = .error e ∨ ∃ a, check = .ok a ∧ next a = .error e := by
  cases check with
  | ok a => exact .inr ⟨a, rfl, failed⟩
  | error fault =>
    cases failed
    exact .inl rfl

theorem map_eq_ok {check : Except ε α} {f : α → β} {b : β} (passed : f <$> check = .ok b) :
    ∃ a, check = .ok a ∧ f a = b := by
  cases check with
  | ok a => exact ⟨a, rfl, Except.ok.inj passed⟩
  | error e => cases passed

theorem mapError_eq_ok_iff {ε' : Type} {check : Except ε α} {rename : ε → ε'} {a : α} :
    check.mapError rename = .ok a ↔ check = .ok a := by
  cases check <;> simp [Except.mapError]

theorem mapError_eq_error_iff {ε' : Type} {check : Except ε α} {rename : ε → ε'} {e : ε'} :
    check.mapError rename = .error e ↔ ∃ fault, check = .error fault ∧ rename fault = e := by
  cases check <;> simp [Except.mapError]

theorem exists_left_of_mem {related : α → β → Prop} {as : List α} {bs : List β}
    (each : List.Forall₂ related as bs) {b : β} (listed : b ∈ bs) : ∃ a ∈ as, related a b := by
  induction each with
  | nil => cases listed
  | cons first others inductionHypothesis =>
    rcases List.mem_cons.mp listed with rfl | listed
    · exact ⟨_, List.mem_cons_self, first⟩
    · obtain ⟨a, among, holds⟩ := inductionHypothesis listed
      exact ⟨a, List.mem_cons_of_mem _ among, holds⟩

theorem exists_right_of_mem {related : α → β → Prop} {as : List α} {bs : List β}
    (each : List.Forall₂ related as bs) {a : α} (listed : a ∈ as) : ∃ b ∈ bs, related a b :=
  exists_left_of_mem (@List.Forall₂.flip _ _ (flip related) _ _ each) listed

theorem mapM_eq_ok_iff {f : α → Except ε β} {items : List α} {results : List β} :
    items.mapM f = .ok results ↔ List.Forall₂ (fun a b => f a = .ok b) items results := by
  induction items generalizing results with
  | nil =>
    rw [List.mapM_nil, List.forall₂_nil_left_iff]
    exact ⟨fun same => (Except.ok.inj same).symm, fun same => same ▸ rfl⟩
  | cons a items inductionHypothesis =>
    rw [List.mapM_cons]
    constructor
    · intro passed
      obtain ⟨b, first, passed⟩ := bind_eq_ok passed
      obtain ⟨rest, others, passed⟩ := bind_eq_ok passed
      cases passed
      exact .cons first (inductionHypothesis.mp others)
    · intro related
      cases related with
      | cons first others =>
        rw [first, inductionHypothesis.mpr others]
        rfl

theorem mapM_eq_error_iff {f : α → Except ε β} {items : List α} {e : ε} :
    items.mapM f = .error e ↔ ∃ front a back, items = front ++ a :: back ∧
      (∀ earlier ∈ front, ∃ b, f earlier = .ok b) ∧ f a = .error e := by
  induction items with
  | nil =>
    rw [List.mapM_nil]
    constructor
    · intro impossible
      cases impossible
    · intro ⟨front, a, back, split, _⟩
      simp at split
  | cons a items inductionHypothesis =>
    rw [List.mapM_cons]
    constructor
    · intro failed
      rcases bind_eq_error failed with first | ⟨b, first, failed⟩
      · exact ⟨[], a, items, rfl, by simp, first⟩
      · rcases bind_eq_error failed with others | ⟨rest, -, impossible⟩
        · obtain ⟨front, a', back, rfl, passed, fault⟩ := inductionHypothesis.mp others
          refine ⟨a :: front, a', back, rfl, ?_, fault⟩
          simpa using ⟨⟨b, first⟩, passed⟩
        · cases impossible
    · intro ⟨front, a', back, split, passed, fault⟩
      cases front with
      | nil =>
        obtain ⟨rfl, rfl⟩ := List.cons.inj split
        rw [fault]
        rfl
      | cons earlier front =>
        obtain ⟨rfl, rfl⟩ := List.cons.inj split
        obtain ⟨b, first⟩ := passed a List.mem_cons_self
        have others := inductionHypothesis.mpr
          ⟨front, a', back, rfl, fun earlier listed => passed earlier (List.mem_cons_of_mem _ listed), fault⟩
        rw [first, others]
        rfl

end PackedRecord
