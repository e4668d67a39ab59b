import PackedRecord.Manifest.Error
import PackedRecord.Proofs.Json.Numbers

/-!
# Manifests that were read from text

What the rest of the library may count on in a manifest, whichever way its text was laid out.

* `wellFormed_of_ofText`: no two cases have the same name, and no number in an example is NaN.
-/

namespace PackedRecord.Manifest

open Json

def NumbersOnly (examples : List Json) : Prop :=
  ∀ input ∈ examples, input.EveryNumber Numeral.NotNan

/-! ## Parts of a manifest -/

theorem gives_unexpected {α : Type} (good : α → Prop) (wanted : Wanted) :
    Gives good (unexpected wanted : Parser Misfit α) := by
  refine Gives.after fun token => ?_
  split
  · exact gives_throw _ _
  · exact Gives.after fun _ => Gives.after fun _ => gives_throw _ _
  · exact Gives.after fun _ => Gives.after fun _ => gives_throw _ _
  · exact Gives.after fun _ => Gives.after fun _ => gives_throw _ _
  · exact Gives.after fun _ => Gives.after fun _ => gives_throw _ _
  · exact gives_throw _ _
  · exact gives_throw _ _
  · exact Gives.after fun _ => Gives.after fun _ => gives_throw _ _
  · split
    · exact Gives.after fun _ => gives_throw _ _
    · exact gives_throw _ _

theorem gives_sequence {α : Type} {good : α → Prop} {item : Parser Misfit α} (each : Gives good item) :
    Gives (fun as => ∀ a ∈ as, good a) (sequence item) := by
  refine Gives.after fun token => ?_
  split
  · exact Gives.after fun _ => gives_elements each
  · exact gives_unexpected _ _

theorem gives_examples : Gives NumbersOnly examples :=
  gives_sequence (gives_value inherited_everyNumber exampleDepth)

theorem gives_required {α : Type} {good : α → Prop} {key : String} {field : Option α}
    (holds : ∀ a, field = some a → good a) : Gives good (required key field) := by
  cases field with
  | some a => exact gives_pure (holds a rfl)
  | none => exact gives_throw _ _

theorem gives_positional {α : Type} {good : α → Prop} {field : Parser Misfit α} (holds : Gives good field)
    (wanted : Wanted) (count : String) (present : Nat) :
    Gives good (positional wanted count present field) := by
  refine Gives.after fun more => ?_
  split
  · exact holds
  · exact gives_throw _ _

/-! ## Cases -/

theorem gives_caseMember (fields : CaseFields) (key : String)
    (before : NumbersOnly (fields.examples.getD [])) :
    Gives (fun fields : CaseFields => NumbersOnly (fields.examples.getD [])) (caseMember fields key) := by
  rw [caseMember.eq_def]
  split
  · exact Gives.after fun _ => Gives.after fun _ => Gives.after fun name => gives_pure before
  · exact Gives.after fun _ => Gives.after fun _ => Gives.after fun definition => gives_pure before
  · refine Gives.after fun _ => Gives.after fun _ => gives_examples.bind fun inputs numbers => ?_
    exact gives_pure numbers
  · exact Gives.after fun _ => Gives.after fun _ => gives_pure before

theorem gives_case : Gives (fun c : Case => NumbersOnly c.examples) case := by
  have none : NumbersOnly (({} : CaseFields).examples.getD []) := by
    intro input impossible
    cases impossible
  refine Gives.after fun token => ?_
  split
  · refine Gives.after fun _ => (gives_members gives_caseMember none).bind fun fields numbers => ?_
    refine Gives.after fun name => Gives.after fun definition => Gives.after fun _ => ?_
    exact gives_pure numbers
  · refine Gives.after fun _ => Gives.after fun name => Gives.after fun definition => ?_
    refine Gives.after fun more => ?_
    split
    · exact gives_examples.bind fun inputs numbers => Gives.after fun _ => gives_pure numbers
    · exact (gives_pure none).bind fun inputs numbers => Gives.after fun _ => gives_pure numbers
  · exact gives_unexpected _ _

/-! ## Manifests -/

def CasesRead (cases : List Case) : Prop :=
  ∀ c ∈ cases, NumbersOnly c.examples

theorem gives_manifestMember (cases : Option (List Case)) (key : String)
    (before : CasesRead (cases.getD [])) :
    Gives (fun cases : Option (List Case) => CasesRead (cases.getD [])) (manifestMember cases key) := by
  rw [manifestMember.eq_def]
  split
  · refine Gives.after fun _ => Gives.after fun _ => (gives_sequence gives_case).bind fun cases numbers => ?_
    exact gives_pure numbers
  · exact Gives.after fun _ => Gives.after fun _ => gives_pure before

theorem gives_manifest : Gives (fun m : Manifest => CasesRead m.cases) manifest := by
  have none : CasesRead ((none : Option (List Case)).getD []) := by
    intro c impossible
    cases impossible
  refine Gives.after fun token => ?_
  split
  · refine Gives.after fun _ => (gives_members gives_manifestMember none).bind fun cases? numbers => ?_
    have listed : ∀ cases, cases? = some cases → CasesRead cases := by
      intro cases found
      simpa [found] using numbers
    refine (gives_required listed).bind fun cases numbers => Gives.after fun _ => ?_
    exact gives_pure numbers
  · refine Gives.after fun _ => (gives_positional (gives_sequence gives_case) _ _ _).bind ?_
    exact fun cases numbers => Gives.after fun _ => gives_pure numbers
  · exact gives_unexpected _ _

theorem nodup_of_search {cases : List Case} {seen : List String}
    (none : repeatedName?.search seen cases = none) :
    (cases.map Case.name).Nodup ∧ ∀ name ∈ cases.map Case.name, name ∉ seen := by
  induction cases generalizing seen with
  | nil => simp
  | cons c cases inductionHypothesis =>
    rw [repeatedName?.search] at none
    split at none
    · cases none
    · rename_i fresh
      obtain ⟨distinct, others⟩ := inductionHypothesis none
      rw [List.map_cons]
      constructor
      · exact List.nodup_cons.mpr ⟨fun listed => others c.name listed List.mem_cons_self, distinct⟩
      · refine List.forall_mem_cons.mpr ⟨by simpa using fresh, fun name listed before => ?_⟩
        exact others name listed (List.mem_cons_of_mem _ before)

/-- No two cases have the same name, and no number in an example is NaN. -/
structure WellFormed (m : Manifest) : Prop where
  distinct : (m.cases.map Case.name).Nodup
  numbers : ∀ c ∈ m.cases, ∀ input ∈ c.examples, input.EveryNumber Numeral.NotNan

theorem wellFormed_of_ofText {text : String} {m : Manifest} (read : ofText text = .ok m) : m.WellFormed := by
  obtain ⟨m', parsed, read⟩ := bind_eq_ok read
  have whole := mapError_eq_ok_iff.mp parsed
  cases repeated : m'.repeatedName? with
  | some name =>
    rw [repeated] at read
    cases read
  | none =>
    rw [repeated] at read
    cases read
    exact ⟨(nodup_of_search repeated).1, gives_manifest.readWhole whole⟩

end PackedRecord.Manifest
