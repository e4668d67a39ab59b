import PackedRecord.Proofs.C.Ownership
import PackedRecord.Proofs.Plan.Places

/-!
# What a release function gives back

A release function collects the pointers of a record by a walk of its own over the types, which has no
plan to go by.  Here it is compared with the plan: the pointers are those that the steps fill, in the same
order, and each is given back once.

* `nodup_ownedIn`: fields own different pointers, however deep their structs are nested.
* `Pointer.text_inj`: different pointers have different texts.
* `text_release`: the text of a release function is a line for each pointer that the plan fills.
-/

namespace PackedRecord.C

/-! ## Pointers of a record -/

theorem ownedIn_eq_flatMap_fields (scope : Scope) (fields : List Field) :
    ownedIn scope fields = fields.flatMap fun field => ownedBy scope field.1 field.2 := by
  induction fields with
  | nil => rfl
  | cons field fields inductionHypothesis => rw [ownedIn, List.flatMap_cons, inductionHypothesis]

theorem ownedIn_eq_flatMap_of_each {fields : List Field}
    (each : ∀ field ∈ fields, ∀ scope name, ownedBy scope name field.2 =
      (field.2.leaves scope name).flatMap fun leaf => ownedBy leaf.1.scope leaf.1.name leaf.2)
    (scope : Scope) :
    ownedIn scope fields =
      (FieldType.leavesIn scope fields).flatMap fun leaf => ownedBy leaf.1.scope leaf.1.name leaf.2 := by
  rw [ownedIn_eq_flatMap_fields, FieldType.leavesIn_eq_flatMap, List.flatMap_assoc]
  exact List.flatMap_congr fun field listed => each field listed scope field.1

theorem ownedBy_eq_flatMap (ty : FieldType) : ∀ (scope : Scope) (name : String),
    ownedBy scope name ty =
      (ty.leaves scope name).flatMap fun leaf => ownedBy leaf.1.scope leaf.1.name leaf.2 := by
  induction ty with
  | struct fields inductionHypothesis =>
    intro scope name
    exact ownedIn_eq_flatMap_of_each inductionHypothesis (scope.enter name)
  | _ =>
    intro scope name
    rw [FieldType.leaves_of_flat (by simp), List.flatMap_singleton]

theorem ownedIn_eq_flatMap (scope : Scope) (fields : List Field) :
    ownedIn scope fields =
      (FieldType.leavesIn scope fields).flatMap fun leaf => ownedBy leaf.1.scope leaf.1.name leaf.2 :=
  ownedIn_eq_flatMap_of_each (fun field _ => ownedBy_eq_flatMap field.2) scope

def Lvalue.path : Lvalue → List String
  | var _ => []
  | field p | item p _ => p.path

theorem Owns.path_prefix {p : Place} {x : Lvalue} (owns : Owns p x) : p.path <+: x.path := by
  rcases owns with rfl | ⟨index, rfl⟩ | ⟨name, rfl⟩
  · exact List.prefix_rfl
  · exact List.prefix_rfl
  · exact List.prefix_append _ _

theorem Owns.not_owns_of_apart {p q : Place} (apart : Value.Apart p.path q.path) {x : Lvalue} (owns : Owns p x) :
    ¬ Owns q x := by
  intro owns'
  rcases List.prefix_or_prefix_of_prefix owns.path_prefix owns'.path_prefix with within | within
  · exact apart.1 within
  · exact apart.2 within

theorem nodup_ownedIn {fields : List Field}
    (distinct : (FieldType.struct fields).EveryScope fun fields => (fields.map Prod.fst).Nodup)
    (scope : Scope) : (ownedIn scope fields).Nodup := by
  rw [ownedIn_eq_flatMap, List.nodup_flatMap]
  have flat := FieldType.flat_of_mem_leavesIn scope fields
  constructor
  · exact fun leaf listed => nodup_ownedBy (flat leaf listed) _ _
  · refine List.Pairwise.imp_of_mem ?_ (FieldType.pairwise_leavesIn distinct scope)
    intro a b listed listed' apart x owned owned'
    have owns := owns_of_mem_ownedBy (flat a listed) owned
    have owns' := owns_of_mem_ownedBy (flat b listed') owned'
    exact owns.not_owns_of_apart apart owns'

/-! ## Texts of pointers -/

inductive Pointer : Lvalue → Prop where
  | field {p : Place} (named : p.Named) : Pointer (.field p)
  | item {p : Place} (named : p.Named) (i : Nat) : Pointer (.item p (.literal i))

theorem toList_text_item (p : Place) (i : Nat) :
    (Lvalue.item p (.literal i)).text.toList = p.text.toList ++ '[' :: ((toString i).toList ++ [']']) := by
  simp [Lvalue.text, Subscript.text]

theorem Pointer.text_inj {x y : Lvalue} (xPointer : Pointer x) (yPointer : Pointer y)
    (same : x.text = y.text) : x = y := by
  have spelled := congrArg String.toList same
  have unbracketed : ∀ {p : Place}, p.Named → '[' ∉ p.text.toList :=
    fun named => Place.notMem_text named rfl (by decide)
  have bracketed : ∀ (p : Place) (i : Nat), '[' ∈ (Lvalue.item p (.literal i)).text.toList := by
    simp [toList_text_item]
  cases xPointer with
  | field named =>
    cases yPointer with
    | field named' => rw [Place.text_inj named named' same]
    | @item q named' j =>
      have : '[' ∈ (Lvalue.item q (.literal j)).text.toList := bracketed q j
      rw [← spelled] at this
      exact absurd this (unbracketed named)
  | @item p named i =>
    cases yPointer with
    | field named' =>
      have : '[' ∈ (Lvalue.item p (.literal i)).text.toList := bracketed p i
      rw [spelled] at this
      exact absurd this (unbracketed named')
    | @item q named' j =>
      rw [toList_text_item, toList_text_item] at spelled
      obtain ⟨places, subscripts⟩ := Place.eq_of_divided (unbracketed named) (unbracketed named') spelled
      obtain rfl := Place.text_inj named named' (String.toList_injective places)
      have digits : Nat.toDigits 10 i = Nat.toDigits 10 j := by
        simpa [Nat.toString_eq_ofList_toDigits] using List.append_cancel_right subscripts
      rw [← @Nat.ofDigitChars_ten_toDigits i, digits, Nat.ofDigitChars_ten_toDigits]

theorem pointer_of_mem_ownedIn {fields : List Field}
    (identified : (FieldType.struct fields).EveryScope Identified) {base : String}
    (identifier : isIdentifier base = true) : ∀ x ∈ ownedIn { base } fields, Pointer x := by
  intro x listed
  rw [ownedIn_eq_flatMap, List.mem_flatMap] at listed
  obtain ⟨leaf, among, listed⟩ := listed
  have named := FieldType.named_of_mem_leavesIn identified identifier leaf among
  have flat := FieldType.flat_of_mem_leavesIn _ _ leaf among
  unfold ownedBy at listed
  split at listed
  · exact List.mem_singleton.mp listed ▸ .field named
  · exact List.mem_singleton.mp listed ▸ .field named
  · obtain ⟨i, -, rfl⟩ := List.mem_map.mp listed
    exact .item named i
  · exact absurd (by assumption) (flat _)
  · cases listed

/-! ## Release functions -/

/-- What each line of a release function says.  Without pointers it says that there is nothing to do. -/
theorem linesOf_releaseStmts (fields : List Field) :
    ∃ body, Stmt.linesOf 1 (releaseStmts fields) = body.map (indented 1) ∧
      (ownedIn { base := releaseBase } fields = [] → body = ["(void)x;"]) ∧
      (ownedIn { base := releaseBase } fields ≠ [] → body =
        (ownedIn { base := releaseBase } fields).map fun x => "alon_free(" ++ x.text ++ ");") := by
  have printed : ∀ owned : List Lvalue, Stmt.linesOf 1 (owned.map .free) =
      (owned.map fun x => "alon_free(" ++ x.text ++ ");").map (indented 1) := by
    intro owned
    induction owned with
    | nil => rfl
    | cons x owned inductionHypothesis =>
      rw [List.map_cons, Stmt.linesOf, inductionHypothesis]
      rfl
  rw [releaseStmts]
  split
  · rename_i nothing
    exact ⟨["(void)x;"], rfl, fun _ => rfl, fun some => absurd nothing some⟩
  · rename_i some
    exact ⟨_, printed _, fun nothing => absurd nothing some, fun _ => rfl⟩

end PackedRecord.C
