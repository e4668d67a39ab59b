import PackedRecord.Json.Parser
import PackedRecord.Proofs.Except
import PackedRecord.Proofs.Number.Rounding

/-!
# The numbers that JSON text spells

`Json.Gives good p` says that whatever a parser returns is as said, on every text.  It goes through
sequencing, arrays and objects, so a property that values inherit from their parts holds of all values
that were read.

* `gives_value`: such a property, of any value that was read.
* `inherited_everyNumber`: that no number is NaN is one.
-/

namespace PackedRecord

/-- A number that is not NaN, whichever way it was spelled. -/
def Numeral.NotNan : Numeral → Prop
  | unsigned _ | negative _ => True
  | float word => Number.Format.double.NotNan word.toNat

namespace Json

mutual

/-- Every number in a value is as said. -/
def EveryNumber (good : Numeral → Prop) : Json → Prop
  | null | bool _ | string _ => True
  | number n => good n
  | array items => EveryNumberIn good items
  | object members => EveryNumberOf good members

def EveryNumberIn (good : Numeral → Prop) : List Json → Prop
  | [] => True
  | item :: rest => item.EveryNumber good ∧ EveryNumberIn good rest

def EveryNumberOf (good : Numeral → Prop) : List (String × Json) → Prop
  | [] => True
  | (_, value) :: rest => value.EveryNumber good ∧ EveryNumberOf good rest

end

variable {good : Numeral → Prop}

theorem everyNumberIn_iff {items : List Json} :
    EveryNumberIn good items ↔ ∀ item ∈ items, item.EveryNumber good := by
  induction items with
  | nil => simp [EveryNumberIn]
  | cons item items inductionHypothesis => simp [EveryNumberIn, inductionHypothesis]

theorem everyNumberOf_insert {members : List (String × Json)} {key : String} {value : Json}
    (before : EveryNumberOf good members) (added : value.EveryNumber good) :
    EveryNumberOf good (insert members key value) := by
  induction members with
  | nil => exact ⟨added, trivial⟩
  | cons member members inductionHypothesis =>
    obtain ⟨k, v⟩ := member
    rw [insert]
    split
    · exact ⟨added, before⟩
    · split
      · exact ⟨added, before.2⟩
      · exact ⟨before.1, inductionHypothesis before.2⟩

theorem everyNumber_lookup {members : List (String × Json)} (every : EveryNumberOf good members)
    {key : String} {value : Json} (found : members.lookup key = some value) : value.EveryNumber good := by
  induction members with
  | nil => cases found
  | cons member members inductionHypothesis =>
    obtain ⟨k, v⟩ := member
    rw [List.lookup_cons] at found
    split at found
    · cases found
      exact every.1
    · exact inductionHypothesis every.2 found

/-! ## What parsers return -/

variable {ε α β : Type}

/-- Whatever the parser returns is as said. -/
def Gives (good : α → Prop) (p : Parser ε α) : Prop :=
  ∀ text a rest, p text = .ok (a, rest) → good a

theorem gives_any (p : Parser ε α) : Gives (fun _ => True) p :=
  fun _ _ _ _ => trivial

theorem gives_pure {good : α → Prop} {a : α} (holds : good a) : Gives good (pure a : Parser ε α) := by
  intro text a' rest returned
  cases returned
  exact holds

theorem gives_throw (good : α → Prop) (fault : Fault ε) : Gives good (throw fault : Parser ε α) := by
  intro text a rest impossible
  cases impossible

theorem Gives.bind {middle : α → Prop} {good : β → Prop} {p : Parser ε α} {next : α → Parser ε β}
    (first : Gives middle p) (second : ∀ a, middle a → Gives good (next a)) : Gives good (p >>= next) := by
  intro text b rest ran
  obtain ⟨⟨a, between⟩, one, two⟩ := bind_eq_ok (show (p text >>= fun r => next r.1 r.2) = _ from ran)
  exact second a (first text a between one) between b rest two

theorem Gives.after {good : β → Prop} {p : Parser ε α} {next : α → Parser ε β}
    (second : ∀ a, Gives good (next a)) : Gives good (p >>= next) :=
  (gives_any p).bind fun a _ => second a

theorem Gives.readWhole {good : α → Prop} {p : Parser ε α} (holds : Gives good p) {text : String} {a : α}
    (read : readWhole p text = .ok a) : good a := by
  obtain ⟨⟨_, rest⟩, ran, rfl⟩ := map_eq_ok read
  exact holds.bind (fun a given => Gives.after fun _ => gives_pure given) _ _ rest ran

theorem gives_elementsFrom {good : α → Prop} {item : Parser ε α} (each : Gives good item) (fuel : Nat) :
    ∀ first acc, (∀ a ∈ acc, good a) →
      Gives (fun as => ∀ a ∈ as, good a) (elementsFrom item fuel first acc) := by
  induction fuel with
  | zero => exact fun first acc _ => gives_throw _ _
  | succ fuel inductionHypothesis =>
    intro first acc before
    rw [elementsFrom]
    refine Gives.after fun more => ?_
    cases more with
    | true =>
      exact each.bind fun a holds => inductionHypothesis false (a :: acc) (by simpa using ⟨holds, before⟩)
    | false => exact Gives.after fun _ => gives_pure before

theorem gives_elements {good : α → Prop} {item : Parser ε α} (each : Gives good item) :
    Gives (fun as => ∀ a ∈ as, good a) (elements item) := by
  refine Gives.after fun text => ?_
  refine (gives_elementsFrom each _ true [] (by simp)).bind fun reversed every => ?_
  exact gives_pure (by simpa using every)

/-- What one member keeps, all members keep. -/
theorem gives_members {κ σ : Type} {invariant : σ → Prop} {key : Parser ε κ} {member : σ → κ → Parser ε σ}
    (keeps : ∀ state k, invariant state → Gives invariant (member state k)) {start : σ}
    (holds : invariant start) : Gives invariant (members key member start) := by
  have rounds : ∀ fuel first state, invariant state →
      Gives invariant (membersFrom key member fuel first state) := by
    intro fuel
    induction fuel with
    | zero => exact fun first state _ => gives_throw _ _
    | succ fuel inductionHypothesis =>
      intro first state holds
      rw [membersFrom]
      refine Gives.after fun more => ?_
      cases more with
      | true =>
        refine Gives.after fun k => (keeps state k holds).bind fun state holds => ?_
        exact inductionHypothesis false state holds
      | false => exact gives_pure holds
  exact Gives.after fun text => rounds _ true start holds

/-! ## Values -/

theorem Spelled.notNan {spelled : Spelled} {n : Numeral} (read : spelled.value? = some n) : n.NotNan := by
  have decimal : ∀ {negative digits exponent},
      (Number.doubleOfDecimal? negative digits exponent).map Numeral.float = some n → n.NotNan := by
    intro negative digits exponent read
    obtain ⟨word, rounded, rfl⟩ := Option.map_eq_some_iff.mp read
    exact Number.notNan_doubleOfDecimal rounded
  rw [Spelled.value?] at read
  split at read
  · split at read
    · split at read
      · cases read
        trivial
      · exact decimal read
    · split at read
      · cases read
        trivial
      · exact decimal read
  · exact decimal read

theorem gives_numeral (negative : Bool) : Gives Numeral.NotNan (numeral negative : Parser ε Numeral) := by
  refine Gives.after fun spelled => ?_
  split
  · rename_i n read
    exact gives_pure (Spelled.notNan read)
  · exact gives_throw _ _

/-- A property that a value inherits from its parts.  `among` is what it asks of the members of an object,
which are put in one after the other. -/
structure Inherited (good : Json → Prop) (among : List (String × Json) → Prop) : Prop where
  null : good null
  bool : ∀ b, good (bool b)
  string : ∀ s, good (string s)
  number : ∀ n : Numeral, n.NotNan → good (number n)
  array : ∀ items, (∀ item ∈ items, good item) → good (array items)
  empty : among []
  insert : ∀ members key value, among members → good value → among (insert members key value)
  object : ∀ members, among members → good (object members)

variable {good : Json → Prop} {among : List (String × Json) → Prop}

theorem gives_value_of_nested (inherited : Inherited good among) (depth : Nat)
    (nested : ∀ inner, depth = inner + 1 → Gives good (value inner : Parser ε Json)) :
    Gives good (value depth : Parser ε Json) := by
  rw [value.eq_def]
  refine Gives.after fun token => ?_
  split
  · exact gives_throw _ _
  · exact Gives.after fun _ => Gives.after fun _ => gives_pure inherited.null
  · exact Gives.after fun _ => Gives.after fun _ => gives_pure (inherited.bool true)
  · exact Gives.after fun _ => Gives.after fun _ => gives_pure (inherited.bool false)
  · exact Gives.after fun _ => Gives.after fun s => gives_pure (inherited.string s)
  · cases depth with
    | zero => exact gives_throw _ _
    | succ inner =>
      refine Gives.after fun _ => (gives_elements (nested inner rfl)).bind fun items every => ?_
      exact gives_pure (inherited.array items every)
  · cases depth with
    | zero => exact gives_throw _ _
    | succ inner =>
      refine Gives.after fun _ => (gives_members ?_ inherited.empty).bind ?_
      · intro found key before
        refine Gives.after fun _ => (nested inner rfl).bind fun added holds => ?_
        exact gives_pure (inherited.insert found key added before holds)
      · exact fun found every => Gives.after fun _ => gives_pure (inherited.object found every)
  · exact Gives.after fun _ => (gives_numeral true).bind fun n number => gives_pure (inherited.number n number)
  · split
    · exact (gives_numeral false).bind fun n number => gives_pure (inherited.number n number)
    · exact gives_throw _ _

/-- What values inherit from their parts holds of every value that was read. -/
theorem gives_value (inherited : Inherited good among) (depth : Nat) :
    Gives good (value depth : Parser ε Json) := by
  induction depth with
  | zero =>
    apply gives_value_of_nested inherited
    intro inner impossible
    cases impossible
  | succ depth inductionHypothesis =>
    apply gives_value_of_nested inherited
    intro inner same
    cases same
    exact inductionHypothesis

/-- No number in a value that was read is NaN. -/
theorem inherited_everyNumber : Inherited (EveryNumber Numeral.NotNan) (EveryNumberOf Numeral.NotNan) where
  null := trivial
  bool _ := trivial
  string _ := trivial
  number _ number := number
  array _ every := everyNumberIn_iff.mpr every
  empty := trivial
  insert _ _ _ before added := everyNumberOf_insert before added
  object _ every := every

end Json

end PackedRecord
