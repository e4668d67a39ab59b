import PackedRecord.Proofs.C.Execution
import PackedRecord.Proofs.Value.Visible

/-!
# Records in memory

What it means that the struct of a generated function holds something, field by field:

* `Machine.Stores`, `Machine.StoresFields`: a reader has put the wire bytes of the fields there.
* `Machine.Carries`, `Machine.CarriesFields`: the fields are the members of a value.

`Machine.Keeps` is what a statement leaves alone: every field but its own, and all memory that was
handed out before.  `Stores.mono` carries a field over what keeps it.
-/

namespace PackedRecord.C

/-- The lvalues that belong to a field of the record: the field, its elements, and its members. -/
def Owns (place : Place) (x : Lvalue) : Prop :=
  x = .field place ∨ (∃ index, x = .item place index) ∨ ∃ name, x = .field (place.member name)

/-- Fields of one struct under different names have no lvalue in common. -/
theorem Owns.disjoint {scope : Scope} {name other : String} (different : name ≠ other) {x : Lvalue}
    (owns : Owns ⟨scope, name⟩ x) : ¬ Owns ⟨scope, other⟩ x := by
  have deeper : ∀ member : String, scope.enter member ≠ scope := by
    intro member same
    have lengths := congrArg (List.length ∘ Scope.members) same
    simp [Scope.enter] at lengths
  rintro (rfl | ⟨index, rfl⟩ | ⟨member, rfl⟩)
  · rcases owns with same | ⟨index, same⟩ | ⟨member, same⟩
    · simp only [Lvalue.field.injEq, Place.mk.injEq, true_and] at same
      exact different same.symm
    · cases same
    · simp only [Place.member, Lvalue.field.injEq, Place.mk.injEq] at same
      exact deeper name same.1.symm
  · rcases owns with same | ⟨index', same⟩ | ⟨member, same⟩
    · cases same
    · simp only [Lvalue.item.injEq, Place.mk.injEq, true_and] at same
      exact different same.1.symm
    · cases same
  · rcases owns with same | ⟨index, same⟩ | ⟨member', same⟩
    · simp only [Place.member, Lvalue.field.injEq, Place.mk.injEq] at same
      exact deeper other same.1
    · cases same
    · simp only [Place.member, Lvalue.field.injEq, Place.mk.injEq, Scope.enter, Scope.mk.injEq,
        true_and, List.append_cancel_left_eq, List.cons.injEq, and_true] at same
      exact different same.1.symm

namespace Machine

/-! ## What a reader stores -/

/-- A field points to a block of memory. -/
def PointsTo (m : Machine) (x : Lvalue) (block : List UInt8) : Prop :=
  ∃ i, m.pointers x = some i ∧ m.blocks[i]? = some block

/-- A text as it was on the wire: the pointer leads to the payload and a NUL. -/
def StoresText (m : Machine) (x : Lvalue) (bytes : List UInt8) : Prop :=
  ∃ header payload, bytes = header ++ payload ∧ header.length = lengthWidth ∧
    m.PointsTo x (payload ++ [0])

/-- Texts as they were on the wire, as the elements of a field from an index on. -/
inductive StoresTexts (m : Machine) (place : Place) : (i count : Nat) → List UInt8 → Prop where
  | nil {i : Nat} : StoresTexts m place i 0 []
  | cons {i count : Nat} {first rest : List UInt8}
    (head : m.StoresText (.item place (.literal i)) first)
    (tail : StoresTexts m place (i + 1) count rest) : StoresTexts m place i (count + 1) (first ++ rest)

/-- A field holds exactly what these bytes of the wire say: numbers and runs of bytes as they are, a
text as its payload with a NUL, an absent text as a null pointer, and an optional number with a
presence member of zero or one. -/
inductive Stores (m : Machine) (place : Place) : FieldType → List UInt8 → Prop where
  | inPlace {ty : FieldType} {width : Nat} (fixed : ty.fixedWidth? = some width) :
    Stores m place ty (m.objects (.field place))
  | text {bytes : List UInt8} (stored : m.StoresText (.field place) bytes) : Stores m place .text bytes
  | texts {count : UInt64} {bytes : List UInt8} (stored : m.StoresTexts place 0 count.toNat bytes) :
    Stores m place (.array .text count) bytes
  | absentText (null : m.pointers (.field place) = none) : Stores m place (.option .text) [0]
  | presentText {presence : UInt8} {bytes : List UInt8} (announced : presence ≠ 0)
    (stored : m.StoresText (.field place) bytes) : Stores m place (.option .text) (presence :: bytes)
  | absentScalar {kind : ScalarKind} (mark : m.objects (.field (place.member presenceMember)) = [0]) :
    Stores m place (.option (.scalar kind)) [0]
  | presentScalar {kind : ScalarKind} {presence : UInt8} (announced : presence ≠ 0)
    (mark : m.objects (.field (place.member presenceMember)) = [1]) :
    Stores m place (.option (.scalar kind)) (presence :: m.objects (.field (place.member valueMember)))

/-- The fields of a struct hold what these bytes of the wire say, one after the other, and the members
are what the bytes of each decode to. -/
inductive StoresFields (m : Machine) (scope : Scope) :
    List Field → List UInt8 → List (String × Value) → Prop where
  | nil : StoresFields m scope [] [] []
  | cons {name : String} {ty : FieldType} {fields : List Field} {first rest : List UInt8} {v : Value}
    {members : List (String × Value)} (decoded : Value.decode ty first = .ok v)
    (stored : m.Stores ⟨scope, name⟩ ty first) (tail : StoresFields m scope fields rest members) :
    StoresFields m scope ((name, ty) :: fields) (first ++ rest) ((name, v) :: members)

/-! ## What a writer finds -/

/-- A field points to a text with a NUL behind it, in memory that eight bytes can address. -/
def CarriesText (m : Machine) (x : Lvalue) (s : String) : Prop :=
  ∃ rest, m.PointsTo x (Utf8.encode s ++ 0 :: rest) ∧ (Utf8.encode s ++ 0 :: rest).length < 2 ^ 64

/-- A field is a value of its type. -/
inductive Carries (m : Machine) (place : Place) : FieldType → Value → Prop where
  | inPlace {ty : FieldType} {width : Nat} {v : Value} (fixed : ty.fixedWidth? = some width)
    (encoded : v.encode ty = .ok (m.objects (.field place))) : Carries m place ty v
  | text {s : String} (carried : m.CarriesText (.field place) s) : Carries m place .text (.text s)
  | texts {count : UInt64} {texts : List String} (full : texts.length = count.toNat)
    (carried : ∀ i s, texts[i]? = some s → m.CarriesText (.item place (.literal i)) s) :
    Carries m place (.array .text count) (.array (texts.map .text))
  | absentText (null : m.pointers (.field place) = none) : Carries m place (.option .text) .absent
  | presentText {s : String} (carried : m.CarriesText (.field place) s) :
    Carries m place (.option .text) (.present (.text s))
  | absentScalar {kind : ScalarKind} (mark : m.objects (.field (place.member presenceMember)) = [0]) :
    Carries m place (.option (.scalar kind)) .absent
  | presentScalar {s : Scalar} {presence : UInt8} (announced : presence ≠ 0)
    (mark : m.objects (.field (place.member presenceMember)) = [presence])
    (value : m.objects (.field (place.member valueMember)) = s.bytes) :
    Carries m place (.option (.scalar s.kind)) (.present (.scalar s))

/-- The fields of a struct are the members of a value. -/
def CarriesFields (m : Machine) (scope : Scope) (fields : List Field) (v : Value) : Prop :=
  ∀ field ∈ fields, ∃ w, v.get? field.1 = some w ∧ m.Carries ⟨scope, field.1⟩ field.2 w

/-! ## What is left alone -/

/-- Only these lvalues change, and memory is only handed out. -/
structure Keeps (owned : Lvalue → Prop) (m m' : Machine) : Prop where
  objects : ∀ x, ¬ owned x → m'.objects x = m.objects x
  pointers : ∀ x, ¬ owned x → m'.pointers x = m.pointers x
  blocks : m.blocks <+: m'.blocks

variable {m m' m'' : Machine} {owned owned' : Lvalue → Prop}

theorem Keeps.refl (owned : Lvalue → Prop) (m : Machine) : m.Keeps owned m :=
  ⟨fun _ _ => rfl, fun _ _ => rfl, List.prefix_rfl⟩

theorem Keeps.trans (first : Keeps owned m m') (second : Keeps owned m' m'') : Keeps owned m m'' :=
  ⟨fun x other => (second.objects x other).trans (first.objects x other),
    fun x other => (second.pointers x other).trans (first.pointers x other),
    first.blocks.trans second.blocks⟩

theorem Keeps.mono (keeps : Keeps owned m m') (fewer : ∀ x, owned x → owned' x) : Keeps owned' m m' :=
  ⟨fun x other => keeps.objects x (other ∘ fewer x), fun x other => keeps.pointers x (other ∘ fewer x),
    keeps.blocks⟩

theorem PointsTo.mono {x : Lvalue} {block : List UInt8} (points : m.PointsTo x block)
    (keeps : Keeps owned m m') (other : ¬ owned x) : m'.PointsTo x block := by
  obtain ⟨i, pointer, found⟩ := points
  refine ⟨i, (keeps.pointers x other).trans pointer, ?_⟩
  obtain ⟨more, split⟩ := keeps.blocks
  rw [← split, List.getElem?_append_left (List.getElem?_eq_some_iff.mp found).1, found]

theorem StoresText.mono {x : Lvalue} {bytes : List UInt8} (stored : m.StoresText x bytes)
    (keeps : Keeps owned m m') (other : ¬ owned x) : m'.StoresText x bytes := by
  obtain ⟨header, payload, split, width, points⟩ := stored
  exact ⟨header, payload, split, width, points.mono keeps other⟩

theorem StoresTexts.mono {place : Place} {i count : Nat} {bytes : List UInt8}
    (stored : m.StoresTexts place i count bytes) (keeps : Keeps owned m m')
    (others : ∀ index, ¬ owned (.item place index)) : m'.StoresTexts place i count bytes := by
  induction stored with
  | nil => exact .nil
  | cons head tail inductionHypothesis => exact .cons (head.mono keeps (others _)) inductionHypothesis

/-- A field stays as it is where nothing of it changes. -/
theorem Stores.mono {place : Place} {ty : FieldType} {bytes : List UInt8}
    (stored : m.Stores place ty bytes) (keeps : Keeps owned m m')
    (others : ∀ x, Owns place x → ¬ owned x) : m'.Stores place ty bytes := by
  have field := others (.field place) (.inl rfl)
  have members := fun name => others (.field (place.member name)) (.inr (.inr ⟨name, rfl⟩))
  cases stored with
  | inPlace fixed =>
    rw [← keeps.objects _ field]
    exact .inPlace fixed
  | text stored => exact .text (stored.mono keeps field)
  | texts stored => exact .texts (stored.mono keeps fun index => others _ (.inr (.inl ⟨index, rfl⟩)))
  | absentText null => exact .absentText ((keeps.pointers _ field).trans null)
  | presentText announced stored => exact .presentText announced (stored.mono keeps field)
  | absentScalar mark => exact .absentScalar ((keeps.objects _ (members _)).trans mark)
  | presentScalar announced mark =>
    rw [← keeps.objects _ (members valueMember)]
    exact .presentScalar announced ((keeps.objects _ (members _)).trans mark)

end Machine

end PackedRecord.C
