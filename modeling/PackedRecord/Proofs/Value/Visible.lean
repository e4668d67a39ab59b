import Mathlib.Data.List.TakeWhile
import PackedRecord.Plan.Write
import PackedRecord.Proofs.Text.Utf8
import PackedRecord.Proofs.Value.Width

/-!
# Values as C sees them

C texts end at their first NUL.  `Value.visible` cuts every text in a value there.

* `visible_eq_self_iff`: nothing is cut if no text has a NUL in it.
* `lookup_visibleMembers`: members are found as before, cut as well.
* `wire?_visible_of_fixed`: a value of fixed width has no text that could be cut.
-/

namespace PackedRecord

/-- A text whose length can be announced. -/
def ShortText (s : String) : Prop :=
  (Utf8.encode s).length ≤ maxTextLength

namespace Value

/-! ## The parts of a value -/

mutual

/-- Everything in the value that holds no other values is as said. -/
def EveryLeaf (good : Value → Prop) : Value → Prop
  | array items => EveryLeafIn good items
  | present inner => inner.EveryLeaf good
  | struct members => EveryLeafOf good members
  | enum _ payload => payload.EveryLeaf good
  | leaf => good leaf

def EveryLeafIn (good : Value → Prop) : List Value → Prop
  | [] => True
  | item :: rest => item.EveryLeaf good ∧ EveryLeafIn good rest

def EveryLeafOf (good : Value → Prop) : List (String × Value) → Prop
  | [] => True
  | (_, v) :: rest => v.EveryLeaf good ∧ EveryLeafOf good rest

end

theorem everyLeafIn_iff {good : Value → Prop} {items : List Value} :
    EveryLeafIn good items ↔ ∀ item ∈ items, item.EveryLeaf good := by
  induction items with
  | nil => simp [EveryLeafIn]
  | cons item items inductionHypothesis => simp [EveryLeafIn, inductionHypothesis]

theorem everyLeafOf_iff {good : Value → Prop} {members : List (String × Value)} :
    EveryLeafOf good members ↔ ∀ member ∈ members, member.2.EveryLeaf good := by
  induction members with
  | nil => simp [EveryLeafOf]
  | cons member members inductionHypothesis => simp [EveryLeafOf, inductionHypothesis]

/-- Every text in the value is as said. -/
def EveryText (good : String → Prop) (v : Value) : Prop :=
  v.EveryLeaf fun leaf => ∀ s, leaf = text s → good s

/-! ## Cutting texts -/

/-- A text up to its first NUL. -/
def cutText (s : String) : String :=
  String.ofList (s.toList.takeWhile (· ≠ '\x00'))

mutual

/-- The value with every text cut before its first NUL. -/
def visible : Value → Value
  | scalar s => scalar s
  | text s => text (cutText s)
  | bytes data => bytes data
  | array items => array (visibleItems items)
  | absent => absent
  | present inner => present inner.visible
  | struct members => struct (visibleMembers members)
  | enum variant payload => enum variant payload.visible

def visibleItems : List Value → List Value
  | [] => []
  | item :: rest => item.visible :: visibleItems rest

def visibleMembers : List (String × Value) → List (String × Value)
  | [] => []
  | (name, v) :: rest => (name, v.visible) :: visibleMembers rest

end

theorem visibleItems_eq_map (items : List Value) : visibleItems items = items.map visible := by
  induction items with
  | nil => rfl
  | cons item items inductionHypothesis => rw [visibleItems, inductionHypothesis, List.map_cons]

theorem lookup_visibleMembers (members : List (String × Value)) (name : String) :
    (visibleMembers members).lookup name = (members.lookup name).map visible := by
  induction members with
  | nil => rfl
  | cons member members inductionHypothesis =>
    obtain ⟨other, v⟩ := member
    rw [visibleMembers, List.lookup_cons, List.lookup_cons, inductionHypothesis]
    cases name == other <;> rfl

theorem cutText_eq_self_iff {s : String} : cutText s = s ↔ '\x00' ∉ s.toList := by
  rw [cutText, ← String.toList_inj, String.toList_ofList, List.takeWhile_eq_self_iff]
  constructor
  · intro all nul
    simpa using all _ nul
  · intro free c listed
    have notNul : c ≠ '\x00' := fun same => free (same ▸ listed)
    simpa using notNul

mutual

theorem visible_eq_self_iff : ∀ v : Value, v.visible = v ↔ v.EveryText fun s => '\x00' ∉ s.toList
  | scalar _ | bytes _ | absent => by simp [visible, EveryText, EveryLeaf]
  | text s => by simp [visible, EveryText, EveryLeaf, cutText_eq_self_iff]
  | array items => by simpa [visible, EveryText, EveryLeaf] using visibleItems_eq_self_iff items
  | present inner => by simpa [visible, EveryText, EveryLeaf] using visible_eq_self_iff inner
  | struct members => by simpa [visible, EveryText, EveryLeaf] using visibleMembers_eq_self_iff members
  | enum _ payload => by simpa [visible, EveryText, EveryLeaf] using visible_eq_self_iff payload

theorem visibleItems_eq_self_iff : ∀ items, visibleItems items = items ↔
    EveryLeafIn (fun leaf => ∀ s, leaf = text s → '\x00' ∉ s.toList) items
  | [] => by simp [visibleItems, EveryLeafIn]
  | item :: rest => by
    have head := visible_eq_self_iff item
    have tail := visibleItems_eq_self_iff rest
    rw [EveryText] at head
    simp only [visibleItems, EveryLeafIn, List.cons.injEq, head, tail]

theorem visibleMembers_eq_self_iff : ∀ members, visibleMembers members = members ↔
    EveryLeafOf (fun leaf => ∀ s, leaf = text s → '\x00' ∉ s.toList) members
  | [] => by simp [visibleMembers, EveryLeafOf]
  | (name, v) :: rest => by
    have head := visible_eq_self_iff v
    have tail := visibleMembers_eq_self_iff rest
    rw [EveryText] at head
    simp only [visibleMembers, EveryLeafOf, List.cons.injEq, Prod.mk.injEq, true_and, head, tail]

end

/-- The bytes of a cut text are those that C sees. -/
theorem encode_cutText (s : String) : Utf8.encode (cutText s) = visibleBytes s :=
  (Utf8.takeWhile_encode s).symm

end Value

namespace FieldType

theorem joined?_visible {element : FieldType} (each : ∀ v : Value, element.wire? v.visible = element.wire? v)
    (items : List Value) :
    joined? element.wire? (items.map Value.visible) = joined? element.wire? items := by
  induction items with
  | nil => rfl
  | cons item items inductionHypothesis =>
    rw [List.map_cons, joined?, joined?, each, inductionHypothesis]

theorem wireFields?_visible {fields : List Field} {width : Nat} (fixed : fieldsWidth? fields = some width)
    (each : ∀ field ∈ fields, ∀ width, field.2.fixedWidth? = some width → ∀ v : Value,
      field.2.wire? v.visible = field.2.wire? v) (find : String → Option Value) :
    wireFields? fields (fun name => (find name).map Value.visible) = wireFields? fields find := by
  induction fields generalizing width with
  | nil => rfl
  | cons field fields inductionHypothesis =>
    obtain ⟨name, ty⟩ := field
    obtain ⟨first, rest, fixedFirst, fixedRest, -⟩ := fieldsWidth?_cons_eq_some fixed
    have others := inductionHypothesis fixedRest fun field member => each field (by simp [member])
    simp only [wireFields?, joined?] at others ⊢
    rw [others]
    cases find name with
    | none => rfl
    | some v => simp only [Option.map_some, Option.bind_some, each (name, ty) (by simp) first fixedFirst v]

/-- A value of fixed width has the same bytes when its texts are cut: it has none. -/
theorem wire?_visible_of_fixed (ty : FieldType) : ∀ width, ty.fixedWidth? = some width →
    ∀ v : Value, ty.wire? v.visible = ty.wire? v := by
  induction ty with
  | scalar kind =>
    intro width fixed v
    cases v <;> rfl
  | text =>
    intro width impossible
    cases impossible
  | bytes length =>
    intro width fixed v
    cases v <;> rfl
  | array element count inductionHypothesis =>
    intro width fixed v
    obtain ⟨each, fixedElement, -⟩ := fixedWidth?_array_eq_some fixed
    cases v with
    | array items =>
      simp only [Value.visible, wire?_array, Value.visibleItems_eq_map, List.length_map,
        joined?_visible (inductionHypothesis each fixedElement)]
    | _ => rfl
  | option inner inductionHypothesis =>
    intro width impossible
    cases impossible
  | struct fields inductionHypothesis =>
    intro width fixed v
    cases v with
    | struct members =>
      simp only [Value.visible, wire?_struct, Value.lookup_visibleMembers]
      exact wireFields?_visible fixed inductionHypothesis _
    | _ => rfl
  | enum variants inductionHypothesis =>
    intro width impossible
    cases impossible

/-! ## A value that was cut is no longer -/

theorem exists_joined?_visible {element : FieldType}
    (each : ∀ v bytes, element.wire? v = some bytes →
      ∃ cut, element.wire? v.visible = some cut ∧ cut.length ≤ bytes.length)
    {items : List Value} {bytes : List UInt8} (written : joined? element.wire? items = some bytes) :
    ∃ cut, joined? element.wire? (items.map Value.visible) = some cut ∧ cut.length ≤ bytes.length := by
  induction items generalizing bytes with
  | nil => exact ⟨[], rfl, Nat.zero_le _⟩
  | cons item items inductionHypothesis =>
    obtain ⟨front, back, head, tail, rfl⟩ := joined?_cons_eq_some_iff.mp written
    obtain ⟨first, cutHead, shorter⟩ := each item front head
    obtain ⟨rest, cutTail, shorterRest⟩ := inductionHypothesis tail
    refine ⟨first ++ rest, joined?_cons_eq_some_iff.mpr ⟨first, rest, cutHead, cutTail, rfl⟩, ?_⟩
    rw [List.length_append, List.length_append]
    omega

theorem exists_wireFields?_visible {fields : List Field} {find : String → Option Value}
    (each : ∀ field ∈ fields, ∀ v bytes, field.2.wire? v = some bytes →
      ∃ cut, field.2.wire? v.visible = some cut ∧ cut.length ≤ bytes.length)
    {bytes : List UInt8} (written : wireFields? fields find = some bytes) :
    ∃ cut, wireFields? fields (fun name => (find name).map Value.visible) = some cut ∧
      cut.length ≤ bytes.length := by
  induction fields generalizing bytes with
  | nil => exact ⟨[], rfl, Nat.zero_le _⟩
  | cons field fields inductionHypothesis =>
    obtain ⟨name, ty⟩ := field
    obtain ⟨v, front, back, found, head, tail, rfl⟩ := wireFields?_cons_eq_some_iff.mp written
    obtain ⟨first, cutHead, shorter⟩ := each (name, ty) List.mem_cons_self v front head
    obtain ⟨rest, cutTail, shorterRest⟩ :=
      inductionHypothesis (fun field listed => each field (List.mem_cons_of_mem _ listed)) tail
    refine ⟨first ++ rest, wireFields?_cons_eq_some_iff.mpr
      ⟨v.visible, first, rest, by simp [found], cutHead, cutTail, rfl⟩, ?_⟩
    rw [List.length_append, List.length_append]
    omega

/-- A value with its texts cut has bytes if the value has, and no more of them. -/
theorem exists_wire?_visible (ty : FieldType) : ∀ v bytes, ty.wire? v = some bytes →
    ∃ cut, ty.wire? v.visible = some cut ∧ cut.length ≤ bytes.length := by
  induction ty with
  | scalar kind =>
    intro v bytes written
    rw [← wire?_visible_of_fixed (.scalar kind) _ rfl] at written
    exact ⟨bytes, written, Nat.le_refl _⟩
  | text =>
    intro v bytes written
    cases v with
    | text s =>
      simp only [wire?_text, textBytes?] at written
      split at written
      · rename_i short
        cases written
        have fewer : (Utf8.encode (Value.cutText s)).length ≤ (Utf8.encode s).length := by
          rw [Value.encode_cutText, visibleBytes]
          exact (List.takeWhile_sublist _).length_le
        have small : (Utf8.encode (Value.cutText s)).length ≤ maxTextLength := Nat.le_trans fewer short
        refine ⟨littleEndian 4 (Utf8.encode (Value.cutText s)).length ++ Utf8.encode (Value.cutText s),
          by simp only [Value.visible, wire?_text, textBytes?, if_pos small], ?_⟩
        simpa using fewer
      · cases written
    | _ => cases written
  | bytes length =>
    intro v bytes written
    rw [← wire?_visible_of_fixed (.bytes length) _ rfl] at written
    exact ⟨bytes, written, Nat.le_refl _⟩
  | array element count each =>
    intro v bytes written
    cases v with
    | array items =>
      simp only [wire?_array, Value.visible, Value.visibleItems_eq_map, List.length_map] at written ⊢
      by_cases full : items.length = count.toNat
      · rw [if_pos full] at written ⊢
        exact exists_joined?_visible each written
      · rw [if_neg full] at written
        cases written
    | _ => cases written
  | option inner each =>
    intro v bytes written
    cases v with
    | absent => exact ⟨bytes, written, Nat.le_refl _⟩
    | present v =>
      rw [wire?_option] at written
      obtain ⟨rest, piece, rfl⟩ := Option.map_eq_some_iff.mp written
      obtain ⟨cut, cutPiece, shorter⟩ := each v rest piece
      exact ⟨1 :: cut, by simp [Value.visible, wire?_option, cutPiece], by simpa using shorter⟩
    | _ => cases written
  | struct fields each =>
    intro v bytes written
    cases v with
    | struct members =>
      rw [wire?_struct] at written
      obtain ⟨cut, cutFields, shorter⟩ := exists_wireFields?_visible each written
      refine ⟨cut, ?_, shorter⟩
      simpa only [Value.visible, wire?_struct, Value.lookup_visibleMembers] using cutFields
    | _ => cases written
  | enum variants each =>
    intro v bytes written
    obtain ⟨name, payload, before, ty, after, rest, rfl, rfl, fresh, small, piece, rfl⟩ :=
      wire?_enum_eq_some_iff.mp written
    obtain ⟨cut, cutPiece, shorter⟩ := each (name, ty) (by simp) payload rest piece
    refine ⟨_, wire?_enum_eq_some_iff.mpr
      ⟨name, payload.visible, before, ty, after, cut, rfl, rfl, fresh, small, cutPiece, rfl⟩, ?_⟩
    simpa using shorter

end FieldType

end PackedRecord
