import PackedRecord.Proofs.Compile.Language
import PackedRecord.Proofs.Value.Width

/-!
# Fixed width is exact width

`fixedWidth?` checks every product and every sum on its way, so it may give up inside a type that is
small as a whole: no elements of an element that is too wide.  Where it does not give up, it is the width
as an unbounded number, and both directions of the codec keep to it.

* `fixedWidth?_eq_some_iff`: there is a width if no part of the type varies or is too wide by itself.
* `read_of_enough`, `read_of_short`: what reading does with enough bytes and with too few.
* `readWith_eq_read`: with memory for all arrays it does not matter how much memory there is.
* `fixedWidth?_exact`: all of it.
-/

namespace PackedRecord.FieldType

/-- The types whose values take different numbers of bytes by themselves. -/
def Varies : FieldType → Prop
  | text | option _ | enum _ => True
  | _ => False

/-- Neither of variable width nor wider than eight bytes can count. -/
def Sized (ty : FieldType) : Prop :=
  ¬ty.Varies ∧ ty.exactWidth < 2 ^ 64

/-! ## When there is a width -/

theorem fieldsWidth?_eq_some_iff {fields : List Field}
    (each : ∀ field ∈ fields, ∀ width, field.2.fixedWidth? = some width ↔
      (∀ part ∈ field.2.parts, part.Sized) ∧ field.2.exactWidth = width) (width : Nat) :
    fieldsWidth? fields = some width ↔
      (exactWidthIn fields < 2 ^ 64 ∧ ∀ field ∈ fields, ∀ part ∈ field.2.parts, part.Sized) ∧
        exactWidthIn fields = width := by
  induction fields generalizing width with
  | nil => simp [fieldsWidth?, exactWidthIn]
  | cons field fields inductionHypothesis =>
    obtain ⟨name, ty⟩ := field
    have first := each (name, ty) List.mem_cons_self
    have others := inductionHypothesis fun field listed => each field (List.mem_cons_of_mem _ listed)
    simp only [fieldsWidth?, exactWidthIn, Option.bind_eq_bind, Option.bind_eq_some_iff, sized?_eq_some_iff,
      first, others, List.forall_mem_cons]
    constructor
    · rintro ⟨_, ⟨sized, rfl⟩, _, ⟨⟨-, sizedRest⟩, rfl⟩, fits, sum⟩
      exact ⟨⟨fits, sized, sizedRest⟩, sum⟩
    · rintro ⟨⟨fits, sized, sizedRest⟩, sum⟩
      exact ⟨_, ⟨sized, rfl⟩, _, ⟨⟨by omega, sizedRest⟩, rfl⟩, fits, sum⟩

/-- A type has a width just if each of its parts has one, and it is the exact width. -/
theorem fixedWidth?_eq_some_iff (ty : FieldType) : ∀ width, ty.fixedWidth? = some width ↔
    (∀ part ∈ ty.parts, part.Sized) ∧ ty.exactWidth = width := by
  induction ty with
  | scalar kind =>
    intro width
    have narrow : (scalar kind).Sized := by cases kind <;> simp [Sized, Varies, exactWidth, ScalarKind.width]
    simp [fixedWidth?, exactWidth, parts, narrow]
  | bytes length =>
    intro width
    have narrow : (bytes length).Sized := ⟨id, length.toNat_lt⟩
    simp [fixedWidth?, exactWidth, parts, narrow]
  | array element count inductionHypothesis =>
    intro width
    simp only [fixedWidth?, Option.bind_eq_bind, Option.bind_eq_some_iff, sized?_eq_some_iff,
      inductionHypothesis, parts, List.forall_mem_cons, exactWidth]
    constructor
    · rintro ⟨_, ⟨sized, rfl⟩, fits, product⟩
      exact ⟨⟨⟨id, fits⟩, sized⟩, product⟩
    · rintro ⟨⟨⟨-, fits⟩, sized⟩, product⟩
      exact ⟨_, ⟨sized, rfl⟩, fits, product⟩
  | struct fields inductionHypothesis =>
    intro width
    rw [fixedWidth?, fieldsWidth?_eq_some_iff inductionHypothesis, parts, List.forall_mem_cons,
      forall_mem_partsIn, exactWidth]
    simp [Sized, Varies, exactWidth]
  | text | option _ _ | enum _ _ =>
    intro width
    simp [fixedWidth?, parts, Sized, Varies]

/-! ## Reading by width -/

theorem read_of_enough {ty : FieldType} {width : Nat} (fixed : ty.fixedWidth? = some width) (path : Path)
    {s : Source} (enough : width ≤ s.remaining) :
    ∃ v, ty.read path s = .ok v ⟨s.rest.drop width, s.index + width⟩ := by
  have long : (s.rest.take width).length = width := List.length_take_of_le enough
  obtain ⟨v, spelled⟩ := exists_spells ty width fixed _ long
  have read := spelled.read path (s.rest.drop width) s.index
  rw [List.take_append_drop, long] at read
  exact ⟨v, read⟩

theorem read_of_short {ty : FieldType} {width : Nat} (fixed : ty.fixedWidth? = some width) (path : Path)
    {s : Source} (short : s.remaining < width) :
    ∃ place s', ty.read path s = .error (.unexpectedEnd place) s' := by
  cases read : ty.read path s with
  | ok v s' =>
    obtain ⟨used, spelled, rest, -⟩ := (ty.takes_read path s v s').mp read
    have long := Spells.length_eq ty width fixed used v spelled
    simp only [Source.remaining, rest, List.length_append] at short
    omega
  | error fault s' =>
    obtain ⟨place, rfl⟩ := onlyRunsOut_read ty width fixed path s fault s' read
    exact ⟨place, s', rfl⟩

/-! ## Reading with little memory -/

/-- A part of a type that there is memory for: if it is an array, for all its elements. -/
def HeldBy (held : Nat → Bool) : FieldType → Prop
  | array _ count => held count.toNat = true
  | _ => True

section

variable {held : Nat → Bool}

theorem readFieldsWith_eq_readFields {fields : List Field}
    (each : ∀ field ∈ fields, ∀ path, field.2.readWith held path = field.2.read path) (path : Path) :
    readFieldsWith held fields path = readFields fields path := by
  induction fields with
  | nil => rfl
  | cons field fields inductionHypothesis =>
    obtain ⟨first, others⟩ := List.forall_mem_cons.mp each
    rw [readFieldsWith, readFields_cons, first, inductionHypothesis others]

theorem readVariantWith_eq_readVariant {variants : List Field}
    (each : ∀ variant ∈ variants, ∀ path, variant.2.readWith held path = variant.2.read path)
    (index : Nat) (path : Path) (fault : CodecError) :
    readVariantWith held variants index path fault = readVariant variants index path fault := by
  induction variants generalizing index with
  | nil => rfl
  | cons variant variants inductionHypothesis =>
    obtain ⟨first, others⟩ := List.forall_mem_cons.mp each
    cases index with
    | zero => rw [readVariantWith, readVariant_zero, first]
    | succ index => rw [readVariantWith, readVariant_succ, inductionHypothesis others]

/-- With memory for all arrays of a type, a reading is the one that never asks for memory. -/
theorem readWith_eq_read (ty : FieldType) :
    (∀ part ∈ ty.parts, part.HeldBy held) → ∀ path, ty.readWith held path = ty.read path := by
  induction ty with
  | scalar kind | text | bytes length => exact fun _ path => rfl
  | array element count inductionHypothesis =>
    intro all path
    obtain ⟨first, others⟩ := List.forall_mem_cons.mp all
    have enough : held count.toNat = true := first
    have same : element.readWith held = element.read := funext (inductionHypothesis others)
    rw [readWith, if_pos enough, read_array, same]
  | option inner inductionHypothesis =>
    intro all path
    have same := inductionHypothesis (List.forall_mem_cons.mp all).2 path
    rw [readWith, read_option, same]
  | struct fields inductionHypothesis =>
    intro all path
    have others := forall_mem_partsIn.mp (List.forall_mem_cons.mp all).2
    have each := fun field listed => inductionHypothesis field listed (others field listed)
    rw [readWith, read_struct, readFieldsWith_eq_readFields each]
  | enum variants inductionHypothesis =>
    intro all path
    have others := forall_mem_partsIn.mp (List.forall_mem_cons.mp all).2
    have each := fun variant listed => inductionHypothesis variant listed (others variant listed)
    rw [readWith, read_enum]
    exact bind_congr fun index => readVariantWith_eq_readVariant each index.toNat path _

end

/-- A type has no fixed width just if something in it varies or is too wide by itself.  Otherwise the
width is exact, every value is written with as many bytes, and with memory for its arrays reading takes as
many or runs out. -/
theorem fixedWidth?_exact (ty : FieldType) (held : Nat → Bool) :
    (ty.fixedWidth? = none ↔
      (∃ part ∈ ty.parts, part.Varies) ∨ ∃ part ∈ ty.parts, 2 ^ 64 ≤ part.exactWidth) ∧
    ∀ width, ty.fixedWidth? = some width →
      width = ty.exactWidth ∧
      (∀ v bytes, Value.encode v ty = .ok bytes → bytes.length = width) ∧
      ((∀ part ∈ ty.parts, part.HeldBy held) → ∀ (path : Path) (s : Source),
        (width ≤ s.remaining →
          ∃ v, ty.readWith held path s = .ok v ⟨s.rest.drop width, s.index + width⟩) ∧
        (s.remaining < width → ∃ place s', ty.readWith held path s = .error (.unexpectedEnd place) s')) := by
  constructor
  · have none_iff : ty.fixedWidth? = none ↔ ¬∀ part ∈ ty.parts, part.Sized := by
      rw [Option.eq_none_iff_forall_ne_some]
      simp [fixedWidth?_eq_some_iff]
    rw [none_iff]
    simp only [Sized, not_forall, not_and_or, not_not, Nat.not_lt, exists_prop, and_or_left, exists_or]
  · intro width fixed
    refine ⟨((fixedWidth?_eq_some_iff ty width).mp fixed).2.symm, fun v bytes encoded => ?_,
      fun all path s => ?_⟩
    · exact length_of_wire? fixed (Value.encode_eq_ok_iff.mp encoded)
    · rw [readWith_eq_read ty all path]
      exact ⟨read_of_enough fixed path, read_of_short fixed path⟩

/-- Two cells of five bytes and one more byte, read where one byte is left over and where one is missing;
and no copies of something too wide, which is nothing at all and still has no width. -/
theorem fixedWidth?_exact_cells :
    let cell : FieldType := .struct [("x", .scalar .u16), ("tag", .bytes 3)]
    let ty : FieldType := .struct [("cells", .array cell 2), ("last", .scalar .u8)]
    let wide : FieldType := .array (.scalar .u64) 0x2000000000000000
    (ty.fixedWidth? = some 11 ∧ 11 = ty.exactWidth ∧
      (∃ v, ty.readWith Value.held Path.root ⟨[1, 0, 7, 7, 7, 2, 0, 8, 8, 8, 3, 9], 4⟩ = .ok v ⟨[9], 15⟩) ∧
      ∃ place s', ty.readWith Value.held Path.root ⟨[1, 0, 7, 7, 7, 2, 0, 8, 8, 8], 4⟩ =
        .error (.unexpectedEnd place) s') ∧
    (FieldType.array wide 0).exactWidth = 0 ∧ (FieldType.array wide 0).fixedWidth? = none := by
  intro cell ty wide
  have fixed : ty.fixedWidth? = some 11 := rfl
  have all : ∀ part ∈ ty.parts, part.HeldBy Value.held := by
    simp [ty, cell, parts, partsIn, HeldBy, Value.held, maxElements, maxBlock]
  obtain ⟨same, -, reading⟩ := (fixedWidth?_exact ty Value.held).2 11 fixed
  refine ⟨⟨fixed, same, ?_, ?_⟩, rfl, ?_⟩
  · exact (reading all Path.root ⟨[1, 0, 7, 7, 7, 2, 0, 8, 8, 8, 3, 9], 4⟩).1 (by decide)
  · exact (reading all Path.root ⟨[1, 0, 7, 7, 7, 2, 0, 8, 8, 8], 4⟩).2 (by decide)
  · exact (fixedWidth?_exact (.array wide 0) Value.held).1.mpr (.inr ⟨wide, by simp [wide, parts], by decide⟩)

/-- Memory is asked for before the bytes are looked at.  Without it, it does not matter that there are too
few of them, nor that none are needed. -/
theorem readWith_overflow :
    let table : FieldType := .array (.scalar .u8) 0x4000000000000000
    let nothing : FieldType := .array (.bytes 0) 0xFFFFFFFFFFFFFFFF
    let empty : Source := ⟨[], 0⟩
    (table.fixedWidth? = some 0x4000000000000000 ∧
      table.readWith Value.held Path.root empty = .error .capacityOverflow empty) ∧
    nothing.fixedWidth? = some 0 ∧
      nothing.readWith Value.held Path.root empty = .error .capacityOverflow empty :=
  ⟨⟨rfl, rfl⟩, rfl, rfl⟩

end PackedRecord.FieldType
