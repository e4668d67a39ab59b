import PackedRecord.Proofs.Value.Width

/-!
# Values end where they end

The bytes of a value tell where they end, so a value is found in the same way whatever stands behind
it, and a part of it is never taken for a whole one.

* `Spells.append_inj`: of what a source starts with, only one front is a value of a type.
* `decode_eq_unexpectedEnd`: where the end of a value is cut off, reading runs out of bytes.

The second is more than that reading fails.  A reading may also fail because a variant does not
exist, but it has then seen the variant's number, and would fail on the whole value too.
-/

namespace PackedRecord

namespace FieldType

/-- Only one front of the same bytes is a value of a type. -/
theorem Spells.append_inj {ty : FieldType} {used used' rest rest' : List UInt8} {v v' : Value}
    (spelled : ty.Spells used v) (spelled' : ty.Spells used' v') (same : used ++ rest = used' ++ rest') :
    used = used' ∧ rest = rest' ∧ v = v' := by
  have read := spelled.read Path.root rest 0
  rw [same, spelled'.read Path.root rest' 0] at read
  simp only [EStateM.Result.ok.injEq, Source.mk.injEq] at read
  obtain ⟨rfl, rfl, -⟩ := read
  exact ⟨List.append_cancel_right same, rfl, rfl⟩

end FieldType

/-! ## What is found before the bytes end -/

def Source.extend (s : Source) (more : List UInt8) : Source :=
  ⟨s.rest ++ more, s.index⟩

namespace Reading

variable {α β : Type}

theorem Takes.extend {ε : Type} {reading : Reading ε α} {spells : List UInt8 → α → Prop}
    (takes : Takes reading spells) {s s' : Source} {v : α} (read : reading s = .ok v s')
    (more : List UInt8) : reading (s.extend more) = .ok v (s'.extend more) := by
  obtain ⟨used, spelled, rest, index⟩ := (takes s v s').mp read
  apply (takes _ _ _).mpr
  refine ⟨used, spelled, ?_, index⟩
  simp [Source.extend, rest]

/-- A reading that fails for another reason than the end of the bytes would also fail with more of
them. -/
def Prompt (reading : Reading CodecError α) : Prop :=
  ∀ s fault s', reading s = .error fault s' → (∃ path, fault = .unexpectedEnd path) ∨
    ∀ more, ∃ s'', reading (s.extend more) = .error fault s''

theorem OnlyRunsOut.prompt {reading : Reading CodecError α} (only : OnlyRunsOut reading) :
    Prompt reading := by
  intro s fault s' failed
  exact .inl (only s fault s' failed)

theorem prompt_throw (fault : CodecError) : Prompt (throw fault : Reading CodecError α) := by
  intro s fault' s' failed
  cases failed
  exact .inr fun more => ⟨s.extend more, rfl⟩

theorem Prompt.bind {reading : Reading CodecError α} {next : α → Reading CodecError β}
    {spells : List UInt8 → α → Prop} (takes : Takes reading spells) (first : Prompt reading)
    (second : ∀ a, Prompt (next a)) : Prompt (reading >>= next) := by
  intro s fault s' failed
  simp only [Bind.bind, EStateM.bind] at failed ⊢
  cases read : reading s with
  | ok a mid =>
    rw [read] at failed
    refine (second a mid fault s' failed).imp_right fun persists more => ?_
    simpa only [takes.extend read more] using persists more
  | error fault' mid =>
    rw [read] at failed
    cases failed
    refine (first s fault s' read).imp_right fun persists more => ?_
    obtain ⟨s'', failedToo⟩ := persists more
    exact ⟨s'', by simp only [failedToo]⟩

theorem Prompt.map {reading : Reading CodecError α} (f : α → β) (prompt : Prompt reading) :
    Prompt (f <$> reading) := by
  intro s fault s' failed
  simp only [Functor.map, EStateM.map] at failed ⊢
  cases read : reading s with
  | ok a mid =>
    rw [read] at failed
    cases failed
  | error fault' mid =>
    rw [read] at failed
    cases failed
    refine (prompt s fault s' read).imp_right fun persists more => ?_
    obtain ⟨s'', failedToo⟩ := persists more
    exact ⟨s'', by simp only [failedToo]⟩

end Reading

namespace FieldType

theorem prompt_readItems {element : FieldType} (each : ∀ path, (element.read path).Prompt) (path : Path)
    (i count : Nat) : (readItems element.read path i count).Prompt := by
  induction count generalizing i with
  | zero => exact (Reading.onlyRunsOut_pure []).prompt
  | succ count inductionHypothesis =>
    apply (each (path.element i)).bind (element.takes_read _)
    intro item
    apply (inductionHypothesis (i + 1)).bind (takes_readItems element.takes_read path _ _)
    intro items
    exact (Reading.onlyRunsOut_pure (item :: items)).prompt

theorem prompt_readFields {fields : List Field}
    (each : ∀ field ∈ fields, ∀ path, (field.2.read path).Prompt) (path : Path) :
    (readFields fields path).Prompt := by
  induction fields with
  | nil =>
    rw [readFields_nil]
    exact (Reading.onlyRunsOut_pure []).prompt
  | cons field fields inductionHypothesis =>
    obtain ⟨name, ty⟩ := field
    rw [readFields_cons]
    apply (each (name, ty) List.mem_cons_self (path.member name)).bind (ty.takes_read _)
    intro v
    apply Reading.Prompt.bind (takes_readFields (fun field _ => field.2.takes_read) path)
    · exact inductionHypothesis fun field listed => each field (List.mem_cons_of_mem _ listed)
    · intro members
      exact (Reading.onlyRunsOut_pure ((name, v) :: members)).prompt

theorem prompt_readVariant {variants : List Field}
    (each : ∀ variant ∈ variants, ∀ path, (variant.2.read path).Prompt) (index : Nat) (path : Path)
    (fault : CodecError) : (readVariant variants index path fault).Prompt := by
  induction variants generalizing index with
  | nil =>
    rw [readVariant_nil]
    exact Reading.prompt_throw fault
  | cons variant variants inductionHypothesis =>
    obtain ⟨name, ty⟩ := variant
    cases index with
    | zero =>
      rw [readVariant_zero]
      exact (each (name, ty) List.mem_cons_self (path.member name)).map (Value.enum name)
    | succ index =>
      rw [readVariant_succ]
      exact inductionHypothesis (fun variant listed => each variant (List.mem_cons_of_mem _ listed)) index

theorem prompt_read (ty : FieldType) : ∀ path, (ty.read path).Prompt := by
  induction ty with
  | scalar kind => exact fun path => (onlyRunsOut_read (.scalar kind) _ rfl path).prompt
  | text =>
    intro path
    rw [read_text]
    exact ((Reading.onlyRunsOut_text path).map Value.text).prompt
  | bytes length => exact fun path => (onlyRunsOut_read (.bytes length) _ rfl path).prompt
  | array element count each =>
    intro path
    rw [read_array]
    exact (prompt_readItems each path 0 count.toNat).map Value.array
  | option inner each =>
    intro path
    rw [read_option]
    apply (Reading.onlyRunsOut_byte path).prompt.bind (Reading.takes_byte _)
    intro presence
    split
    · exact (Reading.onlyRunsOut_pure _).prompt
    · exact (each path).map Value.present
  | struct fields each =>
    intro path
    rw [read_struct]
    exact (prompt_readFields each path).map Value.struct
  | enum variants each =>
    intro path
    rw [read_enum]
    apply (Reading.onlyRunsOut_byte path).prompt.bind (Reading.takes_byte _)
    intro index
    exact prompt_readVariant each index.toNat path _

end FieldType

/-! ## Cut and extended bytes -/

namespace Value

/-- Without its end, a value is not read as another one, nor found to be wrong: the bytes run out. -/
theorem decode_eq_unexpectedEnd {ty : FieldType} {front rest : List UInt8} {v : Value}
    (spelled : ty.Spells (front ++ rest) v) (cut : rest ≠ []) :
    ∃ path, decode ty front = .error (.unexpectedEnd path) := by
  cases read : ty.read Path.root (Source.ofBytes front) with
  | ok w s =>
    obtain ⟨used, spelledFront, split, -⟩ := (ty.takes_read Path.root _ w s).mp read
    change front = used ++ s.rest at split
    have same : (front ++ rest) ++ [] = used ++ (s.rest ++ rest) := by simp [split]
    obtain ⟨-, nothing, -⟩ := spelled.append_inj spelledFront same
    simp [cut] at nothing
  | error fault s =>
    obtain ⟨path, rfl⟩ | persists := ty.prompt_read Path.root _ fault s read
    · exact ⟨path, by simp only [decode_eq, read]⟩
    · obtain ⟨s', failed⟩ := persists rest
      have whole := spelled.read Path.root [] 0
      rw [List.append_nil] at whole
      change ty.read Path.root ⟨front ++ rest, 0⟩ = _ at failed
      rw [whole] at failed
      cases failed

/-- Bytes behind a value are counted and refused. -/
theorem decode_eq_trailingBytes {ty : FieldType} {bytes extra : List UInt8} {v : Value}
    (spelled : ty.Spells bytes v) (more : extra ≠ []) :
    decode ty (bytes ++ extra) = .error (.trailingBytes extra.length) := by
  simp only [decode_eq, Source.ofBytes, spelled.read Path.root extra 0]
  rw [if_neg (by simpa using more)]
  rfl

end Value

end PackedRecord
