import PackedRecord.Bytes.Source

/-!
# What a reading takes

`Takes reading spells` says that a reading succeeds exactly on the sources whose front `spells` some
value, that it yields this value, and that it takes this front and nothing else.  So what a reading
does is said without a source: what stands behind the front, and where the front lies, has no
influence.  The lemmas here give the relation for the primitive readings and carry it through
sequencing; a failure is a front that spells nothing.
-/

namespace PackedRecord.Reading

variable {ε α β : Type}

/-- A reading takes from the front of a source what `spells` the value that it yields. -/
def Takes (reading : Reading ε α) (spells : List UInt8 → α → Prop) : Prop :=
  ∀ s v s', reading s = .ok v s' ↔
    ∃ used, spells used v ∧ s.rest = used ++ s'.rest ∧ s'.index = s.index + used.length

/-- A reading in two parts succeeds where the first part does, and the second where that ended. -/
theorem bind_eq_ok_iff {reading : Reading ε α} {next : α → Reading ε β} {s s' : Source} {v : β} :
    (reading >>= next) s = .ok v s' ↔ ∃ a mid, reading s = .ok a mid ∧ next a mid = .ok v s' := by
  simp only [bind, EStateM.bind]
  cases reading s with
  | ok a mid =>
    constructor
    · intro second
      exact ⟨a, mid, rfl, second⟩
    · rintro ⟨_, _, ⟨⟩, second⟩
      exact second
  | error fault mid => simp

theorem map_eq_ok_iff {reading : Reading ε α} {f : α → β} {s s' : Source} {v : β} :
    (f <$> reading) s = .ok v s' ↔ ∃ a, reading s = .ok a s' ∧ f a = v := by
  simp only [Functor.map, EStateM.map]
  cases reading s with
  | ok a mid => grind
  | error fault mid => simp

/-- It fails where the first part does, or the second where the first ended. -/
theorem bind_eq_error_iff {reading : Reading ε α} {next : α → Reading ε β} {s s' : Source} {fault : ε} :
    (reading >>= next) s = .error fault s' ↔
      reading s = .error fault s' ∨ ∃ a mid, reading s = .ok a mid ∧ next a mid = .error fault s' := by
  simp only [bind, EStateM.bind]
  cases reading s with
  | ok a mid =>
    constructor
    · intro second
      exact .inr ⟨a, mid, rfl, second⟩
    · rintro (impossible | ⟨_, _, ⟨⟩, second⟩)
      · cases impossible
      · exact second
  | error fault' mid => simp

theorem map_eq_error_iff {reading : Reading ε α} {f : α → β} {s s' : Source} {fault : ε} :
    (f <$> reading) s = .error fault s' ↔ reading s = .error fault s' := by
  simp only [Functor.map, EStateM.map]
  cases reading s <;> simp

theorem Takes.congr {reading : Reading ε α} {spells spells' : List UInt8 → α → Prop}
    (takes : Takes reading spells) (same : ∀ used v, spells used v ↔ spells' used v) :
    Takes reading spells' := by
  intro s v s'
  rw [takes s v s']
  simp only [same]

theorem takes_pure (a : α) :
    Takes (pure a : Reading ε α) (fun used v => used = [] ∧ v = a) := by
  intro s v s'
  cases s
  cases s'
  simp only [pure, EStateM.pure, EStateM.Result.ok.injEq, Source.mk.injEq]
  constructor
  · rintro ⟨rfl, rfl, rfl⟩
    exact ⟨[], ⟨rfl, rfl⟩, rfl, rfl⟩
  · rintro ⟨used, ⟨rfl, rfl⟩, rest, index⟩
    exact ⟨rfl, rest, index.symm⟩

/-- One reading after another takes one front after another. -/
theorem Takes.bind {reading : Reading ε α} {next : α → Reading ε β}
    {first : List UInt8 → α → Prop} {second : α → List UInt8 → β → Prop}
    (takesFirst : Takes reading first) (takesSecond : ∀ a, Takes (next a) (second a)) :
    Takes (reading >>= next) (fun used v =>
      ∃ a front back, used = front ++ back ∧ first front a ∧ second a back v) := by
  intro s v s'
  rw [bind_eq_ok_iff]
  constructor
  · rintro ⟨a, mid, readFirst, readSecond⟩
    obtain ⟨front, spelledFirst, restFirst, indexFirst⟩ := (takesFirst s a mid).mp readFirst
    obtain ⟨back, spelledSecond, restSecond, indexSecond⟩ := (takesSecond a mid v s').mp readSecond
    refine ⟨front ++ back, ⟨a, front, back, rfl, spelledFirst, spelledSecond⟩, ?_, ?_⟩
    · rw [restFirst, restSecond, List.append_assoc]
    · rw [indexSecond, indexFirst, List.length_append, Nat.add_assoc]
  · rintro ⟨used, ⟨a, front, back, rfl, spelledFirst, spelledSecond⟩, rest, index⟩
    refine ⟨a, ⟨back ++ s'.rest, s.index + front.length⟩, ?_, ?_⟩
    · exact (takesFirst s a _).mpr ⟨front, spelledFirst, by simp [rest], rfl⟩
    · refine (takesSecond a _ v s').mpr ⟨back, spelledSecond, rfl, ?_⟩
      simp only [index, List.length_append, Nat.add_assoc]

theorem Takes.map {reading : Reading ε α} {spells : List UInt8 → α → Prop} (f : α → β)
    (takes : Takes reading spells) :
    Takes (f <$> reading) (fun used v => ∃ a, spells used a ∧ f a = v) := by
  intro s v s'
  rw [map_eq_ok_iff]
  constructor
  · rintro ⟨a, readA, rfl⟩
    obtain ⟨used, spelled, rest, index⟩ := (takes s a s').mp readA
    exact ⟨used, ⟨a, spelled, rfl⟩, rest, index⟩
  · rintro ⟨used, ⟨a, spelled, rfl⟩, rest, index⟩
    exact ⟨a, (takes s a s').mpr ⟨used, spelled, rest, index⟩, rfl⟩

theorem takes_bytes (fault : ε) (n : Nat) :
    Takes (bytes fault n) (fun used data => used.length = n ∧ data = used) := by
  intro s data s'
  cases s' with
  | mk rest' index' =>
    simp only [bytes]
    split
    · rename_i enough
      simp only [EStateM.Result.ok.injEq, Source.mk.injEq]
      constructor
      · rintro ⟨rfl, rfl, rfl⟩
        exact ⟨s.rest.take n, ⟨enough, rfl⟩, (List.take_append_drop n s.rest).symm, by rw [enough]⟩
      · rintro ⟨used, ⟨rfl, rfl⟩, rest, index⟩
        simp [rest, index]
    · rename_i short
      constructor
      · intro impossible
        cases impossible
      · rintro ⟨used, ⟨rfl, rfl⟩, rest, index⟩
        simp [rest] at short

theorem takes_byte (fault : ε) : Takes (byte fault) (fun used b => used = [b]) := by
  intro s b s'
  cases s with
  | mk rest index =>
    cases s' with
    | mk rest' index' =>
      cases rest with
      | nil =>
        constructor
        · intro impossible
          cases impossible
        · rintro ⟨used, rfl, impossible, -⟩
          simp at impossible
      | cons head rest =>
        simp only [byte, EStateM.Result.ok.injEq, Source.mk.injEq]
        constructor
        · rintro ⟨rfl, rfl, rfl⟩
          exact ⟨[head], rfl, rfl, rfl⟩
        · rintro ⟨used, rfl, equal, index⟩
          simp only [List.cons_append, List.nil_append, List.cons.injEq] at equal
          exact ⟨equal.1, equal.2, index.symm⟩

theorem takes_word (fault : ε) (width : Nat) :
    Takes (word fault width) (fun used n => used.length = width ∧ n = ofLittleEndian used) := by
  refine ((takes_bytes fault width).map ofLittleEndian).congr ?_
  grind

/-- A text is four bytes and as many bytes as they say. -/
theorem takes_text (fault : ε) :
    Takes (text fault) (fun used s => ∃ header payload, used = header ++ payload ∧
      header.length = 4 ∧ payload.length = ofLittleEndian header ∧ s = Utf8.decodeLossy payload) := by
  refine ((takes_word fault 4).bind fun length =>
    (takes_bytes fault length).bind fun payload => takes_pure (Utf8.decodeLossy payload)).congr ?_
  grind

end PackedRecord.Reading
