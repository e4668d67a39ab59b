import PackedRecord.Proofs.Plan.Reading
import PackedRecord.Proofs.Plan.Writing
import PackedRecord.Proofs.Value.Normal

/-!
# Reading by plan undoes writing by plan

A record that was written comes back as C and its type see it: every text up to its first NUL, and the
members that the type has fields for, in their order.  Written again, that gives the same bytes.

Both directions meet in the bytes of the record: a plan writes them to the front of the buffer
(`write_of_fits`), and reads any buffer that starts with them (`read_eq_ok_iff`).

* `exists_writeNew_iff`: what can be written to a new buffer.
* `read_writeNew`: what is read from it.
-/

namespace PackedRecord.Plan

variable {fields : List Field} {base : String} {plan : Plan}

/-- A record can be written to a new buffer exactly if it has bytes as its type, there is room for them,
and there is memory for the buffer. -/
theorem exists_writeNew_iff (built : build fields base = .ok plan) (nonempty : fields ≠ [])
    (scopes : FieldType.EveryScopeIn (· ≠ []) fields) (v : Value) (capacity : Nat) :
    (∃ w, plan.writeNew v capacity = .ok w) ↔
      ∃ bytes, (FieldType.struct fields).wire? v.visible = some bytes ∧ bytes.length ≤ capacity ∧
        capacity ≤ maxBlock := by
  by_cases held : capacity ≤ maxBlock
  · simp only [writeNew_of_le held, write_eq_ok_iff built nonempty scopes, held, and_true]
    constructor
    · rintro ⟨w, bytes, written, fits, -⟩
      exact ⟨bytes, written, fits⟩
    · rintro ⟨bytes, written, fits⟩
      exact ⟨_, bytes, written, fits, rfl⟩
  · simp [writeNew_of_lt built (Nat.lt_of_not_le held), held]

/-- What was written is read back as C and its type see it, from the whole buffer as well as from the
bytes that were produced.  Written again that gives the same buffer, and it takes as much room as the
cursor says, in all buffers for which there is memory. -/
theorem read_writeNew (built : build fields base = .ok plan)
    (structs : (FieldType.struct fields).EveryStruct fun inner => inner ≠ [] ∧ (inner.map Prod.fst).Nodup)
    {v : Value} {capacity : Nat} {w : Written} (wrote : plan.writeNew v capacity = .ok w) :
    let seen := (FieldType.struct fields).normalize v.visible
    plan.read w.bytes = .ok seen ∧ plan.read w.payload = .ok seen ∧ plan.writeNew seen capacity = .ok w ∧
      ∀ room, (∃ w', plan.writeNew v room = .ok w') ↔ w.cursor ≤ room ∧ room ≤ 2 ^ 63 - 1 := by
  intro seen
  obtain ⟨nonempty, distinct⟩ := structs.1
  have scopes := structs.everyScope.2
  have filled := (structs.mono fun _ good => good.1).everyScope.2
  obtain ⟨bytes, written, fits, held⟩ := (exists_writeNew_iff built nonempty filled v capacity).mp ⟨w, wrote⟩
  have whole := write_of_fits built nonempty filled written fits
  rw [← writeNew_of_le held, wrote, Except.ok.injEq] at whole
  subst whole
  have spelled := FieldType.spells_normalize _ _ bytes written
  refine ⟨?_, ?_, ?_, ?_⟩
  · apply (read_eq_ok_iff built distinct scopes).mpr
    exact ⟨bytes, List.replicate (capacity - bytes.length) 0, rfl, spelled⟩
  · apply (read_eq_ok_iff built distinct scopes).mpr
    exact ⟨bytes, [], by simp [Written.payload], spelled⟩
  · have again : seen.visible = seen := by
      rw [FieldType.visible_normalize, Value.visible_visible]
    rw [writeNew_of_le held]
    apply write_of_fits built nonempty filled _ fits
    rw [again]
    exact FieldType.wire?_normalize (structs.mono fun _ good => good.2) v.visible bytes written
  · intro room
    rw [exists_writeNew_iff built nonempty filled]
    simp [written, maxBlock]

/-- A record with a member to spare, in another order, and with a text that has a NUL in it. -/
theorem read_writeNew_cut :
    let fields : List Field := [("id", .scalar .u8), ("inner", .struct [("label", .text)])]
    let v : Value := .struct [("inner", .struct [("label", .text "A\x00B"), ("spare", .absent)]),
      ("id", .scalar (.u8 7))]
    let seen : Value := .struct [("id", .scalar (.u8 7)), ("inner", .struct [("label", .text "A")])]
    ∃ plan, build fields "in" = .ok plan ∧ plan.writeNew v 8 = .ok ⟨[7, 1, 0, 0, 0, 65, 0, 0], 6⟩ ∧
      plan.read [7, 1, 0, 0, 0, 65, 0, 0] = .ok seen ∧ plan.read [7, 1, 0, 0, 0, 65] = .ok seen ∧
      plan.writeNew seen 8 = .ok ⟨[7, 1, 0, 0, 0, 65, 0, 0], 6⟩ ∧ ∃ w, plan.writeNew v 6 = .ok w := by
  intro fields v seen
  obtain ⟨plan, built⟩ : ∃ plan, build fields "in" = .ok plan := ⟨_, rfl⟩
  have structs : (FieldType.struct fields).EveryStruct
      fun inner => inner ≠ [] ∧ (inner.map Prod.fst).Nodup := by
    simp [fields, FieldType.EveryStruct, FieldType.EveryStructIn]
  have wrote : plan.writeNew v 8 = .ok ⟨[7, 1, 0, 0, 0, 65, 0, 0], 6⟩ := by
    cases built
    rfl
  obtain ⟨whole, produced, again, room⟩ := read_writeNew built structs wrote
  exact ⟨plan, built, wrote, whole, produced, again, (room 6).mpr (by decide)⟩

/-- More room than the cursor asks for is no help if there is no memory for it. -/
theorem writeNew_overflow_behind :
    let v : Value := .struct [("x", .scalar (.u8 7))]
    ∃ plan, build [("x", .scalar .u8)] "in" = .ok plan ∧ plan.writeNew v 1 = .ok ⟨[7], 1⟩ ∧
      1 ≤ 2 ^ 63 ∧ plan.writeNew v (2 ^ 63) = .error .capacityOverflow :=
  ⟨_, rfl, rfl, by decide, rfl⟩

end PackedRecord.Plan
