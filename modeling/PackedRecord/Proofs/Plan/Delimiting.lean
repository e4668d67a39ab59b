import PackedRecord.Proofs.Compile.Supported
import PackedRecord.Proofs.Plan.Reading
import PackedRecord.Proofs.Value.Delimiting

/-!
# Records end where they end

`self_delimiting` is what the wire format promises of a value that stands among other bytes, for
reading by type and for reading by plan: nothing less than its bytes is a value, and nothing that
stands around them matters.
-/

namespace PackedRecord

namespace Plan

variable {fields : List Field} {base : String} {plan : Plan}

/-- A record without its end is not read by plan either: what was read would be a record that the
whole bytes start with, and there is only one. -/
theorem read_of_cut (built : build fields base = .ok plan) (distinct : (fields.map Prod.fst).Nodup)
    (scopes : FieldType.EveryScopeIn (fun inner => inner ≠ [] ∧ (inner.map Prod.fst).Nodup) fields)
    {front rest : List UInt8} {v : Value} (spelled : (FieldType.struct fields).Spells (front ++ rest) v)
    (cut : rest ≠ []) : plan.read front = .error .bufferTooShort := by
  cases planned : plan.read front with
  | ok w =>
    obtain ⟨used, behind, rfl, spelledFront⟩ := (read_eq_ok_iff built distinct scopes).mp planned
    have same : used ++ behind ++ rest ++ [] = used ++ (behind ++ rest) := by simp
    obtain ⟨-, nothing, -⟩ := spelled.append_inj spelledFront same
    simp [cut] at nothing
  | error fault => rw [read_fault built distinct scopes planned]

end Plan

/-- A value tells where it ends.  With its end cut off it is not there, bytes behind it are seen as
such, and among other bytes it is found wherever it stands, under any path.  Reading by plan gives up on
a record whose end is cut off, and does not look at what is behind it. -/
theorem self_delimiting :
    (∀ (ty : FieldType) (bytes : List UInt8) (v : Value), Value.decode ty bytes = .ok v →
      (∀ front rest, bytes = front ++ rest → rest ≠ [] →
        ∃ path, Value.decode ty front = .error (.unexpectedEnd path)) ∧
      (∀ extra, extra ≠ [] → Value.decode ty (bytes ++ extra) = .error (.trailingBytes extra.length)) ∧
      (∀ before after path,
        ty.read path { rest := (before ++ bytes ++ after).drop before.length, index := before.length } =
          .ok v { rest := after, index := before.length + bytes.length })) ∧
    (∀ (name : String) (schema : Schema) (base : String) (plan : Plan) (bytes : List UInt8) (v : Value),
      verify name schema = .ok () → Plan.build schema.fields base = .ok plan →
      Value.decodeRecord schema bytes = .ok v →
      (∀ front rest, bytes = front ++ rest → rest ≠ [] → plan.read front = .error .bufferTooShort) ∧
      (∀ extra, plan.read (bytes ++ extra) = .ok v)) := by
  constructor
  · intro ty bytes v decoded
    have spelled := Value.decode_eq_ok_iff.mp decoded
    refine ⟨?_, fun extra more => Value.decode_eq_trailingBytes spelled more, ?_⟩
    · rintro front rest rfl cut
      exact Value.decode_eq_unexpectedEnd spelled cut
    · intro before after path
      rw [List.append_assoc, List.drop_left]
      exact spelled.read path after before.length
  · intro name schema base plan bytes v verified built decoded
    obtain ⟨struct, supported⟩ := verify_eq_ok verified
    have scopes := everyScopeIn_of_flat supported.flat fun inner => inner ≠ [] ∧ (inner.map Prod.fst).Nodup
    rw [Value.decodeRecord, struct] at decoded
    have spelled := Value.decode_eq_ok_iff.mp decoded
    constructor
    · rintro front rest rfl cut
      exact Plan.read_of_cut built supported.distinct scopes spelled cut
    · intro extra
      apply (Plan.read_eq_ok_iff built supported.distinct scopes).mpr
      exact ⟨bytes, extra, rfl, spelled⟩

/-- An enum whose bytes are cut off behind its number: the number is in range, so what is missing is
only seen at the end.  A record with an optional text is found among other bytes, and not without its
last one. -/
theorem self_delimiting_note :
    let choice : FieldType := .enum [("off", .scalar .u8), ("on", .array .text 2)]
    let note : Schema := ⟨.struct, [("id", .scalar .u16), ("note", .option .text)]⟩
    Value.decode choice [1, 1, 0, 0, 0, 65, 0, 0, 0, 0] =
        .ok (.enum "on" (.array [.text "A", .text ""])) ∧
      (∃ path, Value.decode choice [1, 1, 0, 0, 0, 65] = .error (.unexpectedEnd path)) ∧
      Value.decode choice [1, 1, 0, 0, 0, 65, 0, 0, 0, 0, 7, 7] = .error (.trailingBytes 2) ∧
      ∃ plan, Plan.build note.fields "out" = .ok plan ∧ verify "note" note = .ok () ∧
        plan.read [2, 1, 9, 1, 0, 0, 0] = .error .bufferTooShort ∧
        plan.read [2, 1, 9, 1, 0, 0, 0, 65, 77] =
          .ok (.struct [("id", .scalar (.u16 258)), ("note", .present (.text "A"))]) := by
  intro choice note
  have decoded : Value.decode choice [1, 1, 0, 0, 0, 65, 0, 0, 0, 0] =
      .ok (.enum "on" (.array [.text "A", .text ""])) := rfl
  obtain ⟨values, records⟩ := self_delimiting
  obtain ⟨cut, extended, -⟩ := values choice _ _ decoded
  refine ⟨decoded, cut [1, 1, 0, 0, 0, 65] [0, 0, 0, 0] rfl (by simp), extended [7, 7] (by simp), ?_⟩
  obtain ⟨plan, built⟩ : ∃ plan, Plan.build note.fields "out" = .ok plan := ⟨_, rfl⟩
  obtain ⟨cutRecord, extendedRecord⟩ := records "note" note "out" plan [2, 1, 9, 1, 0, 0, 0, 65] _
    rfl built rfl
  exact ⟨plan, built, rfl, cutRecord [2, 1, 9, 1, 0, 0, 0] [65] rfl (by simp), extendedRecord [77]⟩

end PackedRecord
