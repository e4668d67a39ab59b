import PackedRecord.Compile.Code
import PackedRecord.Proofs.C.Reader
import PackedRecord.Proofs.C.Writer
import PackedRecord.Proofs.Compile.Supported
import PackedRecord.Proofs.Plan.Places

/-!
# Generated code runs as the plan does

`compile` accepts only records of distinct fields, none of which is a struct (`Supported`), and what
it returns are the statements of two plans of those fields (`code_of_compile`, `compile_eq_ok`).

* `runAll_reader_of_read`: a reader ends as reading by plan does, with the record filled.
* `runAll_writer_of_write`: a writer ends as writing by plan does, with the same bytes.
* `compile_runs_as_plan`: both, for every schema that `compile` accepts.

A run that left the buffer would end with `Halt.undefined`, so none of them does.
-/

namespace PackedRecord

theorem code_of_compile {name : String} {schema : Schema} {options : CompileOptions} {code : Code}
    (compiled : compile name schema options = .ok code) :
    verify name schema = .ok () ∧ ∃ readPlan writePlan storage,
      Plan.build schema.fields C.readerBase = .ok readPlan ∧
      Plan.build schema.fields C.writerBase = .ok writePlan ∧
      C.storage (options.symbol name) schema.fields = .ok storage ∧
      C.ownedCountIn schema.fields ≤ C.maxOwned ∧
      code = {
        name
        storage
        reader := C.reader (options.symbol name) readPlan
        writer := C.writer (options.symbol name) writePlan
        release := ⟨C.releaseSignature (options.symbol name), C.releaseStmts schema.fields⟩
        adapters := options.platform.adapters? (options.symbol name) } := by
  obtain ⟨⟨⟩, -, compiled⟩ := bind_eq_ok compiled
  obtain ⟨⟨⟩, verified, compiled⟩ := bind_eq_ok compiled
  obtain ⟨readPlan, readBuilt, compiled⟩ := bind_eq_ok compiled
  obtain ⟨writePlan, writeBuilt, compiled⟩ := bind_eq_ok compiled
  obtain ⟨storage, stored, compiled⟩ := bind_eq_ok compiled
  obtain ⟨release, released, compiled⟩ := bind_eq_ok compiled
  cases compiled
  refine ⟨verified, readPlan, writePlan, storage, readBuilt, writeBuilt, stored, ?_⟩
  by_cases listed : C.ownedCountIn schema.fields ≤ C.maxOwned
  · rw [C.release_of_le listed] at released
    cases released
    exact ⟨listed, rfl⟩
  · rw [C.release_of_lt (Nat.lt_of_not_le listed)] at released
    cases released

/-- Generated functions have the statements of two plans of the record. -/
theorem compile_eq_ok {name : String} {schema : Schema} {options : CompileOptions} {code : Code}
    (compiled : compile name schema options = .ok code) :
    Supported schema.fields ∧ ∃ readPlan writePlan,
      Plan.build schema.fields C.readerBase = .ok readPlan ∧
      Plan.build schema.fields C.writerBase = .ok writePlan ∧
      code.reader.body = C.planStmts .read readPlan ∧ code.writer.body = C.planStmts .write writePlan := by
  obtain ⟨verified, readPlan, writePlan, storage, readBuilt, writeBuilt, -, -, rfl⟩ :=
    code_of_compile compiled
  exact ⟨(verify_eq_ok verified).2, readPlan, writePlan, readBuilt, writeBuilt, rfl, rfl⟩

theorem isIdentifier_symbol {options : CompileOptions} {name : String}
    (stem : C.isIdentifier options.stem = true) (named : C.isIdentifier name = true) :
    C.isIdentifier (options.symbol name) = true := by
  have parts : options.symbol name = options.stem ++ ("_" ++ name) := by
    rw [CompileOptions.symbol, String.append_assoc]
  rw [parts]
  refine C.isIdentifier_append stem ?_ (by simp)
  simpa [C.continuesName] using C.continuesName_of_mem named

theorem identified_of_compile {name : String} {schema : Schema} {options : CompileOptions} {code : Code}
    (compiled : compile name schema options = .ok code) :
    C.isIdentifier (options.symbol name) = true ∧ (FieldType.struct schema.fields).EveryScope Identified := by
  obtain ⟨⟨⟩, stem, -⟩ := bind_eq_ok compiled
  obtain ⟨verified, -⟩ := code_of_compile compiled
  obtain ⟨named, -, -, each, -⟩ := (verify_iff_parts name schema).mp verified
  exact ⟨isIdentifier_symbol ((checkIdentifier_eq_ok_iff _).mp stem) named, fun field listed => (each field listed).1,
    everyScopeIn_of_flat (verify_eq_ok verified).2.flat _⟩

/-! ## Readers and writers -/

namespace C

variable {m : Machine} {fields : List Field} {base : String} {plan : Plan}

/-- A reader ends as reading by plan does.  Where that gives a record, each field holds the bytes that
its member was read from. -/
theorem runAll_reader_of_read (supported : Supported fields) (built : Plan.build fields base = .ok plan)
    (known : m.length.toNat = m.buffer.length) (grants : ∀ n, m.grants n = true) :
    match plan.read m.buffer with
    | .ok v => ∃ m' used rest members,
        Stmt.runAll (planStmts .read plan) m = .error (.returned .ok) m' ∧ v = .struct members ∧
        m.buffer = used ++ rest ∧ m'.buffer = m.buffer ∧ m'.StoresFields { base } fields used members
    | .error _ =>
      ∃ m', Stmt.runAll (planStmts .read plan) m = .error (.returned (.fault .bufferTooShort)) m' := by
  have reads : ∀ {v}, plan.read m.buffer = .ok v ↔ _ :=
    Plan.read_eq_ok_iff built supported.distinct (everyScopeIn_of_flat supported.flat _)
  obtain ⟨goesOn, stops⟩ := runAll_reader built supported.distinct supported.flat ⟨rfl, known, grants⟩
  cases read : plan.read m.buffer with
  | ok v =>
    obtain ⟨used, rest, split, spelled⟩ := reads.mp read
    cases spelled with
    | @struct _ _ members each =>
      obtain ⟨m', ran, same, stored⟩ := goesOn used members each (holds_zero_iff.mpr ⟨rest, split⟩)
      exact ⟨m', used, rest, members, ran, rfl, split, same, stored⟩
  | error fault =>
    refine stops fun used members each holds => ?_
    obtain ⟨rest, split⟩ := holds_zero_iff.mp holds
    have success := reads.mpr ⟨used, rest, split, .struct each⟩
    rw [read] at success
    cases success

/-- A writer ends as writing by plan does.  Where that gives bytes, the buffer starts with them, and its
rest is as it was. -/
theorem runAll_writer_of_write (supported : Supported fields) (built : Plan.build fields base = .ok plan)
    (known : m.length.toNat = m.buffer.length) {v : Value} (carried : m.CarriesFields { base } fields v) :
    match plan.write v m.buffer.length with
    | .ok w => ∃ m', Stmt.runAll (planStmts .write plan) m = .error (.returned .ok) m' ∧
        m'.buffer = w.payload ++ m.buffer.drop w.cursor
    | .error _ =>
      ∃ m', Stmt.runAll (planStmts .write plan) m = .error (.returned (.fault .bufferTooShort)) m' := by
  have scopes := everyScopeIn_of_flat supported.flat (· ≠ [])
  obtain ⟨goesOn, stops⟩ := runAll_writer built supported.nonempty supported.flat known carried
  by_cases fits : ∃ bytes, (FieldType.struct fields).wire? v.visible = some bytes ∧
      bytes.length ≤ m.buffer.length
  · obtain ⟨bytes, written, fits⟩ := fits
    obtain ⟨m', ran, result⟩ := goesOn bytes written fits
    rw [Plan.write_of_fits built supported.nonempty scopes written fits]
    refine ⟨m', ran, ?_⟩
    rw [Written.payload, List.take_left' rfl]
    exact result
  · obtain ⟨fails, short⟩ := Plan.write_of_not_fits built supported.nonempty scopes v m.buffer.length
    have tooLong : ∀ bytes, (FieldType.struct fields).wire? v.visible = some bytes →
        m.buffer.length < bytes.length :=
      fun bytes written => Nat.lt_of_not_ge fun fewer => fits ⟨bytes, written, fewer⟩
    have failed : ∃ e, plan.write v m.buffer.length = .error e := by
      cases written : (FieldType.struct fields).wire? v.visible with
      | none => exact fails written
      | some bytes => exact ⟨_, short bytes written (tooLong bytes written)⟩
    obtain ⟨e, failed⟩ := failed
    rw [failed]
    exact stops tooLong

end C

/-- Generated functions end as the plans of their record do, on every buffer: a reader that is granted
all memory, and a writer of a record in memory whose texts end with a NUL.  There is no run that leaves
the buffer. -/
theorem compile_runs_as_plan {name : String} {schema : Schema} {options : CompileOptions} {code : Code}
    (compiled : compile name schema options = .ok code) :
    ∃ readPlan writePlan, Plan.build schema.fields C.readerBase = .ok readPlan ∧
      Plan.build schema.fields C.writerBase = .ok writePlan ∧
      (∀ m : C.Machine, m.length.toNat = m.buffer.length → (∀ n, m.grants n = true) →
        match readPlan.read m.buffer with
        | .ok v => ∃ m' used rest members,
            C.Stmt.runAll code.reader.body m = .error (.returned .ok) m' ∧ v = .struct members ∧
            m.buffer = used ++ rest ∧ m'.buffer = m.buffer ∧
            m'.StoresFields { base := C.readerBase } schema.fields used members
        | .error _ =>
          ∃ m', C.Stmt.runAll code.reader.body m = .error (.returned (.fault .bufferTooShort)) m') ∧
      (∀ (m : C.Machine) (v : Value), m.length.toNat = m.buffer.length →
        m.CarriesFields { base := C.writerBase } schema.fields v →
        match writePlan.write v m.buffer.length with
        | .ok w => ∃ m', C.Stmt.runAll code.writer.body m = .error (.returned .ok) m' ∧
            m'.buffer = w.payload ++ m.buffer.drop w.cursor
        | .error _ =>
          ∃ m', C.Stmt.runAll code.writer.body m = .error (.returned (.fault .bufferTooShort)) m') := by
  obtain ⟨supported, readPlan, writePlan, readBuilt, writeBuilt, reader, writer⟩ := compile_eq_ok compiled
  refine ⟨readPlan, writePlan, readBuilt, writeBuilt, ?_, ?_⟩
  · intro m known grants
    rw [reader]
    exact C.runAll_reader_of_read supported readBuilt known grants
  · intro m v known carried
    rw [writer]
    exact C.runAll_writer_of_write supported writeBuilt known carried

/-- A record with a number, a text and an optional number is read from a buffer with bytes behind it, is
not read from one that ends too early, and is written over the front of a longer buffer. -/
theorem compile_runs_as_plan_label :
    let fields : List Field := [("id", .scalar .u16), ("label", .text), ("level", .option (.scalar .u8))]
    let members : List (String × Value) :=
      [("id", .scalar (.u16 258)), ("label", .text "A"), ("level", .present (.scalar (.u8 7)))]
    let place : String → Place := fun name => ⟨{ base := C.writerBase }, name⟩
    let record : C.Machine := {
      buffer := [9, 9, 9, 9, 9, 9, 9, 9, 9, 9]
      length := 10
      blocks := [[65, 0]]
      objects := fun x =>
        if x = .field (place "id") then [2, 1]
        else if x = .field ((place "level").member C.presenceMember) then [1]
        else [7]
      pointers := fun _ => some 0 }
    ∃ code, compile "tag" ⟨.struct, fields⟩ {} = .ok code ∧
      (∃ m' used, C.Stmt.runAll code.reader.body
          { buffer := [2, 1, 1, 0, 0, 0, 65, 1, 7, 99], length := 10 } = .error (.returned .ok) m' ∧
        m'.StoresFields { base := C.readerBase } fields used members) ∧
      (∃ m', C.Stmt.runAll code.reader.body { buffer := [2, 1, 1, 0, 0, 0, 65, 1], length := 8 } =
        .error (.returned (.fault .bufferTooShort)) m') ∧
      (∃ m', C.Stmt.runAll code.writer.body record = .error (.returned .ok) m' ∧
        m'.buffer = [2, 1, 1, 0, 0, 0, 65, 1, 7, 9]) := by
  intro fields members place record
  have compiled : ∃ code, compile "tag" ⟨.struct, fields⟩ {} = .ok code := ⟨_, rfl⟩
  obtain ⟨code, compiled⟩ := compiled
  obtain ⟨readPlan, writePlan, readBuilt, writeBuilt, reads, writes⟩ := compile_runs_as_plan compiled
  cases readBuilt
  cases writeBuilt
  refine ⟨code, compiled, ?_, ?_, ?_⟩
  · obtain ⟨m', used, rest, read, ran, same, -, -, stored⟩ :=
      reads { buffer := [2, 1, 1, 0, 0, 0, 65, 1, 7, 99], length := 10 } rfl fun _ => rfl
    cases same
    exact ⟨m', used, ran, stored⟩
  · exact reads { buffer := [2, 1, 1, 0, 0, 0, 65, 1], length := 8 } rfl fun _ => rfl
  · have carried : record.CarriesFields { base := C.writerBase } fields (.struct members) := by
      have id : record.Carries (place "id") (.scalar .u16) (.scalar (.u16 258)) := .inPlace rfl rfl
      have label : record.Carries (place "label") .text (.text "A") := .text ⟨[], ⟨0, rfl, rfl⟩, by decide⟩
      have level : record.Carries (place "level") (.option (.scalar .u8)) (.present (.scalar (.u8 7))) :=
        .presentScalar (s := .u8 7) (show (1 : UInt8) ≠ 0 by decide) rfl rfl
      intro field listed
      simp only [fields, List.mem_cons, List.not_mem_nil, or_false] at listed
      rcases listed with rfl | rfl | rfl
      · exact ⟨_, rfl, id⟩
      · exact ⟨_, rfl, label⟩
      · exact ⟨_, rfl, level⟩
    exact writes record (.struct members) rfl carried

end PackedRecord
