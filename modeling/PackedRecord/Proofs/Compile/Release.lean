import PackedRecord.Proofs.C.ReleaseList
import PackedRecord.Proofs.Compile.Agreement

/-!
# Generated code gives back all memory

The release function of a record walks the fields on its own, and names the record by a parameter of its
own.  `map_locate_ownedIn` says that it means the pointers that the reader has filled, and
`runAll_releaseStmts` that it gives back where they lead, whether that is memory or nowhere.

* `release_after_reader`: however a reader returns, each block that it was handed is given back once.
-/

namespace PackedRecord

namespace C

def Lvalue.withBase (base : String) : Lvalue → Lvalue
  | .var v => .var v
  | .field ⟨scope, name⟩ => .field ⟨{ scope with base }, name⟩
  | .item ⟨scope, name⟩ index => .item ⟨{ scope with base }, name⟩ index

/-- The machine as a function sees it that is called with the record at `base`. -/
def Machine.handOver (m : Machine) (base : String) : Machine :=
  { m with
    objects := fun x => m.objects (x.withBase base)
    pointers := fun x => m.pointers (x.withBase base) }

mutual

theorem map_locate_ownedBy (m : Machine) (base : String) (scope : Scope) (name : String) :
    ∀ ty : FieldType, (ownedBy scope name ty).map (fun x => (m.locate x).withBase base) =
      ownedBy { scope with base } name ty
  | .struct fields => map_locate_ownedIn m base (scope.enter name) fields
  | .array element count => by
    cases element with
    | text => simp [ownedBy, Machine.locate, Lvalue.withBase]
    | _ => rfl
  | .option inner => by cases inner <;> rfl
  | .text | .scalar _ | .bytes _ | .enum _ => rfl

theorem map_locate_ownedIn (m : Machine) (base : String) (scope : Scope) :
    ∀ fields : List Field, (ownedIn scope fields).map (fun x => (m.locate x).withBase base) =
      ownedIn { scope with base } fields
  | [] => rfl
  | (name, ty) :: rest => by
    rw [ownedIn, ownedIn, List.map_append, map_locate_ownedBy m base scope name ty,
      map_locate_ownedIn m base scope rest]

end

theorem runAll_map_free (owned : List Lvalue) (m : Machine) :
    Stmt.runAll (owned.map .free) m =
      .ok () { m with freed := m.freed ++ owned.map fun x => m.pointers (m.locate x) } := by
  induction owned generalizing m with
  | nil =>
    rw [List.map_nil, Stmt.runAll, List.map_nil, List.append_nil]
    rfl
  | cons x owned inductionHypothesis =>
    have ran : (Stmt.free x).run m =
        .ok () { m with freed := m.freed ++ [m.pointers (m.locate x)] } := by
      rw [Stmt.run]
      rfl
    rw [List.map_cons, Stmt.runAll_cons_of_ok ran, inductionHypothesis, List.map_cons, List.append_assoc]
    rfl

theorem runAll_releaseStmts (fields : List Field) (base : String) (m : Machine) :
    Stmt.runAll (releaseStmts fields) (m.handOver base) =
      .ok () { m.handOver base with freed := m.freed ++ (ownedIn { base } fields).map m.pointers } := by
  have same := map_locate_ownedIn (m.handOver base) base { base := releaseBase } fields
  rw [releaseStmts]
  split
  · rename_i nothing
    rw [nothing] at same
    rw [← same, Stmt.runAll_singleton, Stmt.run, List.map_nil, List.map_nil, List.append_nil]
    rfl
  · rw [runAll_map_free, ← same, List.map_map]
    rfl

theorem Acquires.count_released {a b : Account} {mine : List Lvalue} (acquires : Acquires mine a b) (i : Nat) :
    (mine.map b.pointers).count (some i) = if a.handed ≤ i ∧ i < b.handed then 1 else 0 := by
  obtain ⟨count, handed, filled⟩ := acquires.blocks
  calc (mine.map b.pointers).count (some i)
      = (mine.filterMap b.pointers).count i := by
        rw [List.count_filterMap, List.count, List.countP_map]
        rfl
    _ = if i ∈ List.range' a.handed count then 1 else 0 := by
        rw [filled]
        exact (List.nodup_range' 1).count
    _ = if a.handed ≤ i ∧ i < b.handed then 1 else 0 := by simp only [List.mem_range'_1, handed]

end C

/-- There is no leak and no double free.  A reader of a record that points nowhere returns, on every
buffer that is as long as it was told, and whatever the allocator refuses; it says that there is no
memory just if a request was refused.  However it returns, also if the buffer is shorter than it was told,
the release function then gives back each block that it was handed exactly once, and nothing else but
null pointers. -/
theorem release_after_reader {name : String} {schema : Schema} {options : CompileOptions} {code : Code}
    (compiled : compile name schema options = .ok code) (m : C.Machine)
    (zeroed : ∀ x, m.pointers x = none) :
    (m.length.toNat ≤ m.buffer.length →
      ∃ status m', C.Stmt.runAll code.reader.body m = .error (.returned status) m') ∧
    ∀ status m', C.Stmt.runAll code.reader.body m = .error (.returned status) m' →
      (status = .fault .allocationFailure ↔
        ∃ n, m.requests ≤ n ∧ n < m'.requests ∧ m.grants n = false) ∧
      ∃ released, C.Stmt.runAll code.release.body (m'.handOver C.readerBase) =
          .ok () { m'.handOver C.readerBase with freed := m.freed ++ released } ∧
        ∀ i, released.count (some i) = if m.blocks.length ≤ i ∧ i < m'.blocks.length then 1 else 0 := by
  obtain ⟨verified, readPlan, writePlan, storage, built, -, -, -, rfl⟩ := code_of_compile compiled
  have supported := (verify_eq_ok verified).2
  have distinct := C.nodup_ownedIn ⟨supported.distinct, everyScopeIn_of_flat supported.flat _⟩
    { base := C.readerBase }
  have outcome := C.tracked_reader built distinct fun x _ => zeroed x
  simp only [C.reader]
  generalize C.Stmt.runAll (C.planStmts .read readPlan) m = result at outcome
  cases outcome with
  | goesOn _ _ impossible => exact impossible.elim
  | leaves beyond => exact ⟨fun told => absurd beyond (Nat.not_lt.mpr told), nofun⟩
  | @returns status m' acquires reason =>
    refine ⟨fun _ => ⟨status, m', rfl⟩, ?_⟩
    rintro _ _ ⟨⟩
    refine ⟨reason, (C.ownedIn { base := C.readerBase } schema.fields).map m'.pointers, ?_, ?_⟩
    · have freed : m'.freed = m.freed := acquires.freed
      rw [C.runAll_releaseStmts, freed]
    · exact acquires.count_released

/-- Of three texts the second is refused its memory.  The first is given back. -/
theorem release_after_reader_refused :
    let fields : List Field := [("label", .text), ("names", .array .text 2)]
    let start : C.Machine := {
      buffer := [1, 0, 0, 0, 65, 1, 0, 0, 0, 66, 0, 0, 0, 0]
      length := 14
      grants := fun n => n ≠ 1 }
    ∃ code m' released, compile "tag" ⟨.struct, fields⟩ {} = .ok code ∧
      C.Stmt.runAll code.reader.body start = .error (.returned (.fault .allocationFailure)) m' ∧
      m'.requests = 2 ∧ m'.blocks.length = 1 ∧
      C.Stmt.runAll code.release.body (m'.handOver C.readerBase) =
        .ok () { m'.handOver C.readerBase with freed := start.freed ++ released } ∧
      released.count (some 0) = 1 ∧ released.count (some 1) = 0 := by
  intro fields start
  obtain ⟨code, compiled⟩ : ∃ code, compile "tag" ⟨.struct, fields⟩ {} = .ok code := ⟨_, rfl⟩
  obtain ⟨returns, balanced⟩ := release_after_reader compiled start fun _ => rfl
  obtain ⟨status, m', ran⟩ := returns (by decide)
  obtain ⟨reason, released, gaveBack, count⟩ := balanced status m' ran
  have observed : (match C.Stmt.runAll code.reader.body start with
      | .error _ m' => (m'.requests, m'.blocks.length)
      | .ok _ _ => (0, 0)) = (2, 1) := by
    cases compiled
    decide +kernel
  rw [ran] at observed
  obtain ⟨requests, blocks⟩ := Prod.mk.inj observed
  obtain rfl := reason.mpr ⟨1, by decide, by rw [requests]; decide, rfl⟩
  refine ⟨code, m', released, compiled, ran, requests, blocks, gaveBack, ?_, ?_⟩
  · rw [count, blocks]
    rfl
  · rw [count, blocks]
    rfl

end PackedRecord
