import Mathlib.Data.List.Nodup
import PackedRecord.C.Release
import PackedRecord.Proofs.C.Reader
import PackedRecord.Proofs.Plan.Structure

/-!
# Which memory a reader owns

A reader may return at any check and at any refused request, inside any field.  Wherever it does, the
memory that was handed out to it is what the pointers of the record lead to, block for block.

* `Account` is what a machine has to do with memory, and `Acquires` how it grows: by one pointer of a
  given list for each block.
* `Tracks` is a triple for statements that acquire, for every way in which they may end.
* `tracks_step`, `tracks_staged`: the statements of one step and of a whole layout.
* `tracked_reader`: the pointers that a reader fills are those that `ownedIn` lists.
-/

namespace PackedRecord

/-- The pointers that a step fills. -/
def Step.owned : Step → List C.Lvalue
  | .move place .text | .move place .optionalText => [.field place]
  | .move place (.texts count) => (List.range count).map fun i => .item place (.literal i)
  | _ => []

/-- The steps of a layout own what its fields do. -/
theorem LaidOut.owned_eq {fields : List Field} {state final : LayoutState} {steps : List Step}
    (laid : LaidOut fields state steps final) :
    steps.flatMap Step.owned = C.ownedIn state.scope fields := by
  induction laid with
  | nil => rfl
  | @fixed name ty fields state next final width transfer access steps moved advanced rest
      inductionHypothesis =>
    have nothing : (Step.move ⟨state.scope, name⟩ (transfer access)).owned = [] ∧
        C.ownedBy state.scope name ty = [] := by
      cases moved with
      | scalar kind => exact ⟨rfl, rfl⟩
      | block fixed copied =>
        rcases copied with ⟨length, rfl⟩ | ⟨element, count, rfl⟩
        · exact ⟨rfl, rfl⟩
        · cases element with
          | text => cases fixed
          | _ => exact ⟨rfl, rfl⟩
    rw [(LayoutState.advance?_frame advanced).1] at inductionHypothesis
    rw [List.flatMap_cons, C.ownedIn, nothing.1, nothing.2, inductionHypothesis]
  | @atCursor name ty fields state final transfer steps moved rest inductionHypothesis =>
    have nothing : state.seed.flatMap Step.owned = [] := by
      rw [LayoutState.seed]
      split <;> rfl
    have same : (Step.move ⟨state.scope, name⟩ transfer).owned = C.ownedBy state.scope name ty := by
      cases moved <;> rfl
    rw [List.flatMap_append, List.flatMap_cons, C.ownedIn, nothing, same, inductionHypothesis]
    rfl
  | nested within rest inductionWithin inductionRest =>
    rw [within.scope_ascend] at inductionRest
    rw [List.flatMap_append, C.ownedIn, C.ownedBy, inductionWithin, inductionRest]
    rfl

namespace C

/-! ## Accounts -/

/-- What a machine has to do with memory: what it was given, what it has asked for, and where it keeps
what it got. -/
structure Account where
  buffer : List UInt8
  length : UInt64
  grants : Nat → Bool
  requests : Nat
  handed : Nat
  freed : List (Option Nat)
  pointers : Lvalue → Option Nat

def Machine.account (m : Machine) : Account where
  buffer := m.buffer
  length := m.length
  grants := m.grants
  requests := m.requests
  handed := m.blocks.length
  freed := m.freed
  pointers := m.pointers

/-- A request between the two was refused. -/
def Refused (a b : Account) : Prop :=
  ∃ n, a.requests ≤ n ∧ n < b.requests ∧ a.grants n = false

/-- No pointers changed but `mine`, and these lead to the blocks that were handed out between the two,
to each of them one. -/
structure Acquires (mine : List Lvalue) (a b : Account) : Prop where
  buffer : b.buffer = a.buffer
  length : b.length = a.length
  grants : b.grants = a.grants
  freed : b.freed = a.freed
  requests : a.requests ≤ b.requests
  others : ∀ x, x ∉ mine → b.pointers x = a.pointers x
  blocks : ∃ count, b.handed = a.handed + count ∧ mine.filterMap b.pointers = List.range' a.handed count

section

variable {a b c : Account} {mine more : List Lvalue}

theorem not_refused_self (a : Account) : ¬ Refused a a := by
  rintro ⟨n, before, after, -⟩
  omega

theorem not_refused_of_granted (one : b.requests = a.requests + 1) (granted : a.grants a.requests = true) :
    ¬ Refused a b := by
  rintro ⟨n, before, after, refused⟩
  obtain rfl : n = a.requests := by omega
  rw [granted] at refused
  cases refused

theorem Acquires.refl (null : ∀ x ∈ mine, a.pointers x = none) : Acquires mine a a where
  buffer := rfl
  length := rfl
  grants := rfl
  freed := rfl
  requests := Nat.le_refl _
  others _ _ := rfl
  blocks := ⟨0, rfl, List.filterMap_eq_nil_iff.mpr null⟩

theorem Acquires.trans (first : Acquires mine a b) (second : Acquires more b c)
    (apart : ∀ x ∈ mine, x ∉ more) : Acquires (mine ++ more) a c where
  buffer := second.buffer.trans first.buffer
  length := second.length.trans first.length
  grants := second.grants.trans first.grants
  freed := second.freed.trans first.freed
  requests := Nat.le_trans first.requests second.requests
  others x other := by
    rw [List.mem_append, not_or] at other
    exact (second.others x other.2).trans (first.others x other.1)
  blocks := by
    obtain ⟨count, handed, filled⟩ := first.blocks
    obtain ⟨count', handed', filled'⟩ := second.blocks
    -- The second leaves the pointers of the first alone, so they still lead to the first's blocks.
    have kept : mine.filterMap c.pointers = mine.filterMap b.pointers :=
      List.filterMap_congr fun x listed => second.others x (apart x listed)
    refine ⟨count + count', by omega, ?_⟩
    rw [List.filterMap_append, kept, filled, filled', handed, List.range'_append_1]

theorem Acquires.refused_iff (first : Acquires mine a b) (second : Acquires more b c) :
    Refused a c ↔ Refused a b ∨ Refused b c := by
  have grants := first.grants
  have requests := first.requests
  have requests' := second.requests
  constructor
  · rintro ⟨n, before, after, refused⟩
    by_cases early : n < b.requests
    · exact .inl ⟨n, before, early, refused⟩
    · exact .inr ⟨n, Nat.le_of_not_lt early, after, grants ▸ refused⟩
  · rintro (⟨n, before, after, refused⟩ | ⟨n, before, after, refused⟩)
    · exact ⟨n, before, Nat.lt_of_lt_of_le after requests', refused⟩
    · exact ⟨n, Nat.le_trans requests before, after, grants ▸ refused⟩

theorem acquires_block (a : Account) (x : Lvalue) :
    Acquires [x] a { a with
      requests := a.requests + 1
      handed := a.handed + 1
      pointers := fun y => if y = x then some a.handed else a.pointers y } where
  buffer := rfl
  length := rfl
  grants := rfl
  freed := rfl
  requests := Nat.le_succ _
  others _ other := if_neg (List.mem_singleton.not.mp other)
  blocks := ⟨1, rfl, by simp [List.range']⟩

theorem acquires_null (a : Account) (x : Lvalue) (asked : Nat) :
    Acquires [x] a { a with
      requests := a.requests + asked
      pointers := fun y => if y = x then none else a.pointers y } where
  buffer := rfl
  length := rfl
  grants := rfl
  freed := rfl
  requests := Nat.le_add_right _ _
  others _ other := if_neg (List.mem_singleton.not.mp other)
  blocks := ⟨0, rfl, by simp⟩

end

/-! ## Triples -/

/-- How statements that fill `mine` may end.  They go on with all requests granted; or the function
returns, and says that there is no memory just if a request was refused; or they leave a buffer that is
shorter than the function was told. -/
inductive Tracked (after : Machine → Prop) (mine : List Lvalue) (m : Machine) :
    EStateM.Result Halt Machine Unit → Prop where
  | goesOn {m' : Machine} (acquires : Acquires mine m.account m'.account)
    (granted : ¬ Refused m.account m'.account) (holds : after m') : Tracked after mine m (.ok () m')
  | returns {status : Status} {m' : Machine} (acquires : Acquires mine m.account m'.account)
    (reason : status = .fault .allocationFailure ↔ Refused m.account m'.account) :
    Tracked after mine m (.error (.returned status) m')
  | leaves {m' : Machine} (beyond : m.buffer.length < m.length.toNat) :
    Tracked after mine m (.error .undefined m')

/-- From where `before` holds and none of `mine` points anywhere, a run fills them. -/
def Tracks (before after : Machine → Prop) (mine : List Lvalue) (run : Run Unit) : Prop :=
  ∀ m, before m → (∀ x ∈ mine, m.pointers x = none) → Tracked after mine m (run m)

variable {m m' : Machine} {before between after : Machine → Prop} {mine more : List Lvalue}
  {run next : Run Unit}

theorem Tracked.unchanged (same : m'.account = m.account) (null : ∀ x ∈ mine, m.pointers x = none)
    (holds : after m') : Tracked after mine m (.ok () m') := by
  apply Tracked.goesOn _ _ holds
  · rw [same]
    exact .refl null
  · rw [same]
    exact not_refused_self _

theorem Tracked.tooShort (same : m'.account = m.account) (null : ∀ x ∈ mine, m.pointers x = none) :
    Tracked after mine m (.error (.returned (.fault .bufferTooShort)) m') := by
  apply Tracked.returns
  · rw [same]
    exact .refl null
  · rw [same]
    exact iff_of_false (by simp) (not_refused_self _)

theorem Tracks.andThen (first : Tracks before between mine run) (second : Tracks between after more next)
    (apart : ∀ x ∈ mine, x ∉ more) : Tracks before after (mine ++ more) (do run; next) := by
  intro m holds null
  have untouched : ∀ m' : Machine, Acquires mine m.account m'.account →
      ∀ x ∈ more, m'.pointers x = none := by
    intro m' acquires x listed
    have other : x ∉ mine := fun listed' => apart x listed' listed
    exact (acquires.others x other).trans (null x (List.mem_append_right _ listed))
  have outcome := first m holds fun x listed => null x (List.mem_append_left _ listed)
  generalize ran : run m = result at outcome
  cases outcome with
  | goesOn acquires granted holds =>
    rw [Run.bind_of_ok ran]
    have outcome := second _ holds (untouched _ acquires)
    generalize next _ = result at outcome
    cases outcome with
    | goesOn acquires' granted' holds' =>
      apply Tracked.goesOn (acquires.trans acquires' apart) _ holds'
      rw [acquires.refused_iff acquires']
      exact not_or.mpr ⟨granted, granted'⟩
    | returns acquires' reason =>
      apply Tracked.returns (acquires.trans acquires' apart)
      rw [acquires.refused_iff acquires', reason]
      exact (or_iff_right granted).symm
    | leaves beyond =>
      apply Tracked.leaves
      change m.account.buffer.length < m.account.length.toNat
      rw [← acquires.buffer, ← acquires.length]
      exact beyond
  | returns acquires reason =>
    rw [Run.bind_of_halt ran]
    exact .returns (acquires.trans (.refl (untouched _ acquires)) apart) reason
  | leaves beyond =>
    rw [Run.bind_of_halt ran]
    exact .leaves beyond

theorem Tracks.mono {before' after' : Machine → Prop} (tracks : Tracks before after mine run)
    (fewer : ∀ m, before' m → before m) (more : ∀ m, after m → after' m) :
    Tracks before' after' mine run := by
  intro m holds null
  have outcome := tracks m (fewer m holds) null
  generalize run m = result at outcome ⊢
  cases outcome with
  | goesOn acquires granted holds => exact .goesOn acquires granted (more _ holds)
  | returns acquires reason => exact .returns acquires reason
  | leaves beyond => exact .leaves beyond

theorem tracks_of_unchanged
    (goes : ∀ m, before m → ∃ m', run m = .ok () m' ∧ m'.account = m.account ∧ after m') :
    Tracks before after [] run := by
  intro m holds null
  obtain ⟨m', ran, same, holds'⟩ := goes m holds
  rw [ran]
  exact .unchanged same null holds'

theorem tracks_nil : Tracks before before [] (Stmt.runAll []) :=
  tracks_of_unchanged fun m holds => ⟨m, by rw [Stmt.runAll]; rfl, rfl, holds⟩

/-- What has nothing to do with memory may stand in front of anything. -/
theorem Tracks.quietThen (first : Tracks before between [] run) (second : Tracks between after mine next) :
    Tracks before after mine (do run; next) :=
  first.andThen second (by simp)

theorem Tracks.quietCons {stmt : Stmt} {rest : List Stmt} (first : Tracks before between [] stmt.run)
    (second : Tracks between after mine (Stmt.runAll rest)) :
    Tracks before after mine (Stmt.runAll (stmt :: rest)) := by
  rw [Stmt.runAll]
  exact first.quietThen second

theorem Tracks.quietAppend {stmts rest : List Stmt} (first : Tracks before between [] (Stmt.runAll stmts))
    (second : Tracks between after mine (Stmt.runAll rest)) :
    Tracks before after mine (Stmt.runAll (stmts ++ rest)) := by
  rw [Stmt.runAll_append]
  exact first.quietThen second

theorem Tracks.append {stmts rest : List Stmt} (first : Tracks before between mine (Stmt.runAll stmts))
    (second : Tracks between after more (Stmt.runAll rest)) (apart : ∀ x ∈ mine, x ∉ more) :
    Tracks before after (mine ++ more) (Stmt.runAll (stmts ++ rest)) := by
  rw [Stmt.runAll_append]
  exact first.andThen second apart

/-! ## Single statements -/

/-- The cursor is in the buffer, as far as the function was told how long that is. -/
def Machine.InBuffer (m : Machine) : Prop :=
  m.offset.toNat ≤ m.length.toNat

def Machine.InRound (i : Nat) (m : Machine) : Prop :=
  m.InBuffer ∧ m.counter = i

theorem Tracks.anyRound (tracks : ∀ i, Tracks (Machine.InRound i) after mine run) :
    Tracks Machine.InBuffer after mine run :=
  fun m inside null => tracks m.counter m ⟨inside, rfl⟩ null

theorem tracks_declare (v : Var) : Tracks before before [] (Stmt.declare v).run :=
  tracks_of_unchanged fun m holds => ⟨m, run_declare v m, rfl, holds⟩

theorem copyIn_of_beyond {memory : Memory} {position count : Nat} (beyond : m.buffer.length < position + count) :
    Run.copyIn memory position count m = .error .undefined m := by
  have absent : slice? m.buffer position count = none := if_neg (Nat.not_le.mpr beyond)
  apply run_change_of_none
  rw [absent]
  rfl

theorem Machine.account_receive (m : Machine) (x : Lvalue) (bytes : List UInt8) :
    (m.receive x bytes).account = m.account := by
  cases x with
  | var v => cases v <;> rfl
  | _ => rfl

theorem Machine.length_receive (m : Machine) (x : Lvalue) (bytes : List UInt8) :
    (m.receive x bytes).length = m.length :=
  congrArg Account.length (m.account_receive x bytes)

theorem Machine.offset_receive {x : Lvalue} (other : x ≠ .var .offset) (m : Machine) (bytes : List UInt8) :
    (m.receive x bytes).offset = m.offset := by
  cases x with
  | var v =>
    cases v with
    | offset => exact absurd rfl other
    | _ => rfl
  | _ => rfl

theorem Machine.counter_receive (m : Machine) (x : Lvalue) (bytes : List UInt8) :
    (m.receive x bytes).counter = m.counter := by
  cases x with
  | var v => cases v <;> rfl
  | _ => rfl

theorem tracks_moveFixed_static {offset width size : Nat} (covered : offset + width ≤ size)
    (small : size < 2 ^ 64) (x : Lvalue) :
    Tracks (fun m => size ≤ m.length.toNat) (fun m => size ≤ m.length.toNat) []
      (Stmt.runAll (moveFixed .read x width (.static offset))) := by
  intro m room null
  by_cases there : offset + width ≤ m.buffer.length
  · obtain ⟨bytes, long, holds⟩ := exists_holds there
    rw [runAll_moveFixed_read_static (by omega) long holds]
    apply Tracked.unchanged (m.account_receive x bytes) null
    rw [m.length_receive]
    exact room
  · have copied : (Stmt.copy .read (.object x) (.literal offset) (.literal width)).run m =
        .error .undefined m := by
      rw [run_copy_read rfl rfl, toNat_toUInt64 (by omega), toNat_toUInt64 (by omega)]
      exact copyIn_of_beyond (by omega)
    rw [moveFixed, Stmt.runAll_cons_of_halt copied]
    exact .leaves (by omega)

theorem tracks_moveFixed_inRound {width : Nat} (small : width < 2 ^ 64) {x : Lvalue}
    (other : x ≠ .var .offset) (i : Nat) :
    Tracks (Machine.InRound i) (Machine.InRound i) [] (Stmt.runAll (moveFixed .read x width .cursor)) := by
  rintro m ⟨inside, round⟩ null
  have fits := m.length.toNat_lt
  change m.offset.toNat ≤ m.length.toNat at inside
  by_cases room : m.offset.toNat + width ≤ m.length.toNat
  · by_cases there : m.offset.toNat + width ≤ m.buffer.length
    · obtain ⟨bytes, long, holds⟩ := exists_holds there
      rw [runAll_moveFixed_read_cursor room long holds]
      have cursor := m.offset_receive other bytes
      refine .unchanged (m.account_receive x bytes) null ⟨?_, (m.counter_receive x bytes).trans round⟩
      change ((m.receive x bytes).advance width).offset.toNat ≤ (m.receive x bytes).length.toNat
      rw [m.length_receive, Machine.toNat_advance (by rw [cursor]; omega), cursor]
      exact room
    · have checked : (guardRoom (.literal width)).run m = .ok () m := by
        rw [run_guardRoom rfl inside, if_neg (by rw [toNat_toUInt64 small]; omega)]
      have copied : (Stmt.copy .read (.object x) (.var .offset) (.literal width)).run m =
          .error .undefined m := by
        rw [run_copy_read rfl rfl, toNat_toUInt64 small]
        exact copyIn_of_beyond (Nat.lt_of_not_le there)
      rw [moveFixed, Stmt.runAll_cons_of_ok checked, Stmt.runAll_cons_of_halt copied]
      exact .leaves (by omega)
  · rw [runAll_moveFixed_cursor_of_short inside small (by omega)]
    exact .tooShort rfl null

theorem tracks_moveFixed_cursor {width : Nat} (small : width < 2 ^ 64) {x : Lvalue}
    (other : x ≠ .var .offset) :
    Tracks Machine.InBuffer Machine.InBuffer [] (Stmt.runAll (moveFixed .read x width .cursor)) := by
  apply Tracks.anyRound
  intro i
  exact (tracks_moveFixed_inRound small other i).mono (fun _ => id) fun _ => And.left

theorem tracks_guardRoom_len (i : Nat) :
    Tracks (Machine.InRound i)
      (fun m => m.offset.toNat + m.len.toNat ≤ m.length.toNat ∧ m.counter = i) []
      (guardRoom (.var .len)).run := by
  rintro m ⟨inside, round⟩ null
  have announced : (Expr.var .len).eval? m = some m.len.toUInt64 := rfl
  rw [run_guardRoom announced inside, UInt32.toNat_toUInt64]
  split
  · exact .tooShort rfl null
  · rename_i long
    exact .unchanged rfl null ⟨Nat.le_of_not_lt long, round⟩

def Machine.withoutBlock (m : Machine) (x : Lvalue) : Machine :=
  { m with requests := m.requests + 1 }.setPointer x none

theorem runAll_textBody_of_refused {x : Lvalue} (refused : m.grants m.requests = false) :
    Stmt.runAll (textBody x) m = .error (.returned (.fault .allocationFailure)) (m.withoutBlock x) := by
  have allocated : (Stmt.allocate x (.add (.cast .size (.var .len)) (.literal 1))).run m =
      .ok () (m.withoutBlock x) := by
    rw [Stmt.run, Run.bind_of_ok (run_eval rfl), Run.allocate]
    exact congrArg (EStateM.Result.ok ()) (if_neg (by simp [refused]))
  have test : (Expr.isNull x).eval? (m.withoutBlock x) = some (Expr.ofTest true) := by
    have null : (m.withoutBlock x).pointers ((m.withoutBlock x).locate x) = none := if_pos rfl
    rw [Expr.eval?, null]
    rfl
  rw [textBody, Stmt.runAll_cons_of_ok allocated, Stmt.runAll_cons_of_halt]
  rw [run_exitIf test]
  rfl

theorem tracks_textBody {x y : Lvalue} {i : Nat} (located : ∀ m : Machine, m.counter = i → m.locate x = y) :
    Tracks (fun m => m.offset.toNat + m.len.toNat ≤ m.length.toNat ∧ m.counter = i) Machine.InBuffer [y]
      (Stmt.runAll (textBody x)) := by
  rintro m ⟨room, round⟩ null
  have fits := m.length.toNat_lt
  have target := located m round
  cases granted : m.grants m.requests with
  | true =>
    by_cases there : m.offset.toNat + m.len.toNat ≤ m.buffer.length
    · obtain ⟨payload, long, holds⟩ := exists_holds there
      rw [runAll_textBody long.symm holds granted]
      apply Tracked.goesOn
      · have acquires := acquires_block m.account y
        rw [← target] at acquires ⊢
        simpa [Machine.account, Machine.advance, Machine.withBlock] using acquires
      · exact not_refused_of_granted rfl granted
      · change ((m.withBlock x (payload ++ [0])).advance payload.length).offset.toNat ≤ m.length.toNat
        have cursor : (m.withBlock x (payload ++ [0])).offset = m.offset := rfl
        rw [Machine.toNat_advance (by rw [cursor]; omega), cursor, long]
        exact room
    · have copied : ∀ block, (Stmt.copy .read (.pointee x) (.var .offset) (.var .len)).run
          (m.withBlock x block) = .error .undefined (m.withBlock x block) := by
        intro block
        rw [run_copy_read rfl rfl]
        apply copyIn_of_beyond
        change m.buffer.length < m.offset.toNat + m.len.toUInt64.toNat
        rw [UInt32.toNat_toUInt64]
        omega
      rw [runAll_textBody_of_granted granted, textFill, Stmt.runAll_cons_of_halt (copied _)]
      exact .leaves (by omega)
  | false =>
    rw [runAll_textBody_of_refused granted]
    apply Tracked.returns
    · have acquires := acquires_null m.account y 1
      rw [← target] at acquires ⊢
      exact acquires
    · exact iff_of_true rfl ⟨m.requests, Nat.le_refl _, Nat.lt_succ_self _, granted⟩

theorem tracks_moveText {x y : Lvalue} {i : Nat} (located : ∀ m : Machine, m.counter = i → m.locate x = y) :
    Tracks (Machine.InRound i) Machine.InBuffer [y] (Stmt.runAll (moveText .read x)) := by
  have header : Tracks (Machine.InRound i) (Machine.InRound i) []
      (Stmt.runAll (.declare .len :: moveFixed .read (.var .len) lengthWidth .cursor)) :=
    (tracks_declare .len).quietCons (tracks_moveFixed_inRound (by decide) (by simp) i)
  have payload : Tracks (Machine.InRound i) Machine.InBuffer [y]
      (Stmt.runAll (guardRoom (.var .len) :: textBody x)) :=
    (tracks_guardRoom_len i).quietCons (tracks_textBody located)
  exact header.quietAppend payload

theorem tracks_texts (place : Place) (i count : Nat) :
    Tracks Machine.InBuffer Machine.InBuffer ((List.range' i count).map fun j => .item place (.literal j))
      (Run.repeated (Stmt.runAll (moveText .read (.item place .counter))) i count) := by
  -- By induction on the rounds that are left; each one fills the element at its own index.
  induction count generalizing i with
  | zero => exact tracks_of_unchanged fun m inside => ⟨m, rfl, rfl, inside⟩
  | succ count inductionHypothesis =>
    have started : Tracks Machine.InBuffer (Machine.InRound i) []
        (modify fun m : Machine => { m with counter := i }) :=
      tracks_of_unchanged fun m inside => ⟨{ m with counter := i }, rfl, rfl, inside, rfl⟩
    have round : Tracks (Machine.InRound i) Machine.InBuffer [.item place (.literal i)]
        (Stmt.runAll (moveText .read (.item place .counter))) := by
      apply tracks_moveText
      rintro m rfl
      rfl
    refine started.quietThen (round.andThen (inductionHypothesis (i + 1)) ?_)
    intro x own later
    obtain rfl := List.mem_singleton.mp own
    obtain ⟨j, listed, same⟩ := List.mem_map.mp later
    cases same
    have := (List.mem_range'_1.mp listed).1
    omega

theorem tracks_ifElse {test : Expr} {body other : List Stmt} (value : ∀ m, ∃ n, test.eval? m = some n)
    (tracksBody : Tracks before after mine (Stmt.runAll body))
    (tracksOther : Tracks before after mine (Stmt.runAll other)) :
    Tracks before after mine (Stmt.ifElse test body other).run := by
  intro m holds null
  obtain ⟨n, value⟩ := value m
  rw [Stmt.run, Run.bind_of_ok (run_eval value)]
  split
  · exact tracksBody m holds null
  · exact tracksOther m holds null

theorem tracks_moveOptional {present : Expr} {absent : Stmt} {body : List Stmt}
    (tracksAbsent : Tracks Machine.InBuffer Machine.InBuffer mine absent.run)
    (tracksBody : Tracks Machine.InBuffer Machine.InBuffer mine (Stmt.runAll body)) :
    Tracks Machine.InBuffer Machine.InBuffer mine (moveOptional .read present absent body).run := by
  have flag : Tracks Machine.InBuffer Machine.InBuffer []
      (Stmt.runAll (.declare .flag :: moveFixed .read (.var .flag) flagWidth .cursor)) :=
    (tracks_declare .flag).quietCons (tracks_moveFixed_cursor (by decide) (by simp))
  have choice : Tracks Machine.InBuffer Machine.InBuffer mine
      (Stmt.ifElse (.not (.var .flag)) [absent] body).run := by
    apply tracks_ifElse (fun m => ⟨_, rfl⟩) _ tracksBody
    rw [Stmt.runAll_singleton]
    exact tracksAbsent
  rw [moveOptional, Stmt.run]
  refine flag.quietAppend ?_
  rw [Stmt.runAll_singleton]
  exact choice

/-! ## Steps -/

theorem tracks_assign (x : Lvalue) (n : Nat) :
    Tracks Machine.InBuffer Machine.InBuffer [] (Stmt.assign x (.literal n)).run := by
  refine tracks_of_unchanged fun m inside => ⟨m.setObject x (littleEndian 1 n.toUInt64.toNat), ?_, rfl, inside⟩
  rw [Stmt.run, Run.bind_of_ok (run_eval rfl)]
  rfl

theorem tracks_assignNull (place : Place) :
    Tracks Machine.InBuffer Machine.InBuffer [.field place] (Stmt.assignNull (.field place)).run := by
  intro m inside null
  have ran : (Stmt.assignNull (.field place)).run m = .ok () (m.setPointer (.field place) none) := by
    rw [Stmt.run]
    rfl
  rw [ran]
  exact .goesOn (acquires_null m.account (.field place) 0) (not_refused_self m.account) inside

/-- One step behind the start of the cursor fills the pointers that it owns. -/
theorem tracks_step {step : Step} (behind : step.AtCursor) (small : ∀ n ∈ step.sizes, n < 2 ^ 64) :
    Tracks Machine.InBuffer Machine.InBuffer step.owned (Stmt.runAll (stepStmts .read step)) := by
  have text : ∀ place : Place, Tracks Machine.InBuffer Machine.InBuffer [.field place]
      (Stmt.runAll (moveText .read (.field place))) :=
    fun place => .anyRound fun i => tracks_moveText fun _ _ => rfl
  obtain ⟨moves, cursor⟩ := behind
  cases step with
  | seedCursor offset => cases moves
  | move place transfer =>
    cases transfer with
    | scalar kind access =>
      obtain rfl := cursor access kind.width rfl
      exact tracks_moveFixed_cursor (small _ (by simp [Step.sizes])) (by simp)
    | block ty length access =>
      obtain rfl := cursor access length rfl
      exact tracks_moveFixed_cursor (small _ (by simp [Step.sizes])) (by simp)
    | text =>
      rw [stepStmts, moveField, Stmt.runAll_singleton, Stmt.run]
      exact text place
    | texts count =>
      rw [stepStmts, moveField, Stmt.runAll_singleton, Stmt.run, Step.owned, List.range_eq_range']
      exact tracks_texts place 0 count
    | optionalText =>
      rw [stepStmts, moveField, Stmt.runAll_singleton]
      exact tracks_moveOptional (tracks_assignNull place) (text place)
    | optionalScalar kind =>
      rw [stepStmts, moveField, Stmt.runAll_singleton]
      apply tracks_moveOptional (tracks_assign _ 0)
      have wide : kind.width < 2 ^ 64 := small _ (by simp [Step.sizes])
      refine (tracks_moveFixed_cursor wide (by simp)).quietAppend ?_
      rw [Stmt.runAll_singleton]
      exact tracks_assign _ 1

theorem tracks_steps {steps : List Step} (behind : ∀ step ∈ steps, step.AtCursor)
    (small : ∀ step ∈ steps, ∀ n ∈ step.sizes, n < 2 ^ 64) (distinct : (steps.flatMap Step.owned).Nodup) :
    Tracks Machine.InBuffer Machine.InBuffer (steps.flatMap Step.owned)
      (Stmt.runAll (steps.flatMap (stepStmts .read))) := by
  induction steps with
  | nil => exact tracks_nil
  | cons step steps inductionHypothesis =>
    rw [List.flatMap_cons, List.nodup_append] at distinct
    obtain ⟨-, distinctRest, apart⟩ := distinct
    have rest := inductionHypothesis (fun step listed => behind step (List.mem_cons_of_mem _ listed))
      (fun step listed => small step (List.mem_cons_of_mem _ listed)) distinctRest
    rw [List.flatMap_cons, List.flatMap_cons]
    refine (tracks_step (behind step List.mem_cons_self) (small step List.mem_cons_self)).append rest ?_
    exact fun x listed listed' => apart x listed x listed' rfl

theorem tracks_tiles {start finish : Nat} {steps : List Step} (tiles : Tiles start steps finish)
    (small : finish < 2 ^ 64) :
    steps.flatMap Step.owned = [] ∧
      Tracks (fun m => finish ≤ m.length.toNat) (fun m => finish ≤ m.length.toNat) []
        (Stmt.runAll (steps.flatMap (stepStmts .read))) := by
  induction tiles with
  | nil => exact ⟨rfl, tracks_nil⟩
  | @cons start width finish step steps extent rest inductionHypothesis =>
    obtain ⟨nothing, tracksRest⟩ := inductionHypothesis small
    have covered := rest.le
    have first : step.owned = [] ∧ Tracks (fun m => finish ≤ m.length.toNat)
        (fun m => finish ≤ m.length.toNat) [] (Stmt.runAll (stepStmts .read step)) := by
      cases step with
      | seedCursor offset => cases extent
      | move place transfer =>
        cases transfer with
        | scalar kind access | block ty length access =>
          cases extent
          exact ⟨rfl, tracks_moveFixed_static covered small _⟩
        | _ => cases extent
    rw [List.flatMap_cons, List.flatMap_cons, first.1, nothing]
    exact ⟨rfl, first.2.quietAppend tracksRest⟩

theorem tracks_seedCursor {size : Nat} (small : size < 2 ^ 64) :
    Tracks (fun m => size ≤ m.length.toNat) Machine.InBuffer []
      (Stmt.runAll (stepStmts .read (.seedCursor size))) := by
  refine tracks_of_unchanged fun m room => ⟨m.setVar .offset size.toUInt64, ?_, rfl, ?_⟩
  · rw [stepStmts, Stmt.runAll_singleton]
    exact run_define rfl
  · change size.toUInt64.toNat ≤ m.length.toNat
    rw [toNat_toUInt64 small]
    exact room

theorem tracks_staged {finish : Nat} {last : Access} {steps : List Step}
    (staged : Staged finish (.static 0) steps last) (small : finish < 2 ^ 64)
    (smallSteps : ∀ step ∈ steps, ∀ n ∈ step.sizes, n < 2 ^ 64)
    (distinct : (steps.flatMap Step.owned).Nodup) :
    Tracks (fun m => finish ≤ m.length.toNat) (fun _ => True) (steps.flatMap Step.owned)
      (Stmt.runAll (steps.flatMap (stepStmts .read))) := by
  -- The fixed part owns nothing, so all pointers belong to steps behind the start of the cursor.
  cases staged with
  | fixed tiles =>
    obtain ⟨nothing, tracks⟩ := tracks_tiles tiles small
    rw [nothing]
    exact tracks.mono (fun _ => id) fun _ _ => trivial
  | @started _ first steps rest tiles varies behind =>
    obtain ⟨nothing, tracksFixed⟩ := tracks_tiles tiles small
    rw [List.flatMap_append, nothing, List.nil_append, List.flatMap_cons] at distinct ⊢
    rw [List.flatMap_append, List.flatMap_cons]
    have tracksRest := tracks_steps behind (fun step listed => smallSteps step (by simp_all)) distinct
    have tracks := tracksFixed.quietAppend ((tracks_seedCursor small).quietAppend tracksRest)
    exact tracks.mono (fun _ => id) fun _ _ => trivial

/-! ## Readers -/

theorem owns_of_mem_ownedBy {scope : Scope} {name : String} {ty : FieldType}
    (flat : ∀ inner, ty ≠ .struct inner) {x : Lvalue} (listed : x ∈ ownedBy scope name ty) :
    Owns ⟨scope, name⟩ x := by
  unfold ownedBy at listed
  split at listed
  · exact .inl (List.mem_singleton.mp listed)
  · exact .inl (List.mem_singleton.mp listed)
  · obtain ⟨i, -, rfl⟩ := List.mem_map.mp listed
    exact .inr (.inl ⟨_, rfl⟩)
  · exact absurd rfl (flat _)
  · cases listed

theorem nodup_ownedBy {ty : FieldType} (flat : ∀ inner, ty ≠ .struct inner) (scope : Scope) (name : String) :
    (ownedBy scope name ty).Nodup := by
  unfold ownedBy
  split
  · simp
  · simp
  · refine List.Nodup.map ?_ List.nodup_range
    intro i j same
    cases same
    rfl
  · exact absurd rfl (flat _)
  · simp

/-- A reader always returns, unless it was told of a buffer that is longer than the one it has.  Then
the pointers that the fields own lead to all memory that it was handed. -/
theorem tracked_reader {fields : List Field} {base : String} {plan : Plan}
    (built : Plan.build fields base = .ok plan) (distinct : (ownedIn { base } fields).Nodup)
    (null : ∀ x ∈ ownedIn { base } fields, m.pointers x = none) :
    Tracked (fun _ => False) (ownedIn { base } fields) m (Stmt.runAll (planStmts .read plan) m) := by
  have small := Plan.fixedSize_lt built
  obtain ⟨final, laid, size⟩ := Plan.laidOut_of_build built
  have staged := laid.staged
  rw [← size] at staged
  have owned := laid.owned_eq
  change plan.steps.flatMap Step.owned = ownedIn { base } fields at owned
  have literal : ∀ step ∈ plan.steps, ∀ n ∈ step.sizes, n < 2 ^ 64 := fun step listed n size =>
    Nat.lt_of_le_of_lt (laid.sizes_le (Nat.zero_le _) step listed n size) (by decide)
  rw [← owned] at distinct null ⊢
  rw [runAll_planStmts small]
  split
  · exact .tooShort rfl null
  · rename_i room
    have returned : Tracks (fun _ => True) (fun _ => False) [] (Stmt.runAll [.exit .ok]) := by
      intro m _ null
      rw [Stmt.runAll_singleton, Stmt.run]
      exact .returns (.refl null) (iff_of_false (by simp) (not_refused_self _))
    have tracks := (tracks_staged staged small literal distinct).append returned (by simp)
    rw [List.append_nil] at tracks
    exact tracks m (Nat.le_of_not_lt room) null

end C

end PackedRecord
