import PackedRecord.C.Codec
import PackedRecord.C.Machine
import PackedRecord.Proofs.Plan.Reading

/-!
# Running generated statements

Equations for the statements that generated readers and writers are made of: each says what a
statement, or the few statements that always stand together, do to a machine on which they have a
meaning.

* `run_guardRoom`: the check in front of every copy at the cursor.  Its subtraction does not wrap
  while the cursor is in the buffer.
* `runAll_moveFixed_cursor_of_short`: where it fails, the function returns.
-/

namespace PackedRecord

theorem ofLittleEndian_singleton (b : UInt8) : ofLittleEndian [b] = b.toNat := by
  simp [ofLittleEndian]

theorem toNat_toUInt64 {n : Nat} (small : n < 2 ^ 64) : n.toUInt64.toNat = n := by
  rw [Nat.toUInt64, UInt64.toNat_ofNat', Nat.mod_eq_of_lt small]

namespace C

/-! ## Sequences -/

namespace Run

variable {α β : Type} {run : Run α} {next : α → Run β} {a : α} {m m' : Machine} {halt : Halt}

theorem bind_of_ok (ran : run m = .ok a m') : (run >>= next) m = next a m' := by
  simp only [bind, EStateM.bind, ran]

theorem bind_of_halt (ran : run m = .error halt m') : (run >>= next) m = .error halt m' := by
  simp only [bind, EStateM.bind, ran]

end Run

namespace Stmt

variable {stmt : Stmt} {rest : List Stmt} {m m' : Machine} {halt : Halt}

theorem runAll_append (first second : List Stmt) :
    runAll (first ++ second) = (do runAll first; runAll second) := by
  induction first with
  | nil =>
    rw [List.nil_append, runAll]
    rfl
  | cons stmt first inductionHypothesis =>
    rw [List.cons_append, runAll, runAll, inductionHypothesis, bind_assoc]

theorem runAll_cons_of_ok (ran : stmt.run m = .ok () m') : runAll (stmt :: rest) m = runAll rest m' := by
  rw [runAll, Run.bind_of_ok ran]

theorem runAll_cons_of_halt (ran : stmt.run m = .error halt m') :
    runAll (stmt :: rest) m = .error halt m' := by
  rw [runAll, Run.bind_of_halt ran]

theorem runAll_append_of_ok {first : List Stmt} (ran : runAll first m = .ok () m') :
    runAll (first ++ rest) m = runAll rest m' := by
  rw [runAll_append, Run.bind_of_ok ran]

theorem runAll_append_of_halt {first : List Stmt} (ran : runAll first m = .error halt m') :
    runAll (first ++ rest) m = .error halt m' := by
  rw [runAll_append, Run.bind_of_halt ran]

theorem runAll_singleton (stmt : Stmt) : runAll [stmt] = stmt.run := by
  rw [runAll, runAll]
  funext m
  simp only [bind, EStateM.bind]
  cases stmt.run m <;> rfl

/-- A function whose statements run to their end returns success. -/
theorem runAll_exit {stmts : List Stmt} (ran : runAll stmts m = .ok () m') :
    runAll (stmts ++ [.exit .ok]) m = .error (.returned .ok) m' := by
  rw [runAll_append_of_ok ran, runAll_singleton, run]
  rfl

end Stmt

/-! ## Single statements -/

section

variable {m : Machine}

theorem run_eval {e : Expr} {n : UInt64} (value : e.eval? m = some n) : Run.eval e m = .ok n m := by
  have current : (get : Run Machine) m = .ok m m := rfl
  rw [Run.eval, Run.bind_of_ok current, value]
  rfl

theorem run_declare (v : Var) (m : Machine) : (Stmt.declare v).run m = .ok () m := rfl

theorem run_define {v : Var} {e : Expr} {n : UInt64} (value : e.eval? m = some n) :
    (Stmt.define v e).run m = .ok () (m.setVar v n) :=
  Run.bind_of_ok (run_eval value)

theorem run_increase {v : Var} {e : Expr} {n : UInt64} (value : e.eval? m = some n) :
    (Stmt.increase v e).run m = .ok () (m.setVar v (m.getVar v + n)) :=
  Run.bind_of_ok (run_eval value)

theorem run_exitIf {test : Expr} {status : Status} {b : Bool}
    (value : test.eval? m = some (Expr.ofTest b)) :
    (Stmt.exitIf test status).run m = if b then .error (.returned status) m else .ok () m := by
  apply (Run.bind_of_ok (run_eval value)).trans
  cases b <;> rfl

theorem run_ifThen {test : Expr} {body : List Stmt} {b : Bool}
    (value : test.eval? m = some (Expr.ofTest b)) :
    (Stmt.ifThen test body).run m = if b then Stmt.runAll body m else .ok () m := by
  apply (Run.bind_of_ok (run_eval value)).trans
  cases b <;> rfl

theorem run_copy_read {memory : Memory} {position count : Expr} {p n : UInt64}
    (start : position.eval? m = some p) (size : count.eval? m = some n) :
    (Stmt.copy .read memory position count).run m = Run.copyIn memory p.toNat n.toNat m :=
  (Run.bind_of_ok (run_eval start)).trans (Run.bind_of_ok (run_eval size))

theorem run_copy_write {memory : Memory} {position count : Expr} {p n : UInt64}
    (start : position.eval? m = some p) (size : count.eval? m = some n) :
    (Stmt.copy .write memory position count).run m = Run.copyOut memory p.toNat n.toNat m :=
  (Run.bind_of_ok (run_eval start)).trans (Run.bind_of_ok (run_eval size))

theorem run_change {f : Machine → Option Machine} {m' : Machine} (changed : f m = some m') :
    Run.change f m = .ok () m' := by
  have current : (get : Run Machine) m = .ok m m := rfl
  rw [Run.change, Run.bind_of_ok current, changed]
  rfl

theorem run_change_of_none {f : Machine → Option Machine} (undefined : f m = none) :
    Run.change f m = .error .undefined m := by
  have current : (get : Run Machine) m = .ok m m := rfl
  rw [Run.change, Run.bind_of_ok current, undefined]
  rfl

/-- The check in front of a copy at the cursor tells whether the bytes end in the buffer. -/
theorem run_guardRoom {count : Expr} {n : UInt64} (value : count.eval? m = some n)
    (inside : m.offset.toNat ≤ m.length.toNat) :
    (guardRoom count).run m =
      if m.length.toNat < m.offset.toNat + n.toNat then .error (.returned (.fault .bufferTooShort)) m
      else .ok () m := by
  have left : (m.length - m.offset).toNat = m.length.toNat - m.offset.toNat :=
    UInt64.toNat_sub_of_le _ _ (UInt64.le_iff_toNat_le.mpr inside)
  have test : Expr.eval? m (.less (.sub .length (.var .offset)) count) =
      some (Expr.ofTest (m.length.toNat < m.offset.toNat + n.toNat)) := by
    simp only [Expr.eval?, value, Machine.getVar, bind, Option.bind, pure, UInt64.lt_iff_toNat_lt, left,
      Option.some.injEq]
    congr 1
    rw [decide_eq_decide]
    omega
  rw [guardRoom, run_exitIf test]
  simp only [decide_eq_true_eq]

end

/-- One check covers all positions that are known in advance; the steps follow. -/
theorem runAll_planStmts {plan : Plan} (small : plan.fixedSize < 2 ^ 64) (direction : Direction)
    (m : Machine) :
    Stmt.runAll (planStmts direction plan) m =
      if m.length.toNat < plan.fixedSize then .error (.returned (.fault .bufferTooShort)) m
      else Stmt.runAll (plan.steps.flatMap (stepStmts direction) ++ [.exit .ok]) m := by
  by_cases none : plan.fixedSize = 0
  · rw [if_neg (by omega), planStmts, if_pos none, List.nil_append]
  · have test : (Expr.less .length (.literal plan.fixedSize)).eval? m =
        some (Expr.ofTest (m.length.toNat < plan.fixedSize)) := by
      simp only [Expr.eval?, Option.bind_eq_bind, Option.bind_some, pure, UInt64.lt_iff_toNat_lt,
        toNat_toUInt64 small]
    have checked : (Stmt.exitIf (.less .length (.literal plan.fixedSize)) (.fault .bufferTooShort)).run m =
        if m.length.toNat < plan.fixedSize then .error (.returned (.fault .bufferTooShort)) m
        else .ok () m := by
      rw [run_exitIf test]
      simp only [decide_eq_true_eq]
    simp only [planStmts, if_neg none, List.singleton_append]
    split
    · rename_i short
      exact Stmt.runAll_cons_of_halt (checked.trans (if_pos short))
    · rename_i long
      exact Stmt.runAll_cons_of_ok (checked.trans (if_neg long))

/-- At the cursor, nothing is moved that does not end in the buffer. -/
theorem runAll_moveFixed_cursor_of_short {m : Machine} {direction : Direction} {x : Lvalue} {width : Nat}
    (inside : m.offset.toNat ≤ m.length.toNat) (small : width < 2 ^ 64)
    (short : m.length.toNat < m.offset.toNat + width) :
    Stmt.runAll (moveFixed direction x width .cursor) m = .error (.returned (.fault .bufferTooShort)) m := by
  have checked : (guardRoom (.literal width)).run m = .error (.returned (.fault .bufferTooShort)) m := by
    rw [run_guardRoom rfl inside, if_pos (by rw [toNat_toUInt64 small]; exact short)]
  rw [moveFixed, Stmt.runAll_cons_of_halt checked]

/-! ## Moving the cursor -/

def Machine.advance (m : Machine) (n : Nat) : Machine :=
  { m with offset := m.offset + n.toUInt64 }

/-- The cursor does not wrap while it stays in a buffer whose length is known. -/
theorem Machine.toNat_advance {m : Machine} {n : Nat} (inside : m.offset.toNat + n < 2 ^ 64) :
    (m.advance n).offset.toNat = m.offset.toNat + n := by
  simp only [advance, UInt64.toNat_add, toNat_toUInt64 (show n < 2 ^ 64 by omega)]
  exact Nat.mod_eq_of_lt inside

/-- Where the position of the next field is known, the cursor is started there. -/
theorem runAll_seed {state : LayoutState} (static : ¬ state.dynamic = true) (direction : Direction)
    (stmts : List Stmt) (m : Machine) :
    Stmt.runAll (state.seed.flatMap (stepStmts direction) ++ stmts) m =
      Stmt.runAll stmts (m.setVar .offset state.staticOffset.toUInt64) := by
  rw [LayoutState.seed, if_neg static]
  exact Stmt.runAll_cons_of_ok (run_define rfl)

end C

end PackedRecord
