import Orm.Logic.Stop
import Orm.Dbspec.Steps

/-! Apply, recover, rollback and finalize: the commands that run the plans of a chain step by step
and record each step in the history. -/
namespace Orm.Dbspec

open Orm.Logic (Cmd)

/-- The state of a recorded plan; `other` is a text that no command writes. -/
inductive HistoryState where
  | applying | applied | finalizing | done | rollingBack
  | other (s : String)
  deriving DecidableEq, Repr

def HistoryState.text : HistoryState → String
  | .applying => "applying" | .applied => "applied" | .finalizing => "finalizing"
  | .done => "done" | .rollingBack => "rolling_back" | .other s => s

/-- The plan is not interrupted. -/
def HistoryState.rests (s : HistoryState) : Bool := s = .applied || s = .done

structure HistoryRow where
  fromHash : String
  toHash : String
  state : HistoryState
  step : Nat
  deriving DecidableEq, Repr

inductive ApplyCode where
  | chain | drift | interrupted | verify | failed | irreversible | nulls | missing
  deriving DecidableEq, Repr

structure ApplyError where
  code : ApplyCode
  plan : String
  step : Nat
  detail : String
  deriving DecidableEq, Repr

/-- The answer of an introspection to the hash that it should have. -/
inductive Verified where
  | same
  | mismatch (message : String)
  | failed
  deriving DecidableEq, Repr

/-- What a database does: the effect of a statement, none when it fails, the answers to the effect
queries and to the introspection, and the NULL rows of a column and their default. -/
structure Db (S C : Type) where
  exec : S → C → Option C
  holds : Effect → C → Option Bool
  verify : String → C → Verified
  brokenForeignKeys : C → Nat
  nullRows : NullCheck → C → Nat
  fillNulls : NullCheck → C → C

/-- One statement sent to the database: its step, whether it is a rollback, and the catalog that it
ran or failed in. -/
structure Execution (S C : Type) where
  step : Nat
  back : Bool
  statement : S
  before : C

/-- The database: its catalog with its data and the history table, and the statements sent so far. -/
structure World (S C : Type) where
  catalog : C
  history : List (String × HistoryRow)
  log : List (Execution S C)

/-- The state of one command. -/
structure Applier (S C : Type) where
  chain : List Plan
  steps : Plan → Except String (List (Step S))
  db : Db S C

abbrev Command (S C α : Type) := Cmd (World S C) ApplyError α

section History

def rowOf (history : List (String × HistoryRow)) (p : Plan) : Option HistoryRow :=
  history.lookup p.name

/-- The history with the row of a plan changed or, without one, added. -/
def recordRow (p : Plan) (state : HistoryState) (step : Nat)
    (history : List (String × HistoryRow)) : List (String × HistoryRow) :=
  if (rowOf history p).isSome then
    history.map fun e => if e.1 = p.name then (e.1, { e.2 with state, step }) else e
  else history ++ [(p.name, ⟨hashOrEmpty p.from_, p.to, state, step⟩)]

def stepRow (p : Plan) (step : Nat) (history : List (String × HistoryRow)) :
    List (String × HistoryRow) :=
  history.map fun e => if e.1 = p.name then (e.1, { e.2 with step }) else e

def deleteRow (p : Plan) (history : List (String × HistoryRow)) : List (String × HistoryRow) :=
  history.filter (·.1 ≠ p.name)

def chainError (plan detail : String) : ApplyError := ⟨.chain, plan, 0, detail⟩

/-- The number of recorded plans from plan `i` of the chain on, after `found` of them. -/
def recorded (history : List (String × HistoryRow)) :
    Nat → Nat → List Plan → Except ApplyError Nat
  | _, found, [] => pure found
  | i, found, p :: ps =>
    match rowOf history p with
    | none => recorded history (i + 1) found ps
    | some row =>
      if row.toHash ≠ p.to ∨ row.fromHash ≠ hashOrEmpty p.from_ then
        .error (chainError p.name "the recorded plan has other hashes than the chain's plan")
      else if i ≠ found then
        .error (chainError p.name "a plan before it in the chain is not recorded")
      else match row.state with
        | .other s =>
          .error (chainError p.name s!"the recorded state {s} is not a history state")
        | _ => recorded history (i + 1) (i + 1) ps

/-- The plans before the last recorded one must rest. -/
def restingBefore (history : List (String × HistoryRow)) :
    List Plan → Except ApplyError PUnit.{1}
  | [] => pure ⟨⟩
  | p :: ps =>
    match rowOf history p with
    | none => .error ⟨.missing, p.name, 0, "this.history.get(p.name)"⟩
    | some row =>
      if row.state.rests then restingBefore history ps
      else .error (chainError p.name s!"a plan before the last is {row.state.text}")

/-- The number of recorded plans, which must be at the front of the chain. -/
def position (chain : List Plan) (history : List (String × HistoryRow)) :
    Except ApplyError Nat := do
  let found ← recorded history 0 0 chain
  if history.length ≠ found then
    .error (chainError "" "the history records a plan that is not in the chain")
  else
    restingBefore history (chain.take (found - 1))
    pure found

/-- The hash of the last recorded plan, which must rest; the empty text without one. -/
def settledHash (chain : List Plan) (history : List (String × HistoryRow)) (found : Nat) :
    Except ApplyError String :=
  if found = 0 then pure ""
  else match chain[found - 1]? with
    | none => .error ⟨.missing, "", 0, "this.chain[position - 1]"⟩
    | some p => match rowOf history p with
      | none => .error ⟨.missing, p.name, 0, "this.history.get(p.name)"⟩
      | some row =>
        if row.state.rests then pure p.to
        else .error ⟨.interrupted, p.name, row.step,
          s!"the plan is {row.state.text}; run recover or rollback"⟩

end History

/-- The index of the first finalize step. -/
def finalizeStart {S : Type} (steps : List (Step S)) : Nat := steps.findIdx Step.finalize

namespace Applier
variable {S C : Type} (a : Applier S C)

def fail {α : Type} (code : ApplyCode) (plan : String) (step : Nat) (detail : String) :
    Command S C α :=
  Cmd.fail ⟨code, plan, step, detail⟩

def record (p : Plan) (state : HistoryState) (step : Nat) : Command S C PUnit :=
  Cmd.write fun w => { w with history := recordRow p state step w.history }

def setStep (p : Plan) (step : Nat) : Command S C PUnit :=
  Cmd.write fun w => { w with history := stepRow p step w.history }

/-- The steps of a plan of the chain. -/
def stepsOf (p : Plan) : Command S C (List (Step S)) :=
  Cmd.check ((a.steps p).mapError (chainError p.name))

/-- The database after a statement was sent: a failing one has no effect. -/
def sent (i : Nat) (back : Bool) (statement : S) (w : World S C) : World S C :=
  { w with
    catalog := (a.db.exec statement w.catalog).getD w.catalog
    log := w.log ++ [⟨i, back, statement, w.catalog⟩] }

/-- Runs one statement of step `i`. -/
def run (p : Plan) (i : Nat) (back : Bool) (statement : S) : Command S C PUnit := do
  let w ← Cmd.read
  Cmd.write (a.sent i back statement)
  if (a.db.exec statement w.catalog).isSome then pure ⟨⟩
  else fail .failed p.name i "the statement failed"

/-- Whether the effect is in the database now. -/
def effect (p : Plan) (i : Nat) (e : Effect) : Command S C Bool := do
  let w ← Cmd.read
  match a.db.holds e w.catalog with
  | none => fail .failed p.name i "the effect query failed"
  | some b => pure b

def verify (p : Plan) (want : String) : Command S C PUnit := do
  let w ← Cmd.read
  match a.db.verify want w.catalog with
  | .same => pure ⟨⟩
  | _ => fail .verify p.name 0 ""

/-- On SQLite no row may break a foreign key; the other databases count none. -/
def foreignKeyCheck (p : Plan) : Command S C PUnit := do
  let w ← Cmd.read
  if a.db.brokenForeignKeys w.catalog = 0 then pure ⟨⟩
  else fail .verify p.name 0 s!"{a.db.brokenForeignKeys w.catalog} rows break a foreign key"

/-- No plan is interrupted and the catalog is the recorded schema. -/
def settled : Command S C Nat := do
  let w ← Cmd.read
  let found ← Cmd.check (position a.chain w.history)
  let want ← Cmd.check (settledHash a.chain w.history found)
  match a.db.verify want w.catalog with
  | .same => pure found
  | .mismatch message => fail .drift "" 0 message
  | .failed => fail .verify "" 0 ""

/-- The step to continue an interrupted plan from, forward or backward: the statement after the
recorded step may have run, and when rolling back the rollback of the last one. -/
def resolve (p : Plan) (row : HistoryRow) (steps : List (Step S)) (forward : Bool) :
    Command S C Nat := do
  let k := row.step
  if steps.length < k then
    Cmd.fail (chainError p.name s!"the recorded step {k} is outside the plan's {steps.length} steps")
  else
    let rolling : Bool := row.state = .rollingBack
    -- the uncertain step: none before the first and after the last
    match (if rolling then (if k = 0 then none else steps[k - 1]?) else steps[k]?) with
    | none => pure k
    | some s => do
      let e := s.effect
      let held ← (if e.kind = .repeat then pure false
        else a.effect p (if rolling then k - 1 else k) e : Command S C Bool)
      -- a repeat step runs again forward, and its rollback runs again backward
      let took := held || (!forward && e.kind = .repeat)
      pure (if rolling then (if took then k else k - 1) else if took then k + 1 else k)

/-- The statement of a step, or its restore statement when what it restores is there. -/
def chosen (p : Plan) (i : Nat) (statement : S) (restore : Option S) (restoreIf : Option Effect) :
    Command S C S :=
  match restore, restoreIf with
  | none, _ => pure statement
  | some _, none => fail .missing p.name i s!"step {i} has no effect to read"
  | some r, some e => do
    let there ← a.effect p i e
    pure (if there then r else statement)

/-- Runs the steps from step `i` on. -/
def forwardFrom (p : Plan) : Nat → List (Step S) → Command S C PUnit
  | _, [] => pure ⟨⟩
  | i, s :: rest => do
    let statement ← a.chosen p i s.statement s.restore s.restoreIf
    a.run p i false statement
    setStep p (i + 1)
    forwardFrom p (i + 1) rest

/-- Runs the steps from `start` up to the finalize steps, verifies and records the plan applied. -/
def forward (p : Plan) (steps : List (Step S)) (start : Nat) : Command S C PUnit := do
  let stop := finalizeStart steps
  a.forwardFrom p start ((steps.take stop).drop start)
  a.foreignKeyCheck p
  a.verify p p.to
  record p .applied stop

def applyPlan (p : Plan) : Command S C PUnit := do
  let steps ← a.stepsOf p
  record p .applying 0
  a.forward p steps 0

def applyAll : List Plan → Command S C PUnit
  | [] => pure ⟨⟩
  | p :: ps => do
    a.applyPlan p
    applyAll ps

/-- Applies the plans that the history does not record. -/
def applyPlans : Command S C PUnit := do
  let found ← a.settled
  a.applyAll (a.chain.drop found)

/-- Runs a body on the last recorded plan and its row. -/
def lastPlan (body : Plan → HistoryRow → Command S C PUnit) : Command S C PUnit := do
  let w ← Cmd.read
  let found ← Cmd.check (position a.chain w.history)
  if found = 0 then pure ⟨⟩
  else match a.chain[found - 1]? with
    | none => fail .missing "" 0 "a.chain[position - 1]"
    | some p => match rowOf w.history p with
      | none => fail .missing p.name 0 "a.history.get(p.name)"
      | some row => body p row

def irreversible {α : Type} (p : Plan) (i : Nat) (s : Step S) : Command S C α :=
  fail .irreversible p.name i
    (if s.finalize then "a finalize step has no rollback" else s.irreversible)

/-- Fills the NULL rows of the columns that the rollback makes non-null, or stops. -/
def nullChecks (p : Plan) : List (Nat × NullCheck) → Command S C PUnit
  | [] => pure ⟨⟩
  | (i, c) :: rest => do
    let w ← Cmd.read
    let n := a.db.nullRows c w.catalog
    if n = 0 then nullChecks p rest
    else if c.default.isNone then
      fail .nulls p.name i
        s!"column {c.table}.{c.column} has {n} NULL rows and no default to restore NOT NULL"
    else do
      Cmd.write fun w => { w with catalog := a.db.fillNulls c w.catalog }
      nullChecks p rest

/-- The null checks of steps with the indexes of their steps. -/
def nullChecksOf (steps : List (Step S)) : List (Nat × NullCheck) :=
  (steps.mapIdx fun i s => s.nullChecks.map fun c => (i, c)).flatten

/-- Runs the rollback statements of the first `k` steps, from the last on. -/
def backward (p : Plan) (steps : List (Step S)) : Nat → Command S C PUnit
  | 0 => pure ⟨⟩
  | i + 1 =>
    match steps[i]? with
    | none => fail .missing p.name i "steps[i]"
    | some s => match s.rollback with
      | none => irreversible p i s
      | some r => do
        let statement ← a.chosen p i r s.rollbackRestore s.restoreIf
        a.run p i true statement
        setStep p i
        backward p steps i

/-- The drift check of an applied plan before its rollback. -/
def driftCheck (p : Plan) : Command S C PUnit := do
  let w ← Cmd.read
  match a.db.verify p.to w.catalog with
  | .same => pure ⟨⟩
  | .mismatch message => fail .drift p.name 0 message
  | .failed => fail .verify p.name 0 ""

/-- The number of steps that a rollback has to undo. -/
def rollbackStart (p : Plan) (row : HistoryRow) (steps : List (Step S)) : Command S C Nat :=
  if row.state.rests then
    if steps.length < row.step then
      Cmd.fail (chainError p.name
        s!"the recorded step {row.step} is outside the plan's {steps.length} steps")
    else do
      a.driftCheck p
      pure row.step
  else a.resolve p row steps false

/-- The last step to undo must have a rollback. -/
def reversible (p : Plan) (steps : List (Step S)) (k : Nat) : Command S C PUnit :=
  match (if k = 0 then none else steps[k - 1]?) with
  | none => pure ⟨⟩
  | some s => if s.rollback.isNone then irreversible p (k - 1) s else pure ⟨⟩

/-- Undoes the last plan of the history down to its first step and deletes its row. -/
def rollbackPlans : Command S C PUnit :=
  a.lastPlan fun p row => do
    let steps ← a.stepsOf p
    let k ← a.rollbackStart p row steps
    reversible p steps k
    (if row.state.rests then a.nullChecks p (nullChecksOf (steps.take k)) else pure ⟨⟩ :
      Command S C PUnit)
    record p .rollingBack k
    a.backward p steps k
    a.foreignKeyCheck p
    a.verify p (p.from_.getD "")
    Cmd.write fun w => { w with history := deleteRow p w.history }

end Applier

end Orm.Dbspec
