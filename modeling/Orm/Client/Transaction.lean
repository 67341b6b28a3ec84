import Mathlib

/-! Transactions of one connection: the outer one with its nested ones, and the calls that run
several statements in one. -/
namespace Orm.Logic

/-- The data that a transaction sees and its savepoints, the last one first. -/
structure Tx (D : Type) where
  data : D
  savepoints : List (String × D)

namespace Tx
variable {D : Type} (name : String) (t : Tx D)

def savepoint : Tx D := { t with savepoints := (name, t.data) :: t.savepoints }

/-- Undoes the work after the last savepoint of the name, which stays. -/
def rollbackTo : Tx D :=
  match t.savepoints.dropWhile (·.1 ≠ name) with
  | [] => t
  | (n, d) :: rest => ⟨d, (n, d) :: rest⟩

/-- Removes the last savepoint of the name and those after it. -/
def release : Tx D := { t with savepoints := (t.savepoints.dropWhile (·.1 ≠ name)).tail }

def setData (d : D) : Tx D := { t with data := d }

variable {name t}

@[simp] theorem savepoint_data : (t.savepoint name).data = t.data := rfl

@[simp] theorem savepoint_savepoints :
    (t.savepoint name).savepoints = (name, t.data) :: t.savepoints := rfl

@[simp] theorem release_data : (t.release name).data = t.data := rfl

@[simp] theorem setData_data (d : D) : (t.setData d).data = d := rfl

@[simp] theorem setData_savepoints (d : D) : (t.setData d).savepoints = t.savepoints := rfl

/-- Releasing the last savepoint. -/
theorem release_cons {d : D} {rest : List (String × D)} (h : t.savepoints = (name, d) :: rest) :
    (t.release name).savepoints = rest := by
  simp [release, h]

/-- Undoing the work after the last savepoint and releasing it. -/
theorem rollback_release {d : D} {rest : List (String × D)}
    (h : t.savepoints = (name, d) :: rest) : (t.rollbackTo name).release name = ⟨d, rest⟩ := by
  simp [rollbackTo, release, h]

end Tx

end Orm.Logic

namespace Orm.Client

open Orm.Logic (Tx)

/-- The savepoint of the nested transaction at a depth. -/
def savepointName (n : Nat) : String := s!"orm_sp_{n}"

/-- A connection: its committed data, and its active transaction with the number of nested
transactions in it. -/
structure Connection (D : Type) where
  committed : D
  active : Option (Tx D × Nat)

namespace Connection
variable {D : Type}

/-- The data that a statement on the connection sees. -/
def current (c : Connection D) : D :=
  match c.active with
  | some (t, _) => t.data
  | none => c.committed

def setCurrent (c : Connection D) (d : D) : Connection D :=
  match c.active with
  | some (t, n) => { c with active := some (t.setData d, n) }
  | none => { c with committed := d }

/-- Runs statements until one fails; a failing statement has no effect. -/
def execute : List (D → Option D) → Connection D → Connection D × Bool
  | [], c => (c, true)
  | st :: sts, c => match st c.current with
    | none => (c, false)
    | some d => execute sts (c.setCurrent d)

/-- Opens a transaction: inside an active one it is a savepoint. -/
def begin (c : Connection D) : Connection D :=
  match c.active with
  | some (t, n) => { c with active := some (t.savepoint (savepointName (n + 1)), n + 1) }
  | none => { c with active := some (⟨c.committed, []⟩, 0) }

/-- Ends a transaction, or the savepoint that stands for it: its work stays when the body
returned. -/
def finish (nested ok : Bool) (c : Connection D) : Connection D :=
  if nested then
    { c with active := c.active.map fun (t, n) =>
        (if ok then t.release (savepointName n)
          else (t.rollbackTo (savepointName n)).release (savepointName n), n - 1) }
  else ⟨if ok then c.current else c.committed, none⟩

/-- Runs a body in a transaction. -/
def transaction (body : Connection D → Connection D × Bool) (c : Connection D) :
    Connection D × Bool :=
  ((body c.begin).1.finish c.active.isSome (body c.begin).2, (body c.begin).2)

/-- Runs the body of a call in a transaction of the model's connection; a model without one runs it
in the innermost active transaction. -/
def inTransaction (connected : Bool) (body : Connection D → Connection D × Bool)
    (c : Connection D) : Connection D × Bool :=
  if connected then transaction body c
  else if c.active.isSome then body c else (c, false)

end Connection

/-- The data after the statements before the first failing one. -/
def applied {D : Type} : List (D → Option D) → D → D
  | [], d => d
  | st :: sts, d => match st d with
    | none => d
    | some d' => applied sts d'

namespace Connection
variable {D : Type} {c : Connection D} {sts : List (D → Option D)}

@[simp] theorem current_setCurrent (d : D) : (c.setCurrent d).current = d := by
  unfold setCurrent current
  cases c.active <;> rfl

theorem setCurrent_setCurrent (d e : D) : (c.setCurrent d).setCurrent e = c.setCurrent e := by
  unfold setCurrent
  cases h : c.active <;> simp [Tx.setData]

theorem setCurrent_current : c.setCurrent c.current = c := by
  obtain ⟨committed, active⟩ := c
  cases active <;> rfl

/-- Statements change the data of the connection only. -/
theorem execute_fst (sts : List (D → Option D)) (c : Connection D) :
    (execute sts c).1 = c.setCurrent (applied sts c.current) := by
  induction sts generalizing c with
  | nil => exact setCurrent_current.symm
  | cons st sts ih =>
    unfold execute applied
    cases st c.current with
    | none => exact setCurrent_current.symm
    | some d =>
      dsimp only
      rw [ih, setCurrent_setCurrent, current_setCurrent]

theorem begin_current : c.begin.current = c.current := by
  obtain ⟨committed, _ | ⟨t, n⟩⟩ := c <;> rfl

/-- Undoing a transaction leaves the connection as it was, whatever its statements did. -/
theorem finish_begin (d : D) : (c.begin.setCurrent d).finish c.active.isSome false = c := by
  obtain ⟨committed, _ | ⟨t, n⟩⟩ := c
  · rfl
  · simp only [begin, setCurrent, finish, Option.isSome_some, if_true, Option.map_some,
      Bool.false_eq_true, if_false, Nat.add_sub_cancel]
    rw [@Tx.rollback_release _ _ _ t.data t.savepoints rfl]

/-- A rejected body of a transaction leaves the connection as it was. -/
theorem transaction_rejected (h : (transaction (execute sts) c).2 = false) :
    (transaction (execute sts) c).1 = c := by
  have hrejected : (execute sts c.begin).2 = false := h
  rw [transaction, hrejected, execute_fst]
  exact finish_begin _

/-- A rejected call leaves the data as it was exactly when the model is connected, when no
transaction is active, or when the statements before the failing one changed nothing. -/
theorem inTransaction_rejected_iff {connected : Bool}
    (h : (inTransaction connected (execute sts) c).2 = false) :
    (inTransaction connected (execute sts) c).1.current = c.current ↔
      connected = true ∨ c.active = none ∨ applied sts c.current = c.current := by
  unfold inTransaction at h ⊢
  cases connected with
  | true =>
    rw [if_pos rfl] at h
    simp [transaction_rejected h]
  | false =>
    cases hactive : c.active with
    | none => simp
    | some t => simp [execute_fst]

end Connection

end Orm.Client
