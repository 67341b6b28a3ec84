import Orm.Client.Transaction
import Orm.Engine.Dialect

/-! The calls that write several rows: `creates` in batches and `delete(true)` with the related
rows. -/
namespace Orm.Client

open Orm.Engine (Dialect)

/-- The row counts of the batches of a multi-row insert. -/
def insertParts (rows batch : Nat) : List Nat :=
  if _h : rows = 0 ∨ batch = 0 then [] else
    min rows batch :: insertParts (rows - min rows batch) batch
termination_by rows
decreasing_by omega

/-- The values of parts, in order. -/
def slices {α : Type} : List Nat → List α → List (List α)
  | [], _ => []
  | n :: parts, xs => xs.take n :: slices parts (xs.drop n)

/-- A model with the columns that it sets, whether it sets stored values only, and its row. -/
structure SetModel (R : Type) where
  columns : List String
  stored : Bool
  row : R

section Creates
variable {R : Type}

/-- The rows of a table with a batch inserted, unless the database or the encoder refuses it. -/
def insertBatch (refuses : List R → List R → Bool) (columns : List String)
    (batch : List (SetModel R)) (table : List R) : Option (List R) :=
  if batch.any fun m => m.columns ≠ columns ∨ m.stored = false then none
  else if refuses (batch.map SetModel.row) table then none
  else some (table ++ batch.map SetModel.row)

def bindLimit (d : Dialect) : Nat := if d = .sqlite then 999 else 65535

/-- The inserts of `creates`, or none when it fails before any statement. -/
def createsStatements (d : Dialect) (refuses : List R → List R → Bool) (models : List (SetModel R))
    (batch : Int) : Option (List (List R → Option (List R))) :=
  if batch < 1 then none
  else match models with
    | [] => some []
    | first :: _ =>
      if first.columns = [] ∨ first.stored = false then none
      else
        let parts := insertParts models.length batch.toNat
        if parts.any fun part => bindLimit d < part * first.columns.length then none
        else some ((slices parts models).map (insertBatch refuses first.columns))

/-- Inserts models in batches of one statement each. -/
def creates (d : Dialect) (connected : Bool) (refuses : List R → List R → Bool)
    (models : List (SetModel R)) (batch : Int) (c : Connection (List R)) :
    Connection (List R) × Bool :=
  match createsStatements d refuses models batch with
  | none => (c, false)
  | some sts => c.inTransaction connected (Connection.execute sts)

end Creates

/-- The connections that a call can write through, and the one of the innermost active
transaction. -/
structure World (I D : Type) where
  conn : I → Connection D
  inner : Option I

/-- A loaded row with its connection and its related rows, each relation with whether it
cascades. -/
inductive RelatedRow (I K : Type) where
  | mk (conn : Option I) (key : K) (related : List (Bool × List (RelatedRow I K)))

section Delete
variable {I K R D : Type}

def RelatedRow.conn : RelatedRow I K → Option I
  | .mk conn _ _ => conn

mutual
/-- What `delete(true)` deletes, each row with its own connection, the related rows before the
row. -/
def RelatedRow.targets : RelatedRow I K → List (Option I × K)
  | .mk conn key related => relatedTargets related ++ [(conn, key)]
def relatedTargets : List (Bool × List (RelatedRow I K)) → List (Option I × K)
  | [] => []
  | (cascade, rows) :: related => (if cascade then rowTargets rows else []) ++ relatedTargets related
def rowTargets : List (RelatedRow I K) → List (Option I × K)
  | [] => []
  | row :: rows => row.targets ++ rowTargets rows
end

namespace World
variable [DecidableEq I]

/-- The data that a statement on a connection sees. -/
def current (w : World I D) (i : I) : D := (w.conn i).current

def setCurrent (w : World I D) (i : I) (d : D) : World I D :=
  { w with conn := Function.update w.conn i ((w.conn i).setCurrent d) }

/-- The connection of a model: its own one, or that of the innermost active transaction. -/
def resolve (w : World I D) (conn : Option I) : Option I := conn.or w.inner

/-- The world in the body of a call: a connected model opens a transaction. -/
def enter (w : World I D) : Option I → World I D
  | some i => ⟨Function.update w.conn i (w.conn i).begin, some i⟩
  | none => w

/-- The world after the body. -/
def leave (before : World I D) (ok : Bool) (w : World I D) : Option I → World I D
  | some i => ⟨Function.update w.conn i ((w.conn i).finish (before.conn i).active.isSome ok),
      before.inner⟩
  | none => w

variable [DecidableEq K]

/-- The rows of a table without the row of a key, unless the delete fails. -/
def deleteKey (keyOf : R → K) (refuses : I → K → List R → Bool) (i : I) (key : K)
    (table : List R) : Option (List R) :=
  if refuses i key table then none else some (table.filter fun row => keyOf row ≠ key)

variable (keyOf : R → K) (refuses : I → K → List R → Bool)

/-- Deletes rows until a delete fails, and tells which deletes ran. -/
def deletes : List (Option I × K) → World I (List R) → World I (List R) × List (I × K) × Bool
  | [], w => (w, [], true)
  | (conn, key) :: targets, w =>
    match w.resolve conn with
    | none => (w, [], false)
    | some i =>
      match deleteKey keyOf refuses i key (w.current i) with
      | none => (w, [], false)
      | some table =>
        let out := deletes targets (w.setCurrent i table)
        (out.1, (i, key) :: out.2.1, out.2.2)

/-- Deletes a row with its related rows: in a transaction of the row's connection, or in the
innermost active one when it has none. -/
def deleteRecursive (row : RelatedRow I K) (w : World I (List R)) :
    World I (List R) × List (I × K) × Bool :=
  if (w.resolve row.conn).isNone then (w, [], false)
  else
    let out := deletes keyOf refuses row.targets (w.enter row.conn)
    (w.leave out.2.2 out.1 row.conn, out.2)

end World

end Delete

section Undone
variable {R K : Type} [DecidableEq K]

/-- Inserts keep the rows of the table. -/
theorem length_le_applied (refuses : List R → List R → Bool) (columns : List String)
    (batches : List (List (SetModel R))) (table : List R) :
    table.length ≤ (applied (batches.map (insertBatch refuses columns)) table).length := by
  induction batches generalizing table with
  | nil => exact le_rfl
  | cons b batches ih =>
    rw [List.map_cons, applied]
    cases hb : insertBatch refuses columns b table with
    | none => exact le_rfl
    | some table' =>
      refine le_trans ?_ (ih table')
      unfold insertBatch at hb
      split at hb
      · cases hb
      · split at hb
        · cases hb
        · cases hb
          simp

/-- Inserts of batches that hold models change the table unless the first batch is refused. -/
theorem applied_inserts_iff {refuses : List R → List R → Bool} {columns : List String}
    {b : List (SetModel R)} (batches : List (List (SetModel R))) (hb : b ≠ []) (table : List R) :
    applied ((b :: batches).map (insertBatch refuses columns)) table = table ↔
      insertBatch refuses columns b table = none := by
  rw [List.map_cons, applied]
  cases hins : insertBatch refuses columns b table with
  | none => simp
  | some table' =>
    simp only [reduceCtorEq, iff_false]
    intro heq
    have hlen := length_le_applied refuses columns batches table'
    rw [heq] at hlen
    unfold insertBatch at hins
    split at hins
    · cases hins
    · split at hins
      · cases hins
      · cases hins
        have hpos := List.length_pos_iff.mpr hb
        simp only [List.length_append, List.length_map] at hlen
        omega

/-- The first batch of a call that sends statements holds models. -/
theorem createsStatements_cons {d : Dialect} {refuses : List R → List R → Bool}
    {models : List (SetModel R)} {batch : Int} {st : List R → Option (List R)}
    {sts : List (List R → Option (List R))}
    (h : createsStatements d refuses models batch = some (st :: sts)) :
    ∃ (columns : List String) (b : List (SetModel R)) (batches : List (List (SetModel R))),
      b ≠ [] ∧ st = insertBatch refuses columns b ∧
      sts = batches.map (insertBatch refuses columns) := by
  unfold createsStatements at h
  split at h
  · cases h
  · split at h
    · cases h
    · rename_i first rest
      split at h
      · cases h
      · dsimp only at h
        split at h
        · cases h
        · rw [insertParts] at h
          split at h
          · cases h
          · rename_i hpos
            simp only [slices, List.map_cons, Option.some.injEq, List.cons.injEq] at h
            refine ⟨first.columns, _, _, ?_, h.1.symm, h.2.symm⟩
            simp only [ne_eq, List.take_eq_nil_iff, not_or]
            exact ⟨by omega, by simp⟩

end Undone

namespace World
variable {I K R D : Type} [DecidableEq I] [DecidableEq K] {keyOf : R → K}
  {refuses : I → K → List R → Bool} {w : World I (List R)}

theorem current_setCurrent (w : World I D) (i j : I) (d : D) :
    (w.setCurrent i d).current j = if j = i then d else w.current j := by
  by_cases h : j = i
  · subst h
    simp [current, setCurrent]
  · simp [current, setCurrent, h]

theorem enter_current (w : World I D) (conn : Option I) (j : I) :
    (w.enter conn).current j = w.current j := by
  cases conn with
  | none => rfl
  | some i =>
    by_cases h : j = i
    · subst h
      simp [current, enter, Connection.begin_current]
    · simp [current, enter, h]

variable (keyOf refuses) in
/-- Deletes change the data of the connections only. -/
theorem deletes_conn (targets : List (Option I × K)) (w : World I (List R)) (j : I) :
    ∃ table, (deletes keyOf refuses targets w).1.conn j = (w.conn j).setCurrent table := by
  induction targets generalizing w with
  | nil => exact ⟨_, Connection.setCurrent_current.symm⟩
  | cons target targets ih =>
    unfold deletes
    split
    · exact ⟨_, Connection.setCurrent_current.symm⟩
    · rename_i i hi
      split
      · exact ⟨_, Connection.setCurrent_current.symm⟩
      · rename_i table htable
        obtain ⟨table', h⟩ := ih (w.setCurrent i table)
        refine ⟨table', h.trans ?_⟩
        by_cases hj : j = i
        · subst hj
          simp [setCurrent, Connection.setCurrent_setCurrent]
        · simp [setCurrent, hj]

variable (keyOf refuses) in
/-- Deletes only remove rows. -/
theorem deletes_sublist (targets : List (Option I × K)) (w : World I (List R)) (j : I) :
    List.Sublist ((deletes keyOf refuses targets w).1.current j) (w.current j) := by
  induction targets generalizing w with
  | nil => exact List.Sublist.refl _
  | cons target targets ih =>
    unfold deletes
    split
    · exact List.Sublist.refl _
    · rename_i i hi
      split
      · exact List.Sublist.refl _
      · rename_i table htable
        refine (ih _).trans ?_
        rw [current_setCurrent]
        split
        · rename_i hj
          subst hj
          unfold deleteKey at htable
          split_ifs at htable
          cases htable
          exact List.filter_sublist
        · exact List.Sublist.refl _

variable (keyOf refuses) in
/-- A connection has lost rows exactly when a delete that ran through it found one. -/
theorem deletes_current_iff (targets : List (Option I × K)) (w : World I (List R)) (j : I) :
    (deletes keyOf refuses targets w).1.current j = w.current j ↔
      ∀ key, (j, key) ∈ (deletes keyOf refuses targets w).2.1 →
        ∀ r ∈ w.current j, keyOf r ≠ key := by
  induction targets generalizing w with
  | nil => simp [deletes]
  | cons target targets ih =>
    unfold deletes
    split
    · simp
    · rename_i i hi
      split
      · simp
      · rename_i table htable
        have htable' : table = (w.current i).filter fun row => keyOf row ≠ target.2 := by
          unfold deleteKey at htable
          split_ifs at htable
          exact (Option.some.inj htable).symm
        have hnext := ih (w.setCurrent i table)
        rw [current_setCurrent] at hnext
        simp only [List.mem_cons, Prod.mk.injEq]
        by_cases hj : j = i
        · subst hj
          rw [if_pos rfl] at hnext
          by_cases hfound : ∀ r ∈ w.current j, keyOf r ≠ target.2
          · have hsame : table = w.current j := by
              rw [htable', List.filter_eq_self]
              simpa using hfound
            rw [hsame] at hnext
            rw [hsame, hnext]
            constructor
            · rintro h key (⟨-, rfl⟩ | hmem)
              · exact hfound
              · exact h key hmem
            · exact fun h key hmem => h key (.inr hmem)
          · refine iff_of_false ?_ fun h => hfound (h target.2 (.inl ⟨rfl, rfl⟩))
            intro heq
            have hle := (deletes_sublist keyOf refuses targets (w.setCurrent j table) j).length_le
            rw [heq, current_setCurrent, if_pos rfl, htable'] at hle
            refine hfound fun r hr => ?_
            have hall := List.filter_eq_self.mp
              (List.filter_sublist.eq_of_length_le hle) r hr
            simpa using hall
        · rw [if_neg hj] at hnext
          rw [hnext]
          simp [hj]

/-- A rejected `delete(true)` leaves no row deleted exactly when each delete that ran did so in the
transaction of the row's own connection or found no row. -/
theorem deleteRecursive_rejected_iff {row : RelatedRow I K}
    (h : (deleteRecursive keyOf refuses row w).2.2 = false) :
    (∀ j, (deleteRecursive keyOf refuses row w).1.current j = w.current j) ↔
      ∀ d ∈ (deleteRecursive keyOf refuses row w).2.1, some d.1 = row.conn ∨
        ∀ r ∈ w.current d.1, keyOf r ≠ d.2 := by
  unfold deleteRecursive at h ⊢
  split
  · simp
  · rename_i hsome
    rw [if_neg hsome] at h
    dsimp only at h ⊢
    have hcurrent (j : I) := enter_current w row.conn j
    have hiff (j : I) := deletes_current_iff keyOf refuses row.targets (w.enter row.conn) j
    simp only [hcurrent] at hiff
    -- the connection of the row gets back its data, any other one keeps what the deletes left
    have hleave (j : I) : (w.leave (deletes keyOf refuses row.targets (w.enter row.conn)).2.2
        (deletes keyOf refuses row.targets (w.enter row.conn)).1 row.conn).current j =
          w.current j ↔ some j = row.conn ∨ (deletes keyOf refuses row.targets
            (w.enter row.conn)).1.current j = w.current j := by
      rw [h]
      cases hconn : row.conn with
      | none => simp [leave]
      | some i =>
        by_cases hj : j = i
        · subst hj
          obtain ⟨table, htable⟩ := deletes_conn keyOf refuses row.targets (w.enter (some j)) j
          refine iff_of_true ?_ (.inl rfl)
          have hbegin : (w.enter (some j)).conn j = (w.conn j).begin := by simp [enter]
          rw [hbegin] at htable
          simp [current, leave, htable, Connection.finish_begin]
        · simp [current, leave, hj]
    simp only [hleave, hiff]
    constructor
    · rintro hall ⟨j, key⟩ hmem
      exact (hall j).imp_right fun hnone => hnone key hmem
    · intro hall j
      by_cases hj : some j = row.conn
      · exact .inl hj
      · exact .inr fun key hmem => (hall (j, key) hmem).resolve_left hj

end World

section Main
variable {I R K : Type} [DecidableEq I] [DecidableEq K]

end Main

section Example

/-- A table of numbers that refuses duplicates. -/
def refusesDuplicate (rows table : List Nat) : Bool := rows.any fun r => table.contains r

def numbered (n : Nat) : SetModel Nat := ⟨["n"], true, n⟩

/-- An open transaction on a table with the row 2. -/
def openConnection : Connection (List Nat) := ⟨[2], some (⟨[2], []⟩, 0)⟩

/-- Connections outside any transaction: the primary with the row 1, the replica with the row 2. -/
def twoConnections : World Bool (List Nat) :=
  ⟨fun primary => ⟨if primary then [1] else [2], none⟩, none⟩

/-- The row 1 of the primary with the related row 2, connected to a connection. -/
def relatedRow (conn : Bool) : RelatedRow Bool Nat :=
  .mk (some true) 1 [(true, [.mk (some conn) 2 []])]

/-- A database that refuses to delete the row 1. -/
def keepsFirst (_ : Bool) (key : Nat) (_ : List Nat) : Bool := key = 1

end Example

end Orm.Client
