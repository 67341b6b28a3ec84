import Orm.Client.Transaction

/-! The audit record of a transaction: it is inserted before the first write that binds it, and
undone with the write when the write is guarded. -/
namespace Orm.Client

open Orm.Logic (Tx)

/-- What a transaction sees of the audit: whether its record is in the record table, and the rows
of audited tables that carry its key. -/
structure AuditTables where
  record : Bool
  rows : List Nat
  deriving DecidableEq, Repr

/-- How a write statement ends: it fails without an effect, or it writes its audit key to some rows
and removes some rows. -/
inductive Outcome where
  | fails
  | writes (keyed removed : List Nat)
  deriving DecidableEq, Repr

/-- How the insert of the audit record would end: with its key, with an error and without a row, or
with the row and an error, as the row has no key after it. -/
inductive RecordInsert where
  | keyed
  | fails
  | unkeyed
  deriving DecidableEq, Repr

/-- One write: whether it is guarded (an update, delete or restore; an insert and `execute` are
not), whether its statement binds the audit, and how the insert of the record would end. -/
structure AuditedWrite where
  guard : Bool
  bindsAudit : Bool
  record : RecordInsert
  outcome : Outcome
  deriving DecidableEq, Repr

/-- The transaction frame: the transaction, whether `audit` is defined, and the number of open
nested transactions. -/
structure AuditFrame where
  tx : Tx AuditTables
  audit : Bool
  nested : Nat

namespace AuditedWrite

/-- The rows that carry the key after the statement; only a statement that binds the audit writes
the key. -/
def written (w : AuditedWrite) (rows : List Nat) : List Nat :=
  match w.outcome with
  | .fails => rows
  | .writes keyed removed =>
    rows.filter (· ∉ removed) ++ if w.bindsAudit then keyed else []

/-- Whether the statement succeeded and affected a row, for a statement that binds the audit. -/
def affects (w : AuditedWrite) : Bool :=
  match w.outcome with
  | .fails => false
  | .writes keyed _ => !keyed.isEmpty

end AuditedWrite

namespace AuditFrame

/-- Runs the statement of a write. -/
def runStatement (w : AuditedWrite) (f : AuditFrame) : AuditFrame :=
  { f with tx := f.tx.setData { f.tx.data with rows := w.written f.tx.data.rows } }

/-- The row of the audit record. -/
def insertRow (f : AuditFrame) : AuditFrame :=
  { f with tx := f.tx.setData { f.tx.data with record := true } }

/-- Inserts the audit record. -/
def insertAudit (f : AuditFrame) : AuditFrame := { f.insertRow with audit := true }

/-- Undoes the work after the audit savepoint. -/
def undoAudit (f : AuditFrame) : AuditFrame :=
  { f with tx := (f.tx.rollbackTo "orm_audit").release "orm_audit", audit := false }

/-- A write with the audit record before it. -/
def write (w : AuditedWrite) (f : AuditFrame) : AuditFrame :=
  if f.audit || !w.bindsAudit then f.runStatement w
  else if !w.guard then
    -- the insert of the record is not undone when the statement or the look for its key fails
    match w.record with
    | .keyed => f.insertAudit.runStatement w
    | .fails => f
    | .unkeyed => f.insertRow
  else
    let f := { f with tx := f.tx.savepoint "orm_audit" }
    match w.record with
    | .keyed =>
      let f := f.insertAudit.runStatement w
      if w.affects then { f with tx := f.tx.release "orm_audit" } else f.undoAudit
    | .fails => f.undoAudit
    | .unkeyed => f.insertRow.undoAudit

end AuditFrame

/-- What a callback does: writes whose errors it catches, and nested transactions that return or
throw. -/
inductive AuditOp where
  | write (w : AuditedWrite)
  | nested (body : List AuditOp) (throws : Bool)

namespace AuditFrame

/-- Opens a nested transaction. -/
def enter (f : AuditFrame) : AuditFrame :=
  { f with tx := f.tx.savepoint (savepointName (f.nested + 1)), nested := f.nested + 1 }

/-- Ends a nested transaction: one that throws gets back the audit from before it. -/
def leave (throws auditBefore : Bool) (f : AuditFrame) : AuditFrame :=
  let name := savepointName f.nested
  if throws then
    { tx := (f.tx.rollbackTo name).release name, audit := auditBefore, nested := f.nested - 1 }
  else { f with tx := f.tx.release name, nested := f.nested - 1 }

mutual
def run : AuditOp → AuditFrame → AuditFrame
  | .write w, f => f.write w
  | .nested body throws, f => (runAll body f.enter).leave throws f.audit
termination_by structural op => op
def runAll : List AuditOp → AuditFrame → AuditFrame
  | [], f => f
  | op :: ops, f => runAll ops (run op f)
termination_by structural ops => ops
end

mutual
/-- The frames that a callback sees after each of its operations, also inside nested
transactions. -/
def points : AuditOp → AuditFrame → List AuditFrame
  | .write w, f => [f.write w]
  | .nested body throws, f =>
    f.enter :: pointsAll body f.enter ++ [(runAll body f.enter).leave throws f.audit]
termination_by structural op => op
def pointsAll : List AuditOp → AuditFrame → List AuditFrame
  | [], _ => []
  | op :: ops, f => points op f ++ pointsAll ops (run op f)
termination_by structural ops => ops
end

/-- The start of a transaction with audit values. -/
def start : AuditFrame := ⟨⟨⟨false, []⟩, []⟩, false, 0⟩

end AuditFrame

namespace AuditFrame
variable {f : AuditFrame} {w : AuditedWrite}

/-- `audit` is defined exactly when the record is in the table. -/
def Matched (f : AuditFrame) : Prop := f.audit = f.tx.data.record

/-- The record is in the table exactly when a row carries its key. -/
def Kept (f : AuditFrame) : Prop := f.tx.data.record = true ↔ f.tx.data.rows ≠ []

/-- The savepoints and nested transactions that are open. -/
def opened (f : AuditFrame) : List (String × AuditTables) × Nat := (f.tx.savepoints, f.nested)

theorem undoAudit_tx {t : AuditTables} {rest : List (String × AuditTables)}
    (h : f.tx.savepoints = ("orm_audit", t) :: rest) : f.undoAudit.tx = ⟨t, rest⟩ :=
  Tx.rollback_release h

/-- A write leaves the open savepoints as they are. -/
theorem write_opened (w : AuditedWrite) (f : AuditFrame) : (f.write w).opened = f.opened := by
  unfold write
  split
  · rfl
  · split
    · split <;> rfl
    · dsimp only
      split
      · split
        · rw [opened, Tx.release_cons rfl]
          rfl
        · rw [opened, undoAudit_tx rfl]
          rfl
      · rw [opened, undoAudit_tx rfl]
        rfl
      · rw [opened, undoAudit_tx rfl]
        rfl

/-- A write does not insert a record without a key that nothing undoes. -/
def Keyed (w : AuditedWrite) (f : AuditFrame) : Prop :=
  f.audit = false → w.bindsAudit = true → w.guard = false → w.record ≠ .unkeyed

theorem write_matched_iff (h : f.Matched) : (f.write w).Matched ↔ Keyed w f := by
  unfold write
  split
  · rename_i hold
    refine iff_of_true h ?_
    intro haudit hbinds
    simp [haudit, hbinds] at hold
  · rename_i hnew
    obtain ⟨haudit, hbinds⟩ : f.audit = false ∧ w.bindsAudit = true := by simpa using hnew
    have hrecord : f.tx.data.record = false := h.symm.trans haudit
    split
    · rename_i hguard
      have hunguarded : w.guard = false := by simpa using hguard
      split
      · rename_i hkeyed
        exact iff_of_true rfl fun _ _ _ => by simp [hkeyed]
      · rename_i hfails
        exact iff_of_true h fun _ _ _ => by simp [hfails]
      · rename_i hunkeyed
        refine iff_of_false ?_ fun hk => hk haudit hbinds hunguarded hunkeyed
        simp [Matched, insertRow, haudit]
    · rename_i hguard
      have hkeyed : Keyed w f := fun _ _ hunguarded => by simp [hunguarded] at hguard
      refine iff_of_true ?_ hkeyed
      dsimp only
      split
      · split
        · rfl
        · rw [Matched, undoAudit_tx rfl]
          exact hrecord.symm
      · rw [Matched, undoAudit_tx rfl]
        exact hrecord.symm
      · rw [Matched, undoAudit_tx rfl]
        exact hrecord.symm

/-- Leaving a nested transaction that threw restores what was before it. -/
theorem leave_throws {g : AuditFrame} (h : g.opened = f.enter.opened) :
    g.leave true f.audit = f := by
  obtain ⟨⟨data, savepoints⟩, audit, nested⟩ := g
  simp only [opened, enter, Prod.mk.injEq] at h
  obtain ⟨hs, rfl⟩ := h
  simp only [leave, if_true, Nat.add_sub_cancel]
  rw [@Tx.rollback_release _ _ _ f.tx.data f.tx.savepoints hs]

theorem leave_returns {g : AuditFrame} (h : g.opened = f.enter.opened) (before : Bool) :
    (g.leave false before).opened = f.opened ∧ (g.leave false before).tx.data = g.tx.data ∧
      (g.leave false before).audit = g.audit := by
  obtain ⟨⟨data, savepoints⟩, audit, nested⟩ := g
  simp only [opened, enter, Prod.mk.injEq] at h
  obtain ⟨hs, rfl⟩ := h
  refine ⟨?_, rfl, rfl⟩
  simp only [leave, opened, Bool.false_eq_true, if_false, Nat.add_sub_cancel]
  rw [Tx.release_cons hs]

mutual
theorem run_opened : ∀ (op : AuditOp) (f : AuditFrame), (run op f).opened = f.opened
  | .write w, f => write_opened w f
  | .nested body true, f => by rw [run, leave_throws (runAll_opened body f.enter)]
  | .nested body false, f => by rw [run, (leave_returns (runAll_opened body f.enter) _).1]
theorem runAll_opened : ∀ (ops : List AuditOp) (f : AuditFrame), (runAll ops f).opened = f.opened
  | [], _ => rfl
  | op :: ops, f => by rw [runAll, runAll_opened ops, run_opened op]
end

mutual
/-- Every write of an operation has a property in the frame that it runs in; a nested transaction
that throws undoes its writes. -/
def Each (P : AuditedWrite → AuditFrame → Prop) : AuditOp → AuditFrame → Prop
  | .write w, f => P w f
  | .nested body throws, f => throws = true ∨ EachOf P body f.enter
def EachOf (P : AuditedWrite → AuditFrame → Prop) : List AuditOp → AuditFrame → Prop
  | [], _ => True
  | op :: ops, f => Each P op f ∧ EachOf P ops (run op f)
end

mutual
theorem run_matched {P : AuditedWrite → AuditFrame → Prop} (hP : ∀ w f, P w f → Keyed w f) :
    ∀ (op : AuditOp) {f : AuditFrame}, f.Matched → Each P op f → (run op f).Matched
  | .write w, f, h, hs => (write_matched_iff h).mpr (hP w f hs)
  | .nested body true, f, h, _ => by
    rw [run, leave_throws (runAll_opened body f.enter)]
    exact h
  | .nested body false, f, h, hs => by
    obtain ⟨-, hdata, haudit⟩ := leave_returns (runAll_opened body f.enter) f.audit
    rw [run, Matched, hdata, haudit]
    exact runAll_matched hP body h (hs.resolve_left Bool.false_ne_true)
theorem runAll_matched {P : AuditedWrite → AuditFrame → Prop} (hP : ∀ w f, P w f → Keyed w f) :
    ∀ (ops : List AuditOp) {f : AuditFrame}, f.Matched → EachOf P ops f → (runAll ops f).Matched
  | [], _, h, _ => h
  | op :: ops, _, h, hs => runAll_matched hP ops (run_matched hP op h hs.1) hs.2
end

mutual
/-- Every write of an operation is keyed in the frame that it runs in, also in a nested transaction
that throws. -/
def AllKeyed : AuditOp → AuditFrame → Prop
  | .write w, f => Keyed w f
  | .nested body _, f => AllKeyedOf body f.enter
def AllKeyedOf : List AuditOp → AuditFrame → Prop
  | [], _ => True
  | op :: ops, f => AllKeyed op f ∧ AllKeyedOf ops (run op f)
end

mutual
theorem AllKeyed.each : ∀ (op : AuditOp) {f : AuditFrame}, AllKeyed op f → Each Keyed op f
  | .write _, _, h => h
  | .nested body _, _, h => .inr (AllKeyedOf.each body h)
theorem AllKeyedOf.each : ∀ (ops : List AuditOp) {f : AuditFrame},
    AllKeyedOf ops f → EachOf Keyed ops f
  | [], _, _ => trivial
  | op :: ops, _, h => ⟨AllKeyed.each op h.1, AllKeyedOf.each ops h.2⟩
end

theorem run_mem_points : ∀ (op : AuditOp) (f : AuditFrame), run op f ∈ points op f
  | .write _, _ => List.mem_singleton_self _
  | .nested _ _, _ => List.mem_append_right _ (List.mem_singleton_self _)

mutual
/-- The frames after the operations of a callback match exactly when all its writes are keyed. -/
theorem points_matched_iff : ∀ (op : AuditOp) {f : AuditFrame}, f.Matched →
    ((∀ p ∈ points op f, p.Matched) ↔ AllKeyed op f)
  | .write w, f, h => by
    rw [points, List.forall_mem_singleton, write_matched_iff h]
    rfl
  | .nested body throws, f, h => by
    have hbody := pointsAll_matched_iff body (f := f.enter) h
    constructor
    · intro hall
      refine hbody.mp fun p hp => hall p ?_
      exact List.mem_append_left _ (List.mem_cons_of_mem _ hp)
    · intro hkeyed p hp
      have hend : (run (.nested body throws) f).Matched :=
        run_matched (fun _ _ hk => hk) _ h (AllKeyed.each (.nested body throws) hkeyed)
      rw [points, List.mem_append, List.mem_cons, List.mem_singleton] at hp
      rcases hp with (rfl | hp) | rfl
      · exact h
      · exact hbody.mpr hkeyed p hp
      · exact hend
theorem pointsAll_matched_iff : ∀ (ops : List AuditOp) {f : AuditFrame}, f.Matched →
    ((∀ p ∈ pointsAll ops f, p.Matched) ↔ AllKeyedOf ops f)
  | [], _, _ => iff_of_true (by simp [pointsAll]) trivial
  | op :: ops, f, h => by
    rw [pointsAll, List.forall_mem_append, points_matched_iff op h]
    refine and_congr_right fun hop => ?_
    have hrun : (run op f).Matched := (points_matched_iff op h).mpr hop _ (run_mem_points op f)
    exact pointsAll_matched_iff ops hrun
end

end AuditFrame

open AuditFrame

/-- A write is safe in a frame: one that is not guarded and inserts the record writes a row with
its key, and none removes the last such row. -/
def AuditedWrite.Safe (w : AuditedWrite) (f : AuditFrame) : Prop :=
  (f.audit = false → w.bindsAudit = true → w.guard = false →
    w.record ≠ .unkeyed ∧ (w.record = .keyed → w.affects = true)) ∧
  (f.tx.data.rows ≠ [] → w.written f.tx.data.rows ≠ [])

theorem AuditedWrite.Safe.keyed {w : AuditedWrite} {f : AuditFrame} (h : w.Safe f) : Keyed w f :=
  fun haudit hbinds hguard => (h.1 haudit hbinds hguard).1

section Kept
variable {f : AuditFrame} {w : AuditedWrite}

theorem AuditedWrite.written_nil (w : AuditedWrite) :
    w.written [] ≠ [] ↔ w.bindsAudit = true ∧ w.affects = true := by
  unfold AuditedWrite.written AuditedWrite.affects
  cases w.outcome with
  | fails => simp
  | writes keyed removed => cases hb : w.bindsAudit <;> simp

theorem write_kept (h : f.Matched) (hk : f.Kept) (hs : w.Safe f) : (f.write w).Kept := by
  unfold AuditFrame.write
  by_cases hold : (f.audit || !w.bindsAudit) = true
  · rw [if_pos hold]
    cases haudit : f.audit with
    | true =>
      have hrecord : f.tx.data.record = true := h.symm.trans haudit
      exact iff_of_true hrecord (hs.2 (hk.mp hrecord))
    | false =>
      have hrecord : f.tx.data.record = false := h.symm.trans haudit
      have hrows : f.tx.data.rows = [] := by
        by_contra hne
        rw [hk.mpr hne] at hrecord
        cases hrecord
      have hbinds : w.bindsAudit = false := by simpa [haudit] using hold
      refine iff_of_false (by simp [runStatement, hrecord]) (not_not.mpr ?_)
      simp only [runStatement, Tx.setData_data, hrows]
      by_contra hne
      rw [((w.written_nil).mp hne).1] at hbinds
      cases hbinds
  · rw [if_neg hold]
    obtain ⟨haudit, hbinds⟩ : f.audit = false ∧ w.bindsAudit = true := by simpa using hold
    have hrecord : f.tx.data.record = false := h.symm.trans haudit
    have hrows : f.tx.data.rows = [] := by
      by_contra hne
      rw [hk.mpr hne] at hrecord
      cases hrecord
    have hwrites (ha : w.affects = true) : w.written f.tx.data.rows ≠ [] := by
      rw [hrows]
      exact w.written_nil.mpr ⟨hbinds, ha⟩
    cases hguard : w.guard with
    | false =>
      obtain ⟨hkeyed, haffects⟩ := hs.1 haudit hbinds hguard
      cases hrec : w.record with
      | keyed => exact iff_of_true rfl (hwrites (haffects hrec))
      | fails => exact hk
      | unkeyed => exact absurd hrec hkeyed
    | true =>
      simp only [Bool.not_true, Bool.false_eq_true, if_false]
      cases hrec : w.record with
      | keyed =>
        cases haff : w.affects with
        | true =>
          simp only [if_true]
          exact iff_of_true rfl (hwrites haff)
        | false =>
          simp only [Bool.false_eq_true, if_false]
          rw [AuditFrame.Kept, undoAudit_tx rfl]
          exact hk
      | fails =>
        simp only
        rw [AuditFrame.Kept, undoAudit_tx rfl]
        exact hk
      | unkeyed =>
        simp only
        rw [AuditFrame.Kept, undoAudit_tx rfl]
        exact hk

mutual
theorem run_kept : ∀ (op : AuditOp) {f : AuditFrame}, f.Matched → f.Kept →
    Each AuditedWrite.Safe op f → (run op f).Kept
  | .write _, _, h, hk, hs => write_kept h hk hs
  | .nested body true, f, _, hk, _ => by
    rw [run, leave_throws (runAll_opened body f.enter)]
    exact hk
  | .nested body false, f, h, hk, hs => by
    have hbody := hs.resolve_left Bool.false_ne_true
    obtain ⟨-, hdata, -⟩ := leave_returns (runAll_opened body f.enter) f.audit
    rw [run, Kept, hdata]
    exact runAll_kept body (f := f.enter) h hk hbody
theorem runAll_kept : ∀ (ops : List AuditOp) {f : AuditFrame}, f.Matched → f.Kept →
    EachOf AuditedWrite.Safe ops f → (runAll ops f).Kept
  | [], _, _, hk, _ => hk
  | op :: ops, _, h, hk, hs =>
    runAll_kept ops (run_matched (fun _ _ => AuditedWrite.Safe.keyed) op h hs.1)
      (run_kept op h hk hs.1) hs.2
end

end Kept

end Orm.Client
