import Orm.Client.Session

/-! The session of a SQLite rebuild, which runs a transaction without foreign keys. -/
namespace Orm.Client

inductive KeyStatement where
  | off | begin | check | rollback | commit | on
  deriving DecidableEq, Repr

/-- The parts of a session that a rebuild changes. -/
structure KeySession where
  inTransaction : Bool
  enforced : Bool
  deriving DecidableEq, Repr

/-- How each statement ends, and the broken foreign keys that the check counts. -/
structure KeyDriver where
  ends : KeyStatement → Ended
  broken : Nat

/-- The work in the transaction: its result unless it throws, and whether SQLite rolled the
transaction back by itself. -/
structure KeyWork (α : Type) where
  result : Option α
  rolledBack : Bool
  deriving DecidableEq, Repr

inductive KeyError where
  | failed (s : KeyStatement)
  | work
  | broken (n : Nat)
  /-- the transaction failed and its ROLLBACK failed -/
  | rollbackFailed (cause rollback : KeyError)
  /-- an error and the failed restore of the setting -/
  | joined (error restore : KeyError)
  deriving DecidableEq, Repr

/-- Whether an error reports a failed ROLLBACK or a failed restore of the setting. -/
def KeyError.reports : KeyError → Bool
  | .failed s => s = .on
  | .work | .broken _ => false
  | .rollbackFailed _ _ | .joined _ _ => true

abbrev KeyRun := ExceptT KeyError (StateM KeySession)

namespace KeySession

def effect : KeyStatement → KeySession → KeySession
  | .off, s => { s with enforced := false }
  | .on, s => { s with enforced := true }
  | .begin, s => { s with inTransaction := true }
  | .rollback, s | .commit, s => { s with inTransaction := false }
  | .check, s => s

end KeySession

section Run
variable {α : Type} (d : KeyDriver) (w : KeyWork α)

/-- How a statement ends on a session. The setting has no effect and no error in a transaction, and
without one there is nothing to end. A failed COMMIT leaves its transaction open. -/
def sentOn (s : KeySession) : KeyStatement → Ended
  | .off => if s.inTransaction then .ok else d.ends .off
  | .on => if s.inTransaction then .ok else d.ends .on
  | .rollback => if s.inTransaction then d.ends .rollback else .driver
  | .commit => if s.inTransaction then d.ends .commit else .driver
  | st => d.ends st

/-- The session after a statement. -/
def sent (st : KeyStatement) (s : KeySession) : KeySession :=
  if sentOn d s st = .driver ∨ (s.inTransaction ∧ (st = .off ∨ st = .on)) then s else s.effect st

def send (st : KeyStatement) : KeyRun Unit := fun s =>
  (if sentOn d s st = .ok then .ok () else .error (.failed st), sent d st s)

def runWork : KeyRun α := fun s =>
  (match w.result with
    | some a => .ok a
    | none => .error .work,
    if w.rolledBack then { s with inTransaction := false } else s)

/-- The work, and the check that it breaks no foreign key. -/
def workAndCheck : KeyRun α := do
  let a ← runWork w
  send d .check
  if d.broken ≠ 0 then throw (.broken d.broken) else pure a

/-- Rolls back after an error. -/
def rollbackAfter (error : KeyError) : KeyRun α := do
  tryCatch (send d .rollback) fun rollback => throw (.rollbackFailed error rollback)
  throw error

/-- Turns foreign keys back on after an error. -/
def restoreAfter (error : KeyError) : KeyRun α := do
  tryCatch (send d .on) fun restore => throw (.joined error restore)
  throw error

def withoutForeignKeys : KeyRun α := do
  send d .off
  let a ← tryCatch (do
    send d .begin
    let a ← tryCatch (workAndCheck d w) (rollbackAfter d)
    send d .commit
    pure a) (restoreAfter d)
  send d .on
  pure a

end Run

/-- No transaction is open and foreign keys are on, or the error reports what failed. -/
def Settled {α : Type} (x : Except KeyError α × KeySession) : Prop :=
  x.2 = ⟨false, true⟩ ∨ ∃ e, x.1 = .error e ∧ e.reports

/-- The session is left in a transaction or without foreign keys: the subscriber of a statement that
took effect fails, or the COMMIT fails. -/
def Strands {α : Type} (d : KeyDriver) (w : KeyWork α) : Prop :=
  d.ends .off = .subscriber ∨
  d.ends .off = .ok ∧ (d.ends .begin = .subscriber ∨
    d.ends .begin = .ok ∧ w.result.isSome ∧ w.rolledBack = false ∧ d.ends .check = .ok ∧
      d.broken = 0 ∧ d.ends .commit = .driver)

instance {α : Type} (d : KeyDriver) (w : KeyWork α) : Decidable (Strands d w) :=
  inferInstanceAs (Decidable (_ ∨ _))

section Steps
variable {α β : Type} {d : KeyDriver} {w : KeyWork α} {s s' : KeySession} {e : KeyError} {a : α}
  {x : KeyRun α} {f : α → KeyRun β} {g : KeyError → KeyRun α} {st : KeyStatement}

theorem bind_ok (h : x s = (.ok a, s')) : (x >>= f) s = f a s' := by
  simp only [bind, ExceptT.bind, ExceptT.mk, StateT.bind, h]
  rfl

theorem bind_error (h : x s = (.error e, s')) : (x >>= f) s = (.error e, s') := by
  simp only [bind, ExceptT.bind, ExceptT.mk, StateT.bind, h]
  rfl

theorem tryCatch_ok (h : x s = (.ok a, s')) : tryCatch x g s = (.ok a, s') := by
  simp only [tryCatch, tryCatchThe, MonadExceptOf.tryCatch, ExceptT.tryCatch, ExceptT.mk, bind,
    StateT.bind, h]
  rfl

theorem tryCatch_error (h : x s = (.error e, s')) : tryCatch x g s = g e s' := by
  simp only [tryCatch, tryCatchThe, MonadExceptOf.tryCatch, ExceptT.tryCatch, ExceptT.mk, bind,
    StateT.bind, h]

theorem sentOn_check : sentOn d s .check = d.ends .check := rfl

theorem send_ok (h : sentOn d s st = .ok) : send d st s = (.ok (), sent d st s) := by
  rw [send, if_pos h]

theorem send_error (h : sentOn d s st ≠ .ok) : send d st s = (.error (.failed st), sent d st s) := by
  rw [send, if_neg h]

/-- A handler that sends a statement and gives up with one of two errors. -/
theorem handler_run {e₁ : KeyError} (g : KeyError → KeyError) :
    (tryCatch (send d st) (fun e => throw (g e)) >>= fun _ => (throw e₁ : KeyRun α)) s =
      (.error (if sentOn d s st = .ok then e₁ else g (.failed st)), sent d st s) := by
  by_cases h : sentOn d s st = .ok
  · rw [if_pos h, bind_ok (tryCatch_ok (send_ok h))]
    rfl
  · rw [if_neg h, bind_error ((tryCatch_error (send_error h)).trans rfl)]

theorem rollbackAfter_run : (rollbackAfter d e : KeyRun α) s =
    (.error (if sentOn d s .rollback = .ok then e else .rollbackFailed e (.failed .rollback)),
      sent d .rollback s) := handler_run _

theorem restoreAfter_run : (restoreAfter d e : KeyRun α) s =
    (.error (if sentOn d s .on = .ok then e else .joined e (.failed .on)), sent d .on s) :=
  handler_run _

/-- Outside a transaction the setting is restored or the error reports it; in one, nothing is. -/
theorem restoreAfter_settled :
    Settled ((restoreAfter d e : KeyRun α) s) ↔ s.inTransaction = false ∨ e.reports := by
  rw [restoreAfter_run]
  obtain ⟨inTransaction, enforced⟩ := s
  cases inTransaction with
  | false =>
    cases hon : d.ends .on <;>
      simp [Settled, sentOn, sent, hon, KeySession.effect, KeyError.reports]
  | true => simp [Settled, sentOn, sent]

/-- After a failed work the transaction is closed or the error reports the ROLLBACK. -/
theorem rollbackAfter_closed : ∃ e' s', (rollbackAfter d e : KeyRun α) s = (.error e', s') ∧
    (s'.inTransaction = false ∨ e'.reports) := by
  refine ⟨_, _, rollbackAfter_run, ?_⟩
  obtain ⟨inTransaction, enforced⟩ := s
  cases inTransaction with
  | false => simp [sentOn, KeyError.reports]
  | true =>
    cases hroll : d.ends .rollback <;>
      simp [sentOn, sent, hroll, KeySession.effect, KeyError.reports]

theorem workAndCheck_ok (ha : w.result = some a) (hcheck : d.ends .check = .ok)
    (hbroken : d.broken = 0) :
    workAndCheck d w ⟨true, false⟩ = (.ok a, ⟨!w.rolledBack, false⟩) := by
  have hwork : runWork w ⟨true, false⟩ = (.ok a, ⟨!w.rolledBack, false⟩) := by
    unfold runWork
    rw [ha]
    cases w.rolledBack <;> rfl
  have hsent : sent d .check ⟨!w.rolledBack, false⟩ = ⟨!w.rolledBack, false⟩ := ite_self _
  unfold workAndCheck
  rw [bind_ok hwork, bind_ok (send_ok (sentOn_check.trans hcheck)), hsent, if_neg (not_not.mpr hbroken)]
  rfl

theorem workAndCheck_error (h : ¬ (w.result.isSome ∧ d.ends .check = .ok ∧ d.broken = 0)) :
    ∃ e s', workAndCheck d w ⟨true, false⟩ = (.error e, s') := by
  cases ha : w.result with
  | none =>
    have hwork : ∃ s', runWork w ⟨true, false⟩ = (.error .work, s') := by
      unfold runWork
      rw [ha]
      exact ⟨_, rfl⟩
    obtain ⟨s', hwork⟩ := hwork
    exact ⟨_, _, bind_error hwork⟩
  | some a =>
    have hwork : ∃ s', runWork w ⟨true, false⟩ = (.ok a, s') := by
      unfold runWork
      rw [ha]
      exact ⟨_, rfl⟩
    obtain ⟨s', hwork⟩ := hwork
    unfold workAndCheck
    rw [bind_ok hwork]
    by_cases hcheck : d.ends .check = .ok
    · have hbroken : d.broken ≠ 0 := fun hb => h ⟨by rw [ha]; rfl, hcheck, hb⟩
      rw [bind_ok (send_ok (sentOn_check.trans hcheck)), if_pos hbroken]
      exact ⟨_, _, rfl⟩
    · exact ⟨_, _, bind_error (send_error fun h => hcheck (sentOn_check.symm.trans h))⟩

/-- The part between the two settings, from the BEGIN to the COMMIT. -/
def transactionPart (d : KeyDriver) (w : KeyWork α) : KeyRun α := do
  send d .begin
  let a ← tryCatch (workAndCheck d w) (rollbackAfter d)
  send d .commit
  pure a

theorem withoutForeignKeys_off (h : d.ends .off = .ok) :
    withoutForeignKeys d w ⟨false, true⟩ =
      (tryCatch (transactionPart d w) (restoreAfter d) >>= fun a => send d .on >>= fun _ => pure a)
        ⟨false, false⟩ := by
  have hsent : sent d .off ⟨false, true⟩ = ⟨false, false⟩ := by simp [sent, sentOn, h, KeySession.effect]
  have hoff : sentOn d ⟨false, true⟩ .off = .ok := h
  unfold withoutForeignKeys
  rw [bind_ok (send_ok hoff), hsent]
  rfl

/-- A failed transaction part is settled when it left no transaction or reports why. -/
theorem settled_of_error (hoff : d.ends .off = .ok)
    (h : transactionPart d w ⟨false, false⟩ = (.error e, s)) :
    Settled (withoutForeignKeys d w ⟨false, true⟩) ↔ s.inTransaction = false ∨ e.reports := by
  rw [withoutForeignKeys_off hoff, ← restoreAfter_settled (d := d) (α := α)]
  have hrun := restoreAfter_run (d := d) (e := e) (s := s) (α := α)
  rw [bind_error ((tryCatch_error h).trans hrun), hrun]

theorem settled_of_ok (hoff : d.ends .off = .ok)
    (h : transactionPart d w ⟨false, false⟩ = (.ok a, ⟨false, false⟩)) :
    Settled (withoutForeignKeys d w ⟨false, true⟩) := by
  rw [withoutForeignKeys_off hoff, bind_ok (tryCatch_ok h)]
  by_cases hon : d.ends .on = .ok
  · rw [bind_ok (send_ok (show sentOn d ⟨false, false⟩ .on = .ok from hon))]
    refine .inl ?_
    change sent d .on ⟨false, false⟩ = _
    simp [sent, sentOn, hon, KeySession.effect]
  · rw [bind_error (send_error (show sentOn d ⟨false, false⟩ .on ≠ .ok from hon))]
    exact .inr ⟨_, rfl, rfl⟩

theorem begin_failed (h : d.ends .begin ≠ .ok) : transactionPart d w ⟨false, false⟩ =
    (.error (.failed .begin), ⟨d.ends .begin = .subscriber, false⟩) := by
  unfold transactionPart
  rw [bind_error (send_error (show sentOn d ⟨false, false⟩ .begin ≠ .ok from h))]
  cases hbegin : d.ends .begin with
  | ok => exact absurd hbegin h
  | driver => simp [sent, sentOn, hbegin]
  | subscriber => simp [sent, sentOn, hbegin, KeySession.effect]

theorem begin_done (h : d.ends .begin = .ok) : transactionPart d w ⟨false, false⟩ =
    (tryCatch (workAndCheck d w) (rollbackAfter d) >>= fun a => send d .commit >>= fun _ => pure a)
      ⟨true, false⟩ := by
  have hsent : sent d .begin ⟨false, false⟩ = ⟨true, false⟩ := by
    simp [sent, sentOn, h, KeySession.effect]
  unfold transactionPart
  rw [bind_ok (send_ok (show sentOn d ⟨false, false⟩ .begin = .ok from h)), hsent]

/-- The COMMIT after a work that breaks no foreign key. -/
theorem commit_settled (hoff : d.ends .off = .ok) (hbegin : d.ends .begin = .ok)
    (ha : w.result = some a) (hcheck : d.ends .check = .ok) (hbroken : d.broken = 0) :
    Settled (withoutForeignKeys d w ⟨false, true⟩) ↔
      ¬ (w.rolledBack = false ∧ d.ends .commit = .driver) := by
  have hpart : transactionPart d w ⟨false, false⟩ =
      (send d .commit >>= fun _ => pure a) ⟨!w.rolledBack, false⟩ := by
    rw [begin_done hbegin, bind_ok (tryCatch_ok (workAndCheck_ok ha hcheck hbroken))]
  by_cases hcommit : sentOn d ⟨!w.rolledBack, false⟩ .commit = .ok
  · have hopen : w.rolledBack = false ∧ d.ends .commit = .ok := by
      unfold sentOn at hcommit
      cases hrolled : w.rolledBack <;> simp_all
    have hsent : sent d .commit ⟨!w.rolledBack, false⟩ = ⟨false, false⟩ := by
      simp [sent, sentOn, hopen.1, hopen.2, KeySession.effect]
    rw [bind_ok (send_ok hcommit), hsent] at hpart
    simp only [settled_of_ok hoff hpart, hopen.2, reduceCtorEq, and_false, not_false_eq_true]
  · rw [bind_error (send_error hcommit)] at hpart
    rw [settled_of_error hoff hpart]
    unfold sentOn at hcommit
    cases hrolled : w.rolledBack with
    | true => simp [sent, sentOn, KeyError.reports]
    | false =>
      cases hend : d.ends .commit with
      | ok => simp [hrolled, hend] at hcommit
      | driver => simp [sent, sentOn, hend, KeyError.reports]
      | subscriber => simp [sent, sentOn, hend, KeyError.reports, KeySession.effect]

end Steps

/-- A rebuild leaves no transaction open and foreign keys on, or reports the failed ROLLBACK or
restore, unless a subscriber fails after the setting or the BEGIN took effect, or the COMMIT fails. -/
theorem withoutForeignKeys_settled_iff {α : Type} (d : KeyDriver) (w : KeyWork α) :
    Settled (withoutForeignKeys d w ⟨false, true⟩) ↔ ¬ Strands d w := by
  unfold Strands
  cases hoff : d.ends .off with
  | driver =>
    have hrun : withoutForeignKeys d w ⟨false, true⟩ = (.error (.failed .off), ⟨false, true⟩) := by
      have hsend : sentOn d ⟨false, true⟩ .off ≠ .ok := by simp [sentOn, hoff]
      unfold withoutForeignKeys
      rw [bind_error (send_error hsend)]
      simp [sent, sentOn, hoff]
    rw [hrun]
    simp [Settled]
  | subscriber =>
    have hrun : withoutForeignKeys d w ⟨false, true⟩ = (.error (.failed .off), ⟨false, false⟩) := by
      have hsend : sentOn d ⟨false, true⟩ .off ≠ .ok := by simp [sentOn, hoff]
      unfold withoutForeignKeys
      rw [bind_error (send_error hsend)]
      simp [sent, sentOn, hoff, KeySession.effect]
    rw [hrun]
    simp [Settled, KeyError.reports]
  | ok =>
    by_cases hbegin : d.ends .begin = .ok
    · by_cases hwork : w.result.isSome ∧ d.ends .check = .ok ∧ d.broken = 0
      · obtain ⟨hresult, hcheck, hbroken⟩ := hwork
        obtain ⟨a, ha⟩ := Option.isSome_iff_exists.mp hresult
        rw [commit_settled hoff hbegin ha hcheck hbroken]
        simp [hbegin, hresult, hcheck, hbroken]
      · obtain ⟨e, s, herror⟩ := workAndCheck_error hwork
        obtain ⟨e', s', hrollback, hclosed⟩ := rollbackAfter_closed (α := α) (d := d) (e := e) (s := s)
        have hpart : transactionPart d w ⟨false, false⟩ = (.error e', s') := by
          rw [begin_done hbegin, bind_error ((tryCatch_error herror).trans hrollback)]
        rw [settled_of_error hoff hpart]
        refine iff_of_true hclosed fun hstrands => hwork ?_
        simp only [reduceCtorEq, false_or, hbegin, true_and] at hstrands
        exact ⟨hstrands.1, hstrands.2.2.1, hstrands.2.2.2.1⟩
    · rw [settled_of_error hoff (begin_failed hbegin)]
      simp [KeyError.reports, hbegin]

/-- A COMMIT that fails leaves the transaction open and foreign keys off. -/
theorem withoutForeignKeys_strands :
    let d : KeyDriver := ⟨fun st => if st = .commit then .driver else .ok, 0⟩
    withoutForeignKeys d (⟨some (), false⟩ : KeyWork Unit) ⟨false, true⟩ =
      (.error (.failed .commit), ⟨true, false⟩) ∧
    ¬ Settled (withoutForeignKeys d (⟨some (), false⟩ : KeyWork Unit) ⟨false, true⟩) := by
  refine ⟨rfl, ?_⟩
  rintro (h | ⟨e, h, hreports⟩)
  · cases h
  · cases h
    cases hreports

end Orm.Client
