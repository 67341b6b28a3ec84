import Orm.Engine.Dialect

/-! The driver session of an outer transaction: what `begin`, the callback and `finish` leave on it,
and whether it goes back to the pool or is closed. -/
namespace Orm.Client

open Orm.Engine (Dialect sortedEntries)

/-- How a statement ended: it succeeded, the driver failed, or a subscriber failed after its
effect. -/
inductive Ended where
  | ok | driver | subscriber
  deriving DecidableEq, Repr

inductive Isolation where
  | readUncommitted | readCommitted | repeatableRead | serializable
  deriving DecidableEq, Repr

structure BeginOptions where
  isolation : Option Isolation
  readOnly : Bool
  /-- a statement timeout, on PostgreSQL only -/
  timeout : Bool
  deriving DecidableEq, Repr

/-- The statements that `begin` and `finish` send. -/
inductive Control where
  | setIsolation
  | start
  | setTimeout
  | readUncommitted (on : Bool)
  | queryOnly (on : Bool)
  | releaseLock (i : Nat) (key : String)
  | clearLocal (key : String)
  | commit
  | rollback
  deriving DecidableEq, Repr

/-- The state of a session: whether a transaction is open, its settings, locks and values, and
the discard flag of each release of it. -/
structure Session where
  inTransaction : Bool
  queryOnly : Bool
  readUncommitted : Bool
  locks : List String
  values : List String
  released : List Bool
  deriving DecidableEq, Repr

/-- A session as the pool keeps it. -/
def Session.clean : Session := ⟨false, false, false, [], [], []⟩

/-- What the database does: how each statement ends, whether a failed COMMIT ended the transaction,
and whether the driver reports an open transaction. -/
structure SessionDriver where
  ends : Control → Ended
  commitEnds : Bool
  reports : Bool

/-- The frame of the outer transaction: the locks and local values that it recorded. -/
structure Frame where
  locks : List String
  locals : List String
  deriving DecidableEq, Repr

/-- A statement of the callback that takes a MySQL named lock or sets a MySQL variable. -/
inductive Taking where
  | lock (key : String) (ended : Ended)
  | setLocal (key : String) (ended : Ended)
  deriving DecidableEq, Repr

/-- The callback: the locks and values it takes, whether SQLite rolled its transaction back by
itself, and whether it throws. -/
structure Callback where
  takes : List Taking
  rolledBack : Bool
  throws : Bool

namespace Session

def effect : Control → Session → Session
  | .start, s => { s with inTransaction := true }
  | .readUncommitted on, s => { s with readUncommitted := on }
  | .queryOnly on, s => { s with queryOnly := on }
  | .releaseLock _ key, s => { s with locks := s.locks.erase key }
  | .clearLocal key, s => { s with values := s.values.filter (· ≠ key) }
  | .commit, s | .rollback, s => { s with inTransaction := false }
  | .setIsolation, s | .setTimeout, s => s

def release (discard : Bool) (s : Session) : Session :=
  { s with released := s.released ++ [discard] }

/-- The session after a statement: one that the driver failed has no effect, but a failed COMMIT
may have ended the transaction. -/
def send (d : SessionDriver) (st : Control) (s : Session) : Session :=
  if d.ends st = .driver then if st = .commit ∧ d.commitEnds then s.effect st else s
  else s.effect st

end Session

section Run
variable (dialect : Dialect) (o : BeginOptions) (d : SessionDriver) (aborted : Bool)

/-- The statements that open a transaction. -/
def beginSteps : List Control :=
  match dialect with
  | .mysql => (if o.isolation.isSome then [.setIsolation] else []) ++ [.start]
  | .postgres => .start :: if o.timeout then [.setTimeout] else []
  | .sqlite => .start :: (if o.isolation = some .readUncommitted then [.readUncommitted true] else [])
      ++ if o.readOnly then [.queryOnly true] else []

/-- The releases of named locks in the order in which they were taken. -/
def lockReleases : Nat → List String → List Control
  | _, [] => []
  | i, key :: keys => .releaseLock i key :: lockReleases (i + 1) keys

/-- The statements that undo settings, locks and values before a transaction ends. -/
def cleanups (f : Frame) : List Control :=
  (if dialect = .sqlite then (if o.readOnly then [.queryOnly false] else []) ++
    if o.isolation = some .readUncommitted then [.readUncommitted false] else [] else []) ++
  lockReleases 0 f.locks ++
  if dialect = .mysql then (sortedEntries id f.locals).map .clearLocal else []

/-- Whether a cleanup statement failed: itself, or a lock that the session does not hold. -/
def cleanupError (s : Session) (st : Control) : Option Ended :=
  match d.ends st with
  | .ok => match st with
    | .releaseLock _ key => if key ∈ s.locks then none else some .driver
    | _ => none
  | e => some e

/-- Sends the cleanup statements and collects their errors. -/
def cleanup : List Control → Session → Session × List Ended
  | [], s => (s, [])
  | st :: sts, s =>
    let (s', errors) := cleanup sts (s.send d st)
    (s', (cleanupError d s st).toList ++ errors)

/-- What a session reports about its transaction. -/
def reported (s : Session) : Option Bool := if d.reports then some s.inTransaction else none

/-- Ends the transaction with a COMMIT; the flag says whether the session is closed. -/
def commitEnd (s : Session) : Session :=
  let s := s.send d .commit
  if d.ends .commit ≠ .driver then s.release false
  else match reported d s with
    -- a failing ROLLBACK here throws before the flag is set
    | some true => (s.send d .rollback).release false
    | some false => s.release (dialect ≠ .sqlite)
    | none => s.release true

/-- Ends the transaction with a ROLLBACK. -/
def rollbackEnd (discard : Bool) (s : Session) : Session :=
  if dialect ≠ .sqlite ∨ reported d s ≠ some false then
    (s.send d .rollback).release (discard || d.ends .rollback = .driver)
  else s.release discard

def finish (f : Frame) (commit : Bool) (s : Session) : Session :=
  if !commit && dialect ≠ .sqlite && aborted then s.release true
  else
    let (s, errors) := cleanup d (cleanups dialect o f) s
    let discard := errors.any (· ≠ .subscriber)
    if commit && errors.isEmpty then commitEnd dialect d s else rollbackEnd dialect d discard s

/-- Sends the opening statements; `began` says whether a transaction is open. A failure closes the
session or ends the transaction. -/
def beginFrom : Bool → List Control → Session → Except Session Session
  | _, [], s => .ok s
  | began, st :: sts, s =>
    let s := s.send d st
    if d.ends st = .ok then beginFrom (began || st = .start) sts s
    else if began || (st = .start && d.ends st = .subscriber) then
      .error (finish dialect o d aborted ⟨[], []⟩ false s)
    else .error (s.release true)

/-- A statement of the callback: a lock or a value is recorded after its statement returned. -/
def take (t : Taking) (x : Frame × Session) : Frame × Session :=
  if dialect = .mysql then
    match t with
    | .lock _ .driver | .setLocal _ .driver => x
    | .lock key .ok => ({ x.1 with locks := x.1.locks ++ [key] },
        { x.2 with locks := x.2.locks ++ [key] })
    | .lock key .subscriber => (x.1, { x.2 with locks := x.2.locks ++ [key] })
    | .setLocal key .ok =>
      ({ x.1 with
          locals := if key ∈ x.1.locals then x.1.locals else x.1.locals ++ [key] },
        { x.2 with values := x.2.values ++ [key] })
    | .setLocal key .subscriber => (x.1, { x.2 with values := x.2.values ++ [key] })
  else x

/-- Runs the statements of a callback that take locks and values. -/
def takeAll : List Taking → Frame × Session → Frame × Session
  | [], x => x
  | t :: takes, x => takeAll takes (take dialect t x)

/-- Runs a callback in a transaction on a session. -/
def runTransaction (cb : Callback) (s : Session) : Session :=
  match beginFrom dialect o d aborted false (beginSteps dialect o) s with
  | .error s => s
  | .ok s =>
    let (f, s) := takeAll dialect cb.takes (⟨[], []⟩, s)
    let s := if dialect = .sqlite ∧ cb.rolledBack then { s with inTransaction := false } else s
    finish dialect o d aborted f (!cb.throws) s

end Run

/-- No transaction is open on the session and nothing that the transaction took is left. -/
structure Session.Undone (s : Session) : Prop where
  closed : s.inTransaction = false
  queryOnly : s.queryOnly = false
  readUncommitted : s.readUncommitted = false
  locks : s.locks = []
  values : s.values = []

/-- The session was released once, and to the pool only when nothing is left on it. -/
def Session.Returned (s : Session) : Prop :=
  s.released.length = 1 ∧ (s.released = [false] → s.Undone)

/-- What the transaction took on the session is in its options or recorded in its frame. -/
structure Taken (dialect : Dialect) (o : BeginOptions) (f : Frame) (s : Session) : Prop where
  queryOnly : s.queryOnly = true → dialect = .sqlite ∧ o.readOnly = true
  readUncommitted : s.readUncommitted = true →
    dialect = .sqlite ∧ o.isolation = some .readUncommitted
  locks : s.locks = f.locks
  values : ∀ key ∈ s.values, dialect = .mysql ∧ key ∈ f.locals
  released : s.released = []

section Cleanup
variable {dialect : Dialect} {o : BeginOptions} {d : SessionDriver} {f : Frame} {s : Session}

theorem Session.effect_released (st : Control) (s : Session) :
    (s.effect st).released = s.released := by
  cases st <;> rfl

theorem Session.send_released (st : Control) (s : Session) :
    (s.send d st).released = s.released := by
  unfold Session.send
  split
  · split
    · exact s.effect_released st
    · rfl
  · exact s.effect_released st

theorem Session.send_of_ends {st : Control} (h : d.ends st ≠ .driver) :
    s.send d st = s.effect st := by
  rw [Session.send, if_neg h]

theorem cleanup_released (sts : List Control) (s : Session) :
    (cleanup d sts s).1.released = s.released := by
  induction sts generalizing s with
  | nil => rfl
  | cons st sts ih => rw [cleanup, ih, Session.send_released]

/-- The session after all the effects of a list of statements. -/
def Session.effects : List Control → Session → Session
  | [], s => s
  | st :: sts, s => (s.effect st).effects sts

theorem Session.effects_append (sts sts' : List Control) (s : Session) :
    s.effects (sts ++ sts') = (s.effects sts).effects sts' := by
  induction sts generalizing s with
  | nil => rfl
  | cons st sts ih => exact ih _

/-- Cleanup statements of which none failed but by its subscriber have their effects. -/
theorem cleanup_effects (sts : List Control) (s : Session)
    (h : (cleanup d sts s).2.any (· ≠ .subscriber) = false) :
    (cleanup d sts s).1 = s.effects sts := by
  induction sts generalizing s with
  | nil => rfl
  | cons st sts ih =>
    simp only [cleanup, List.any_append, Bool.or_eq_false_iff] at h
    have hends : d.ends st ≠ .driver := by
      intro hd
      simp [cleanupError, hd] at h
    rw [cleanup, Session.effects, ← Session.send_of_ends hends]
    exact ih _ h.2

theorem effects_lockReleases (keys : List String) (i : Nat) (s : Session) (h : s.locks = keys) :
    s.effects (lockReleases i keys) = { s with locks := [] } := by
  induction keys generalizing i s with
  | nil =>
    obtain ⟨_, _, _, locks, _, _⟩ := s
    cases h
    rfl
  | cons key keys ih =>
    rw [lockReleases, Session.effects, ih (i + 1) _ (by simp [Session.effect, h])]
    rfl

theorem effects_clearLocals (keys : List String) (s : Session) :
    s.effects (keys.map Control.clearLocal) =
      { s with values := s.values.filter (· ∉ keys) } := by
  induction keys generalizing s with
  | nil => simp [Session.effects]
  | cons key keys ih =>
    rw [List.map_cons, Session.effects, ih]
    simp only [Session.effect, List.filter_filter, List.mem_cons, not_or]
    congr 2
    funext x
    simp [Bool.and_comm]

/-- The statements that undo the settings of a SQLite session. -/
theorem effects_settings (hro : o.readOnly = false → s.queryOnly = false)
    (hiso : o.isolation ≠ some .readUncommitted → s.readUncommitted = false) :
    s.effects ((if o.readOnly then [.queryOnly false] else []) ++
        if o.isolation = some .readUncommitted then [.readUncommitted false] else []) =
      { s with queryOnly := false, readUncommitted := false } := by
  obtain ⟨_, queryOnly, readUncommitted, _, _, _⟩ := s
  rw [Session.effects_append]
  by_cases hr : o.readOnly = true <;> by_cases hi : o.isolation = some .readUncommitted
  · simp [hr, hi, Session.effects, Session.effect]
  · simpa [hr, hi, Session.effects, Session.effect] using hiso hi
  · simpa [hr, hi, Session.effects, Session.effect] using hro (by simpa using hr)
  · have hr' := hro (by simpa using hr)
    have hi' := hiso hi
    simp_all [Session.effects]

/-- With all their effects, the cleanup statements undo what the transaction took. -/
theorem effects_cleanups (h : Taken dialect o f s) :
    s.effects (cleanups dialect o f) =
      ⟨s.inTransaction, false, false, [], [], s.released⟩ := by
  have hsettings : s.effects (if dialect = .sqlite then
        (if o.readOnly then [.queryOnly false] else []) ++
          if o.isolation = some .readUncommitted then [.readUncommitted false] else []
      else []) = { s with queryOnly := false, readUncommitted := false } := by
    by_cases hsqlite : dialect = .sqlite
    · rw [if_pos hsqlite]
      apply effects_settings
      · intro hro
        by_contra hq
        simpa [hro] using (h.queryOnly (by simpa using hq)).2
      · intro hiso
        by_contra hr
        exact hiso (h.readUncommitted (by simpa using hr)).2
    · have hq : s.queryOnly = false := by
        by_contra hq
        exact hsqlite (h.queryOnly (by simpa using hq)).1
      have hr : s.readUncommitted = false := by
        by_contra hr
        exact hsqlite (h.readUncommitted (by simpa using hr)).1
      rw [if_neg hsqlite, Session.effects]
      cases s
      simp_all
  have hlocks : ({ s with queryOnly := false, readUncommitted := false } : Session).effects
      (lockReleases 0 f.locks) = ⟨s.inTransaction, false, false, [], s.values, s.released⟩ :=
    effects_lockReleases _ _ _ h.locks
  rw [cleanups, Session.effects_append, Session.effects_append, hsettings, hlocks]
  by_cases hmysql : dialect = .mysql
  · rw [if_pos hmysql, effects_clearLocals]
    have hnone : s.values.filter (· ∉ sortedEntries id f.locals) = [] := by
      rw [List.filter_eq_nil_iff]
      intro key hkey
      have hsort : key ∈ sortedEntries id f.locals :=
        (List.mem_insertionSort _).mpr (h.values key hkey).2
      simpa using hsort
    simp only [hnone]
  · have hnone : s.values = [] := by
      apply List.eq_nil_iff_forall_not_mem.mpr
      intro key hkey
      exact hmysql (h.values key hkey).1
    simp [if_neg hmysql, Session.effects, hnone]

theorem cleanup_append_errors (sts sts' : List Control) (s : Session) :
    (cleanup d (sts ++ sts') s).2 =
      (cleanup d sts s).2 ++ (cleanup d sts' (cleanup d sts s).1).2 := by
  induction sts generalizing s with
  | nil => rfl
  | cons st sts ih => simp only [List.cons_append, cleanup, ih, List.append_assoc]

/-- Statements other than lock releases fail only by themselves. -/
theorem cleanup_plain_errors (sts : List Control) (s : Session)
    (h : ∀ st ∈ sts, ∀ i key, st ≠ .releaseLock i key) :
    (cleanup d sts s).2 = [] ↔ ∀ st ∈ sts, d.ends st = .ok := by
  induction sts generalizing s with
  | nil => simp [cleanup]
  | cons st sts ih =>
    have hst : cleanupError d s st = none ↔ d.ends st = .ok := by
      have hplain := h st List.mem_cons_self
      unfold cleanupError
      cases hends : d.ends st with
      | ok => cases st <;> simp_all
      | driver => simp
      | subscriber => simp
    rw [cleanup, List.append_eq_nil_iff, ih _ fun st' hst' => h st' (List.mem_cons_of_mem _ hst'),
      List.forall_mem_cons, Option.toList_eq_nil_iff, hst]

/-- Locks that the session holds are released unless a statement fails. -/
theorem cleanup_lock_errors (keys : List String) (i : Nat) (s : Session) (h : s.locks = keys) :
    (cleanup d (lockReleases i keys) s).2 = [] ↔ ∀ st ∈ lockReleases i keys, d.ends st = .ok := by
  induction keys generalizing i s with
  | nil => simp [lockReleases, cleanup]
  | cons key keys ih =>
    rw [lockReleases, cleanup, List.append_eq_nil_iff, List.forall_mem_cons,
      Option.toList_eq_nil_iff]
    cases hends : d.ends (.releaseLock i key) with
    | ok =>
      rw [Session.send_of_ends (by simp [hends]), ih (i + 1) _ (by simp [Session.effect, h])]
      simp [cleanupError, hends, h]
    | driver => simp [cleanupError, hends]
    | subscriber => simp [cleanupError, hends]

theorem Session.effects_locks (sts : List Control) (s : Session)
    (h : ∀ st ∈ sts, ∀ i key, st ≠ .releaseLock i key) : (s.effects sts).locks = s.locks := by
  induction sts generalizing s with
  | nil => rfl
  | cons st sts ih =>
    rw [Session.effects, ih _ fun st' hst' => h st' (List.mem_cons_of_mem _ hst')]
    have hplain := h st List.mem_cons_self
    cases st <;> simp_all [Session.effect]

/-- The cleanup collects no error exactly when all its statements succeed. -/
theorem cleanups_errors (h : s.locks = f.locks) :
    (cleanup d (cleanups dialect o f) s).2 = [] ↔
      ∀ st ∈ cleanups dialect o f, d.ends st = .ok := by
  have hsettings : ∀ st ∈ (if dialect = .sqlite then
        (if o.readOnly then [.queryOnly false] else []) ++
          if o.isolation = some .readUncommitted then [.readUncommitted false] else []
      else []), ∀ i key, st ≠ Control.releaseLock i key := by
    intro st hst i key
    grind
  have hlocals : ∀ st ∈ (if dialect = .mysql then
      (sortedEntries id f.locals).map Control.clearLocal else []),
      ∀ i key, st ≠ Control.releaseLock i key := by
    intro st hst i key
    grind
  rw [cleanups, cleanup_append_errors, cleanup_append_errors, List.append_eq_nil_iff,
    List.append_eq_nil_iff, cleanup_plain_errors _ _ hsettings, cleanup_plain_errors _ _ hlocals,
    List.forall_mem_append, List.forall_mem_append]
  apply and_congr_left'
  apply and_congr_right
  intro hok
  apply cleanup_lock_errors
  rw [cleanup_effects, Session.effects_locks _ _ hsettings, h]
  rw [(cleanup_plain_errors _ _ hsettings).mpr hok]
  rfl

end Cleanup

section Finish
variable {dialect : Dialect} {o : BeginOptions} {d : SessionDriver} {aborted : Bool}
  {f : Frame} {s : Session}

theorem Session.returned_discarded (h : s.released = []) : (s.release true).Returned := by
  simp [Session.Returned, Session.release, h]

theorem Session.undone_release (s : Session) (discard : Bool) :
    (s.release discard).Undone ↔ s.Undone :=
  ⟨fun h => ⟨h.1, h.2, h.3, h.4, h.5⟩, fun h => ⟨h.1, h.2, h.3, h.4, h.5⟩⟩

theorem Session.returned_release (h : s.released = []) (discard : Bool) :
    (s.release discard).Returned ↔ (discard = false → s.Undone) := by
  have hreleased : (s.release discard).released = [discard] := by rw [Session.release, h]; rfl
  simp [Session.Returned, hreleased, Session.undone_release]

/-- What the cleanup leaves when it did not find the session to be dirty. -/
theorem cleanup_leaves (h : Taken dialect o f s)
    (hclean : (cleanup d (cleanups dialect o f) s).2.any (· ≠ .subscriber) = false) :
    (cleanup d (cleanups dialect o f) s).1 = ⟨s.inTransaction, false, false, [], [], []⟩ := by
  rw [cleanup_effects _ _ hclean, effects_cleanups h, h.released]

/-- A ROLLBACK returns the session undone or closes it. -/
theorem rollbackEnd_returned {discard : Bool} (hreleased : s.released = [])
    (h : discard = false → ∃ open', s = ⟨open', false, false, [], [], []⟩) :
    (rollbackEnd dialect d discard s).Returned := by
  unfold rollbackEnd
  split
  · rw [Session.returned_release (by rw [Session.send_released, hreleased])]
    intro hkept
    rw [Bool.or_eq_false_iff, decide_eq_false_iff_not] at hkept
    obtain ⟨open', rfl⟩ := h hkept.1
    rw [Session.send_of_ends hkept.2]
    exact ⟨rfl, rfl, rfl, rfl, rfl⟩
  · rename_i hno
    rw [Session.returned_release hreleased]
    intro hkept
    obtain ⟨open', rfl⟩ := h hkept
    have hreported : reported d ⟨open', false, false, [], [], []⟩ = some false := by
      by_contra hne
      exact hno (Or.inr hne)
    have hclosed : open' = false := by
      simpa [reported] using (show d.reports = true ∧ open' = false by
        simpa [reported] using hreported).2
    exact ⟨hclosed, rfl, rfl, rfl, rfl⟩

theorem Session.undone_iff (opened : Bool) (released : List Bool) :
    (⟨opened, false, false, [], [], released⟩ : Session).Undone ↔ opened = false :=
  ⟨fun h => h.closed, fun h => ⟨h, rfl, rfl, rfl, rfl⟩⟩

/-- A COMMIT returns the session undone or closes it, unless it fails, leaves the transaction
open, and the ROLLBACK after it fails too. -/
theorem commitEnd_returned (opened : Bool) :
    (commitEnd dialect d ⟨opened, false, false, [], [], []⟩).Returned ↔
      ¬(opened = true ∧ d.ends .commit = .driver ∧ d.commitEnds = false ∧ d.reports = true ∧
        d.ends .rollback = .driver) := by
  have hreleased (st : Control) (s : Session) (h : s.released = []) :
      (s.send d st).released = [] := by rw [Session.send_released, h]
  by_cases hcommit : d.ends .commit = .driver
  · have hsent : Session.send d .commit ⟨opened, false, false, [], [], []⟩ =
        ⟨opened && !d.commitEnds, false, false, [], [], []⟩ := by
      cases hends : d.commitEnds <;> simp [Session.send, hcommit, hends, Session.effect]
    rw [commitEnd, hsent, if_neg (by simp [hcommit])]
    cases hreports : d.reports with
    | false => simpa [reported, hreports] using Session.returned_discarded rfl
    | true =>
      cases hopen : opened && !d.commitEnds with
      | false =>
        simp only [reported, hreports, if_true]
        rw [Session.returned_release rfl, Session.undone_iff]
        simp only [implies_true, true_iff]
        rintro ⟨rfl, -, hends, -⟩
        simp [hends] at hopen
      | true =>
        simp only [reported, hreports, if_true]
        rw [Session.returned_release (hreleased _ _ rfl)]
        obtain ⟨rfl, hstays⟩ := Bool.and_eq_true_iff.mp hopen
        have hends : d.commitEnds = false := by simpa using hstays
        by_cases hrollback : d.ends .rollback = .driver
        · simp [hcommit, hrollback, Session.send, Session.undone_iff, hends]
        · rw [Session.send_of_ends hrollback]
          simp [hrollback, Session.effect, Session.undone_iff]
  · rw [commitEnd, if_pos hcommit, Session.returned_release (hreleased _ _ rfl),
      Session.send_of_ends hcommit, Session.effect, Session.undone_iff]
    simp [hcommit]

/-- The transaction is to be committed on an open session, all its cleanup succeeds, and then its
COMMIT fails without ending it and the ROLLBACK after that fails. -/
structure Lost (dialect : Dialect) (o : BeginOptions) (d : SessionDriver) (f : Frame)
    (commit opened : Bool) : Prop where
  commits : commit = true
  opened : opened = true
  cleaned : ∀ st ∈ cleanups dialect o f, d.ends st = .ok
  fails : d.ends .commit = .driver
  stays : d.commitEnds = false
  reports : d.reports = true
  rollback : d.ends .rollback = .driver

theorem finish_returned_iff (commit : Bool) (h : Taken dialect o f s) :
    (finish dialect o d aborted f commit s).Returned ↔
      ¬ Lost dialect o d f commit s.inTransaction := by
  unfold finish
  split
  · rename_i haborted
    have hno : commit = false := by
      cases commit with
      | false => rfl
      | true => simp at haborted
    have hlost : ¬ Lost dialect o d f commit s.inTransaction := by
      intro hl
      exact absurd hl.commits (by simp [hno])
    exact iff_of_true (Session.returned_discarded h.released) hlost
  · dsimp only
    have hleaves := cleanup_leaves (d := d) h
    have hreleased : (cleanup d (cleanups dialect o f) s).1.released = [] := by
      rw [cleanup_released, h.released]
    have herrors := @cleanups_errors dialect o d f s h.locks
    split
    · rename_i hcommit
      rw [Bool.and_eq_true_iff, List.isEmpty_iff] at hcommit
      rw [hleaves (by rw [hcommit.2]; rfl), commitEnd_returned]
      apply not_congr
      constructor
      · rintro ⟨ho, hc, he, hr, hb⟩
        exact ⟨hcommit.1, ho, herrors.mp hcommit.2, hc, he, hr, hb⟩
      · intro hl
        exact ⟨hl.opened, hl.fails, hl.stays, hl.reports, hl.rollback⟩
    · rename_i hcommit
      apply iff_of_true
      · apply rollbackEnd_returned hreleased
        intro hclean
        exact ⟨_, hleaves hclean⟩
      · intro hl
        exact hcommit (by simp [hl.commits, herrors.mpr hl.cleaned])

end Finish

section Begin
variable {dialect : Dialect} {o : BeginOptions} {d : SessionDriver} {aborted : Bool}

/-- The effects that the opening statements may have. -/
def Opening (dialect : Dialect) (o : BeginOptions) : Control → Prop
  | .start | .setIsolation | .setTimeout => True
  | .queryOnly _ => dialect = .sqlite ∧ o.readOnly = true
  | .readUncommitted _ => dialect = .sqlite ∧ o.isolation = some .readUncommitted
  | _ => False

theorem beginSteps_opening : ∀ st ∈ beginSteps dialect o, Opening dialect o st := by
  intro st hst
  cases dialect <;> simp only [beginSteps, List.mem_append, List.mem_cons] at hst <;>
    grind [Opening]

theorem Taken.effect {f : Frame} {s : Session} {st : Control} (h : Taken dialect o f s)
    (hst : Opening dialect o st) : Taken dialect o f (s.effect st) := by
  cases st with
  | start => exact ⟨h.1, h.2, h.3, h.4, h.5⟩
  | setIsolation => exact h
  | setTimeout => exact h
  | queryOnly on => exact ⟨fun _ => hst, h.2, h.3, h.4, h.5⟩
  | readUncommitted on => exact ⟨h.1, fun _ => hst, h.3, h.4, h.5⟩
  | releaseLock i key => exact hst.elim
  | clearLocal key => exact hst.elim
  | commit => exact hst.elim
  | rollback => exact hst.elim

theorem Taken.send {f : Frame} {s : Session} {st : Control} (h : Taken dialect o f s)
    (hst : Opening dialect o st) : Taken dialect o f (s.send d st) := by
  unfold Session.send
  split
  · split
    · exact h.effect hst
    · exact h
  · exact h.effect hst

/-- A failed opening returns the session, and a complete one has all its effects. -/
theorem beginFrom_spec (sts : List Control) (began : Bool) (s : Session)
    (h : Taken dialect o ⟨[], []⟩ s) (hsts : ∀ st ∈ sts, Opening dialect o st) :
    match beginFrom dialect o d aborted began sts s with
    | .error s' => s'.Returned ∧ ∃ st ∈ sts, d.ends st ≠ .ok
    | .ok s' => s' = s.effects sts ∧ ∀ st ∈ sts, d.ends st = .ok := by
  induction sts generalizing began s with
  | nil => exact ⟨rfl, by simp⟩
  | cons st sts ih =>
    have hst := hsts st List.mem_cons_self
    have hsent : Taken dialect o ⟨[], []⟩ (s.send d st) := h.send hst
    rw [beginFrom]
    by_cases hends : d.ends st = .ok
    · have hrest := ih (began || st = .start) _ hsent
        fun st' hst' => hsts st' (List.mem_cons_of_mem _ hst')
      rw [if_pos hends]
      split
      · rename_i s' hs'
        rw [hs'] at hrest
        obtain ⟨hreturned, st', hst', hne⟩ := hrest
        exact ⟨hreturned, st', List.mem_cons_of_mem _ hst', hne⟩
      · rename_i s' hs'
        rw [hs'] at hrest
        rw [Session.effects, ← Session.send_of_ends (d := d) (by simp [hends])]
        exact ⟨hrest.1, List.forall_mem_cons.mpr ⟨hends, hrest.2⟩⟩
    · rw [if_neg hends]
      by_cases hbegan : (began || (st = .start && d.ends st = .subscriber)) = true
      · rw [if_pos hbegan]
        refine ⟨(finish_returned_iff false hsent).mpr fun hl => ?_, st, List.mem_cons_self, hends⟩
        exact absurd hl.commits (by simp)
      · rw [if_neg hbegan]
        exact ⟨Session.returned_discarded hsent.released, st, List.mem_cons_self, hends⟩

theorem Session.effects_opened (sts : List Control) (s : Session)
    (hsts : ∀ st ∈ sts, Opening dialect o st) (h : s.inTransaction = true ∨ .start ∈ sts) :
    (s.effects sts).inTransaction = true := by
  induction sts generalizing s with
  | nil => simpa [Session.effects] using h
  | cons st sts ih =>
    apply ih _ fun st' hst' => hsts st' (List.mem_cons_of_mem _ hst')
    have hst := hsts st List.mem_cons_self
    rw [List.mem_cons] at h
    cases st <;> simp_all [Session.effect, Opening]

theorem Taken.effects {f : Frame} (sts : List Control) (s : Session) (h : Taken dialect o f s)
    (hsts : ∀ st ∈ sts, Opening dialect o st) : Taken dialect o f (s.effects sts) := by
  induction sts generalizing s with
  | nil => exact h
  | cons st sts ih =>
    exact ih _ (h.effect (hsts st List.mem_cons_self))
      fun st' hst' => hsts st' (List.mem_cons_of_mem _ hst')

theorem start_mem_beginSteps : .start ∈ beginSteps dialect o := by
  cases dialect <;> simp [beginSteps]

end Begin

section Callback
variable {dialect : Dialect} {o : BeginOptions} {d : SessionDriver} {aborted : Bool}

def Taking.ended : Taking → Ended
  | .lock _ e | .setLocal _ e => e

/-- The frame that a callback leaves does not depend on the session. -/
theorem takeAll_frame (takes : List Taking) (x y : Frame × Session) (h : x.1 = y.1) :
    (takeAll dialect takes x).1 = (takeAll dialect takes y).1 := by
  induction takes generalizing x y with
  | nil => exact h
  | cons t takes ih =>
    apply ih
    unfold take
    split
    · split <;> simp [h]
    · exact h

theorem take_inTransaction (t : Taking) (x : Frame × Session) :
    (take dialect t x).2.inTransaction = x.2.inTransaction := by
  unfold take
  split
  · split <;> rfl
  · rfl

/-- A lock or value whose statement ended by itself is recorded. -/
theorem Taken.take {x : Frame × Session} {t : Taking} (h : Taken dialect o x.1 x.2)
    (ht : dialect = .mysql → t.ended ≠ .subscriber) :
    Taken dialect o (take dialect t x).1 (take dialect t x).2 := by
  unfold Orm.Client.take
  split
  · rename_i hmysql
    split
    · exact h
    · exact h
    · exact ⟨h.1, h.2, by simp [h.locks], h.4, h.5⟩
    · exact absurd rfl (ht hmysql)
    · refine ⟨h.1, h.2, h.3, ?_, h.5⟩
      intro key hkey
      rcases List.mem_append.mp hkey with hkey | hkey
      · have hlocal := (h.values key hkey).2
        refine ⟨hmysql, ?_⟩
        dsimp only
        split
        · exact hlocal
        · exact List.mem_append_left _ hlocal
      · rw [List.mem_singleton.mp hkey]
        refine ⟨hmysql, ?_⟩
        dsimp only
        split
        · assumption
        · simp
    · exact absurd rfl (ht hmysql)
  · exact h

theorem Taken.takeAll (takes : List Taking) {x : Frame × Session} (h : Taken dialect o x.1 x.2)
    (hends : dialect = .mysql → ∀ t ∈ takes, t.ended ≠ .subscriber) :
    Taken dialect o (takeAll dialect takes x).1 (takeAll dialect takes x).2 ∧
      (takeAll dialect takes x).2.inTransaction = x.2.inTransaction := by
  induction takes generalizing x with
  | nil => exact ⟨h, rfl⟩
  | cons t takes ih =>
    obtain ⟨htaken, hopen⟩ := ih (h.take fun hm => hends hm t List.mem_cons_self)
      fun hm t' ht' => hends hm t' (List.mem_cons_of_mem _ ht')
    exact ⟨htaken, hopen.trans (take_inTransaction t x)⟩

/-- The frame that a callback has recorded when it ends. -/
def Callback.frame (dialect : Dialect) (cb : Callback) : Frame :=
  (takeAll dialect cb.takes (⟨[], []⟩, Session.clean)).1

/-- The session of a transaction is released once, and returned to the pool only undone, unless
the COMMIT of an open and cleaned transaction and the ROLLBACK after it both fail. A subscriber
must not fail on a statement that takes a lock or sets a value, for these are recorded after it. -/
theorem runTransaction_returned_iff (dialect : Dialect) (o : BeginOptions) (d : SessionDriver)
    (aborted : Bool) (cb : Callback)
    (hends : dialect = .mysql → ∀ t ∈ cb.takes, t.ended ≠ .subscriber) :
    (runTransaction dialect o d aborted cb Session.clean).Returned ↔
      ¬((∀ st ∈ beginSteps dialect o, d.ends st = .ok) ∧
        Lost dialect o d (cb.frame dialect) (!cb.throws)
          (!decide (dialect = .sqlite ∧ cb.rolledBack))) := by
  have hclean : Taken dialect o ⟨[], []⟩ Session.clean := by
    refine ⟨?_, ?_, rfl, ?_, rfl⟩ <;> simp [Session.clean]
  have hbegin := @beginFrom_spec dialect o d aborted (beginSteps dialect o) false
    Session.clean hclean beginSteps_opening
  unfold runTransaction
  split
  · rename_i s hs
    rw [hs] at hbegin
    obtain ⟨hreturned, st, hst, hne⟩ := hbegin
    exact iff_of_true hreturned fun hl => hne (hl.1 st hst)
  · rename_i s hs
    rw [hs] at hbegin
    obtain ⟨rfl, hok⟩ := hbegin
    obtain ⟨htaken, hopen⟩ := (hclean.effects _ _ beginSteps_opening).takeAll
      (x := (⟨[], []⟩, _)) cb.takes hends
    have hframe : cb.frame dialect = _ :=
      takeAll_frame cb.takes _ (⟨[], []⟩, Session.clean.effects (beginSteps dialect o)) rfl
    rw [Session.effects_opened _ _ beginSteps_opening (Or.inr start_mem_beginSteps)] at hopen
    rw [hframe]
    dsimp only
    rw [and_iff_right hok]
    by_cases hrolled : dialect = .sqlite ∧ cb.rolledBack = true
    · rw [if_pos hrolled, decide_eq_true hrolled]
      exact finish_returned_iff _ ⟨htaken.1, htaken.2, htaken.3, htaken.4, htaken.5⟩
    · rw [if_neg hrolled, decide_eq_false hrolled, finish_returned_iff _ htaken, hopen]
      rfl

/-- An error of the driver on both ends of a SQLite transaction returns an open session, and so
does a subscriber that fails after the statement that took a MySQL lock. -/
theorem runTransaction_not_returned :
    ¬ (runTransaction .sqlite ⟨none, false, false⟩
      ⟨fun st => if st = .commit ∨ st = .rollback then .driver else .ok, false, true⟩ false
      ⟨[], false, false⟩ Session.clean).Returned ∧
    ¬ (runTransaction .mysql ⟨none, false, false⟩ ⟨fun _ => .ok, false, true⟩ false
      ⟨[.lock "k" .subscriber], false, true⟩ Session.clean).Returned := by
  constructor
  · intro h
    exact absurd (h.2 (by decide)).closed (by decide)
  · intro h
    exact absurd (h.2 (by decide)).locks (by decide)

/-- A failed COMMIT whose ROLLBACK succeeds returns the session undone. -/
theorem runTransaction_returned_rollback :
    (runTransaction .mysql ⟨some .serializable, false, false⟩
      ⟨fun st => if st = .commit then .driver else .ok, false, true⟩ false
      ⟨[.lock "k" .ok, .setLocal "v" .ok], false, false⟩ Session.clean).Returned := by
  apply (runTransaction_returned_iff _ _ _ _ _ (by decide)).mpr
  rintro ⟨-, hl⟩
  exact absurd hl.rollback (by decide)

end Callback

end Orm.Client
