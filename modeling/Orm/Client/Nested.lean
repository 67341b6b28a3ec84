import Orm.Client.Transaction
import Orm.Logic.Keyed

/-! Nested transactions that run at the same time on one connection: their savepoints and writes. -/
namespace Orm.Client

open Orm.Logic (runSteps runSteps_append runSteps_append_eq_some)

/-- How a nested call ends: it returns, or it rejects with or without a ROLLBACK error. -/
inductive NestedEnd where
  | done
  | rejected (rollbackError : Bool)
  deriving DecidableEq, Repr

/-- Where a nested call is between its awaits, with the number of its savepoint and of its writes:
its callback runs, its ROLLBACK TO was sent, its last statement was sent, or it ended. -/
inductive NestedCall where
  | running (number wrote : Nat)
  | undoing (number wrote : Nat) (refused : Bool)
  | closing (e : NestedEnd) (wrote : Nat)
  | ended (e : NestedEnd) (wrote : Nat)
  deriving DecidableEq, Repr

/-- A savepoint of the database: its number, the call that opened it, and the writes before it. -/
structure OpenSavepoint where
  number : Nat
  owner : Nat
  data : List Nat
  deriving DecidableEq, Repr

/-- The active transaction: the counter of its frame, the savepoints of the database with the newest
first, the calls whose writes stand, and the nested calls. -/
structure NestedTx where
  savepoints : Nat
  stack : List OpenSavepoint
  data : List Nat
  calls : Nat → Option NestedCall

/-- What runs without interruption. A SAVEPOINT succeeds; a RELEASE or ROLLBACK TO fails when the
database has no savepoint of the name. -/
inductive NestedEvent where
  | start (i : Nat)
  | write (i : Nat)
  | reject (i : Nat)
  | releaseRejected (i : Nat)
  | release (i : Nat)
  | close (i : Nat)
  deriving DecidableEq, Repr

namespace NestedTx

def empty : NestedTx := ⟨0, [], [], fun _ => none⟩

def put (s : NestedTx) (i : Nat) (c : NestedCall) : NestedTx :=
  { s with calls := Function.update s.calls i (some c) }

/-- The newest savepoint of a name. -/
def lookup (s : NestedTx) (number : Nat) : Option OpenSavepoint :=
  s.stack.find? fun e => savepointName e.number = savepointName number

/-- RELEASE: the savepoint and the newer ones are gone. -/
def released (s : NestedTx) (number : Nat) : NestedTx :=
  { s with stack := (s.stack.dropWhile fun e => savepointName e.number ≠ savepointName number).tail }

/-- ROLLBACK TO: the newer savepoints are gone and the writes since the savepoint are undone. -/
def rolledBack (s : NestedTx) (number : Nat) (e : OpenSavepoint) : NestedTx :=
  { s with
    stack := s.stack.dropWhile fun e => savepointName e.number ≠ savepointName number
    data := e.data }

def step : NestedEvent → NestedTx → Option NestedTx
  | .start i, s => if (s.calls i).isNone then
      let number := s.savepoints + 1
      some ({ s with savepoints := number, stack := ⟨number, i, s.data⟩ :: s.stack }.put i
        (.running number 0))
    else none
  | .write i, s => match s.calls i with
    | some (.running number wrote) =>
      some ({ s with data := s.data ++ [i] }.put i (.running number (wrote + 1)))
    | _ => none
  | .reject i, s => match s.calls i with
    | some (.running number wrote) => match s.lookup number with
      | some e => some ((s.rolledBack number e).put i (.undoing number wrote false))
      | none => some (s.put i (.undoing number wrote true))
    | _ => none
  | .releaseRejected i, s => match s.calls i with
    | some (.undoing number wrote refused) => match s.lookup number with
      | some _ => some ((s.released number).put i (.closing (.rejected refused) wrote))
      | none => some (s.put i (.closing (.rejected true) wrote))
    | _ => none
  | .release i, s => match s.calls i with
    | some (.running number wrote) => match s.lookup number with
      | some _ => some ((s.released number).put i (.closing .done wrote))
      | none => some (s.put i (.closing (.rejected false) wrote))
    | _ => none
  | .close i, s => match s.calls i with
    | some (.closing e wrote) =>
      some ({ s with savepoints := s.savepoints - 1 }.put i (.ended e wrote))
    | _ => none

def run (events : List NestedEvent) : Option NestedTx := runSteps step events empty

/-- The call has still to release its savepoint. -/
def Active (s : NestedTx) (i number : Nat) : Prop :=
  (∃ wrote, s.calls i = some (.running number wrote)) ∨
    ∃ wrote refused, s.calls i = some (.undoing number wrote refused)

end NestedTx

/-- The writes of a call that should stand: none after it rejected without a ROLLBACK error. -/
def NestedCall.standing : NestedCall → Option Nat
  | .running _ wrote => some wrote
  | .undoing _ _ _ => none
  | .closing (.rejected false) _ | .ended (.rejected false) _ => some 0
  | .closing _ wrote | .ended _ wrote => some wrote

/-- The open savepoints have distinct names, the next RELEASE or ROLLBACK TO of a call finds the
savepoint that the call opened, and exactly the writes that should stand do. -/
structure NestedTx.Sound (s : NestedTx) : Prop where
  names : (s.stack.map fun e => savepointName e.number).Nodup
  own : ∀ i number, s.Active i number → ∃ e, s.lookup number = some e ∧ e.owner = i
  writes : ∀ i c k, s.calls i = some c → c.standing = some k → s.data.count i = k

open NestedTx

/-- The event starts no nested call. -/
def NestedEvent.CallFree (e : NestedEvent) : Prop := ∀ i, e ≠ .start i

/-- Every interleaving of the nested calls that were started is sound. -/
def SoundAll (events : List NestedEvent) : Prop :=
  ∀ before, before <+: events → ∀ rest, (∀ e ∈ rest, e.CallFree) →
    ∀ s, run (before ++ rest) = some s → s.Sound

/-- At most one nested call has a savepoint to release. -/
def NestedTx.Single (s : NestedTx) : Prop :=
  ∀ i j number number', s.Active i number → s.Active j number' → i = j

def OneAtATime (events : List NestedEvent) : Prop :=
  ∀ before, before <+: events → ∀ s, run before = some s → s.Single

section Steps
variable {s s' : NestedTx} {i j n : Nat} {c c' : NestedCall} {e : NestedEvent}

theorem nested_put_self : (s.put i c).calls i = some c := Function.update_self ..

theorem nested_put_other (h : j ≠ i) : (s.put i c).calls j = s.calls j := Function.update_of_ne h ..

/-- What an event does. -/
theorem nested_cases (h : step e s = some s') :
    (∃ i, e = .start i ∧ s.calls i = none ∧ s' = { s with
      savepoints := s.savepoints + 1
      stack := ⟨s.savepoints + 1, i, s.data⟩ :: s.stack }.put i (.running (s.savepoints + 1) 0)) ∨
    (∃ i n k, e = .write i ∧ s.calls i = some (.running n k) ∧
      s' = { s with data := s.data ++ [i] }.put i (.running n (k + 1))) ∨
    (∃ i n k, e = .reject i ∧ s.calls i = some (.running n k) ∧
      ((∃ x, s.lookup n = some x ∧ s' = (s.rolledBack n x).put i (.undoing n k false)) ∨
        s.lookup n = none ∧ s' = s.put i (.undoing n k true))) ∨
    (∃ i n k r, e = .releaseRejected i ∧ s.calls i = some (.undoing n k r) ∧
      ((∃ x, s.lookup n = some x ∧ s' = (s.released n).put i (.closing (.rejected r) k)) ∨
        s.lookup n = none ∧ s' = s.put i (.closing (.rejected true) k))) ∨
    (∃ i n k, e = .release i ∧ s.calls i = some (.running n k) ∧
      ((∃ x, s.lookup n = some x ∧ s' = (s.released n).put i (.closing .done k)) ∨
        s.lookup n = none ∧ s' = s.put i (.closing (.rejected false) k))) ∨
    (∃ i r k, e = .close i ∧ s.calls i = some (.closing r k) ∧
      s' = { s with savepoints := s.savepoints - 1 }.put i (.ended r k)) := by
  cases e with
  | start i =>
    simp only [step] at h
    split at h
    · next hnone => exact .inl ⟨i, rfl, Option.isNone_iff_eq_none.mp hnone, (Option.some.inj h).symm⟩
    · cases h
  | write i =>
    simp only [step] at h
    split at h
    · next n k hi => exact .inr (.inl ⟨i, n, k, rfl, hi, (Option.some.inj h).symm⟩)
    · cases h
  | reject i =>
    simp only [step] at h
    split at h
    · next n k hi =>
      refine .inr (.inr (.inl ⟨i, n, k, rfl, hi, ?_⟩))
      split at h
      · next x hx => exact .inl ⟨x, hx, (Option.some.inj h).symm⟩
      · next hx => exact .inr ⟨hx, (Option.some.inj h).symm⟩
    · cases h
  | releaseRejected i =>
    simp only [step] at h
    split at h
    · next n k r hi =>
      refine .inr (.inr (.inr (.inl ⟨i, n, k, r, rfl, hi, ?_⟩)))
      split at h
      · next x hx => exact .inl ⟨x, hx, (Option.some.inj h).symm⟩
      · next hx => exact .inr ⟨hx, (Option.some.inj h).symm⟩
    · cases h
  | release i =>
    simp only [step] at h
    split at h
    · next n k hi =>
      refine .inr (.inr (.inr (.inr (.inl ⟨i, n, k, rfl, hi, ?_⟩))))
      split at h
      · next x hx => exact .inl ⟨x, hx, (Option.some.inj h).symm⟩
      · next hx => exact .inr ⟨hx, (Option.some.inj h).symm⟩
    · cases h
  | close i =>
    simp only [step] at h
    split at h
    · next r k hi => exact .inr (.inr (.inr (.inr (.inr ⟨i, r, k, rfl, hi, (Option.some.inj h).symm⟩))))
    · cases h

/-- The call of an event other than a start moves, and the other calls stay. -/
theorem calls_of_step (hfree : e.CallFree) (h : step e s = some s') :
    ∃ i c c', s.calls i = some c ∧ s'.calls i = some c' ∧ (∀ n, s'.Active i n → s.Active i n) ∧
      ∀ j, j ≠ i → s'.calls j = s.calls j := by
  rcases nested_cases h with ⟨i, rfl, _⟩ | ⟨i, n, k, _, hi, rfl⟩ |
    ⟨i, n, k, _, hi, ⟨x, _, rfl⟩ | ⟨_, rfl⟩⟩ | ⟨i, n, k, r, _, hi, ⟨x, _, rfl⟩ | ⟨_, rfl⟩⟩ |
    ⟨i, n, k, _, hi, ⟨x, _, rfl⟩ | ⟨_, rfl⟩⟩ | ⟨i, r, k, _, hi, rfl⟩
  · exact absurd rfl (hfree i)
  all_goals
    refine ⟨i, _, _, hi, nested_put_self, fun m hm => ?_, fun j hj => nested_put_other hj⟩
    rcases hm with ⟨k', hm⟩ | ⟨k', r', hm⟩
    all_goals
      rw [nested_put_self] at hm
      cases hm
  · exact .inl ⟨k, hi⟩
  · exact .inl ⟨k, hi⟩
  · exact .inl ⟨k, hi⟩

/-- Only a start makes a call active. -/
theorem active_of_step (hfree : e.CallFree) (h : step e s = some s') (hj : s'.Active j n) :
    s.Active j n := by
  obtain ⟨i, _, _, _, _, hactive, hother⟩ := calls_of_step hfree h
  by_cases hji : j = i
  · subst hji
    exact hactive n hj
  · unfold Active at hj ⊢
    rwa [hother j hji] at hj

theorem single_of_step (hs : s.Single) (hfree : e.CallFree) (h : step e s = some s') : s'.Single :=
  fun i j n n' hi hj => hs i j n n' (active_of_step hfree h hi) (active_of_step hfree h hj)

end Steps

section OneCall
variable {s s' : NestedTx} {i j n k : Nat} {c : NestedCall} {e : NestedEvent}
  {before : List Nat} {events : List NestedEvent}

/-- No savepoint is open, or the one of the only active call is; its writes follow those before. -/
inductive Phase (s : NestedTx) : Prop
  | idle (hstack : s.stack = []) (hnone : ∀ i n, ¬ s.Active i n)
  | running (i n k : Nat) (before : List Nat) (hstack : s.stack = [⟨n, i, before⟩])
    (hone : ∀ j n', s.Active j n' → j = i) (hbefore : before.count i = 0)
    (hcall : s.calls i = some (.running n k)) (hdata : s.data = before ++ List.replicate k i)
  | undoing (i n k : Nat) (before : List Nat) (hstack : s.stack = [⟨n, i, before⟩])
    (hone : ∀ j n', s.Active j n' → j = i) (hbefore : before.count i = 0)
    (hcall : s.calls i = some (.undoing n k false)) (hdata : s.data = before)

/-- What holds while at most one nested call is active. -/
structure Alone (s : NestedTx) : Prop where
  phase : Phase s
  writes : ∀ i c k, s.calls i = some c → c.standing = some k → s.data.count i = k
  unused : ∀ i, s.calls i = none → s.data.count i = 0

theorem lookup_single {x : OpenSavepoint} (hstack : s.stack = [x]) (hx : x.number = n) :
    s.lookup n = some x := by
  unfold lookup
  rw [hstack, List.find?_cons_of_pos (by simp [hx])]

theorem Alone.sound (h : Alone s) : s.Sound where
  names := by
    cases h.phase with
    | idle hstack _ => simp [hstack]
    | running i n k before hstack => simp [hstack]
    | undoing i n k before hstack => simp [hstack]
  own := by
    intro j m hj
    cases h.phase with
    | idle _ hnone => exact absurd hj (hnone j m)
    | running i n k before hstack hone _ hcall _ =>
      obtain rfl := hone j m hj
      have hm : n = m := by
        rcases hj with ⟨k', hj⟩ | ⟨k', r, hj⟩ <;> cases hcall.symm.trans hj
        rfl
      exact ⟨_, lookup_single hstack hm, rfl⟩
    | undoing i n k before hstack hone _ hcall _ =>
      obtain rfl := hone j m hj
      have hm : n = m := by
        rcases hj with ⟨k', hj⟩ | ⟨k', r, hj⟩ <;> cases hcall.symm.trans hj
        rfl
      exact ⟨_, lookup_single hstack hm, rfl⟩
  writes := h.writes

theorem alone_empty : Alone empty where
  phase := .idle rfl (by
    rintro i n (⟨k, h⟩ | ⟨k, r, h⟩) <;> cases h)
  writes := nofun
  unused := fun _ _ => rfl

/-- The phase of a call that runs. -/
theorem Alone.of_running (h : Alone s) (hi : s.calls i = some (.running n k)) :
    ∃ before, s.stack = [⟨n, i, before⟩] ∧ (∀ j n', s.Active j n' → j = i) ∧
      before.count i = 0 ∧ s.data = before ++ List.replicate k i := by
  have hactive : s.Active i n := .inl ⟨k, hi⟩
  cases h.phase with
  | idle _ hnone => exact absurd hactive (hnone i n)
  | running i' n' k' before hstack hone hbefore hcall hdata =>
    obtain rfl := hone i n hactive
    cases hi.symm.trans hcall
    exact ⟨before, hstack, hone, hbefore, hdata⟩
  | undoing i' n' k' before hstack hone hbefore hcall hdata =>
    obtain rfl := hone i n hactive
    cases hi.symm.trans hcall

theorem Alone.of_undoing {r : Bool} (h : Alone s) (hi : s.calls i = some (.undoing n k r)) :
    r = false ∧ ∃ before, s.stack = [⟨n, i, before⟩] ∧ (∀ j n', s.Active j n' → j = i) ∧
      before.count i = 0 ∧ s.data = before := by
  have hactive : s.Active i n := .inr ⟨k, r, hi⟩
  cases h.phase with
  | idle _ hnone => exact absurd hactive (hnone i n)
  | running i' n' k' before hstack hone hbefore hcall hdata =>
    obtain rfl := hone i n hactive
    cases hi.symm.trans hcall
  | undoing i' n' k' before hstack hone hbefore hcall hdata =>
    obtain rfl := hone i n hactive
    cases hi.symm.trans hcall
    exact ⟨rfl, before, hstack, hone, hbefore, hdata⟩

theorem count_other {l : List Nat} (h : j ≠ i) : (l ++ List.replicate k i).count j = l.count j := by
  rw [List.count_append, List.count_replicate, if_neg (by simpa using h.symm), Nat.add_zero]

theorem count_own {l : List Nat} (h : l.count i = 0) : (l ++ List.replicate k i).count i = k := by
  rw [List.count_append, List.count_replicate_self, h, Nat.zero_add]

/-- The records stay right when one call moves and the counts of the others stay. -/
theorem Alone.moved (h : Alone s) (hi : s'.calls i = some c)
    (hother : ∀ j, j ≠ i → s'.calls j = s.calls j)
    (hcount : ∀ j, j ≠ i → s'.data.count j = s.data.count j)
    (hown : ∀ k, c.standing = some k → s'.data.count i = k) (hphase : Phase s') : Alone s' where
  phase := hphase
  writes := by
    intro j c' k hj hstanding
    by_cases hji : j = i
    · subst hji
      cases hi.symm.trans hj
      exact hown k hstanding
    · rw [hcount j hji]
      exact h.writes j c' k (hother j hji ▸ hj) hstanding
  unused := by
    intro j hj
    by_cases hji : j = i
    · subst hji
      cases hi.symm.trans hj
    · rw [hcount j hji]
      exact h.unused j (hother j hji ▸ hj)

theorem active_other (hother : ∀ j, j ≠ i → s'.calls j = s.calls j) (hji : j ≠ i)
    (hj : s'.Active j n) : s.Active j n := by
  unfold Active at hj ⊢
  rwa [hother j hji] at hj

theorem Alone.start (h : Alone s) (hi : s.calls i = none)
    (hsingle : ({ s with
      savepoints := s.savepoints + 1
      stack := ⟨s.savepoints + 1, i, s.data⟩ :: s.stack }.put i
        (.running (s.savepoints + 1) 0)).Single) :
    Alone ({ s with
      savepoints := s.savepoints + 1
      stack := ⟨s.savepoints + 1, i, s.data⟩ :: s.stack }.put i (.running (s.savepoints + 1) 0)) := by
  have hactive : ∀ j n, ¬ s.Active j n := by
    intro j n hj
    have hji : j ≠ i := by
      rintro rfl
      rcases hj with ⟨k, hj⟩ | ⟨k, r, hj⟩ <;> cases hi.symm.trans hj
    refine hji (hsingle j i n (s.savepoints + 1) ?_ (.inl ⟨0, nested_put_self⟩))
    unfold Active
    rwa [nested_put_other hji]
  have hstack : s.stack = [] := by
    cases h.phase with
    | idle hstack _ => exact hstack
    | running i' n k _ _ _ _ hcall _ => exact absurd (.inl ⟨k, hcall⟩) (hactive i' n)
    | undoing i' n k _ _ _ _ hcall _ => exact absurd (.inr ⟨k, _, hcall⟩) (hactive i' n)
  refine h.moved nested_put_self (fun j hj => nested_put_other hj) (fun _ _ => rfl) (fun k hk => ?_)
    (.running i _ 0 s.data (congrArg _ hstack) (fun j n' hj => ?_) (h.unused i hi) nested_put_self
      (List.append_nil _).symm)
  · cases hk
    exact h.unused i hi
  · by_contra hji
    exact hactive j n' (active_other (fun j hj => nested_put_other hj) hji hj)

theorem Alone.write (h : Alone s) (hi : s.calls i = some (.running n k)) :
    Alone ({ s with data := s.data ++ [i] }.put i (.running n (k + 1))) := by
  obtain ⟨before, hstack, hone, hbefore, hdata⟩ := h.of_running hi
  have hdata' : s.data ++ [i] = before ++ List.replicate (k + 1) i := by
    rw [hdata, List.append_assoc, List.replicate_succ']
  refine h.moved nested_put_self (fun j hj => nested_put_other hj) (fun j hj => ?_) (fun k' hk' => ?_)
    (.running i n (k + 1) before hstack (fun j n' hj => ?_) hbefore nested_put_self hdata')
  · exact (count_other (k := 1) hj)
  · cases hk'
    exact (congrArg (List.count i) hdata').trans (count_own hbefore)
  · by_contra hji
    exact hji (hone j n' (active_other (fun j hj => nested_put_other hj) hji hj))

theorem dropWhile_single {x : OpenSavepoint} (hstack : s.stack = [x]) (hx : x.number = n) :
    (s.stack.dropWhile fun e => savepointName e.number ≠ savepointName n) = [x] := by
  rw [hstack, List.dropWhile_cons_of_neg (by simp [hx])]

theorem Alone.reject (h : Alone s) (hi : s.calls i = some (.running n k)) {x : OpenSavepoint}
    (hx : s.lookup n = some x) : Alone ((s.rolledBack n x).put i (.undoing n k false)) := by
  obtain ⟨before, hstack, hone, hbefore, hdata⟩ := h.of_running hi
  cases hx.symm.trans (lookup_single hstack rfl)
  refine h.moved nested_put_self (fun j hj => nested_put_other hj) (fun j hj => ?_) nofun
    (.undoing i n k before (dropWhile_single hstack rfl) (fun j n' hj => ?_) hbefore nested_put_self rfl)
  · rw [hdata, count_other hj]
    rfl
  · by_contra hji
    exact hji (hone j n' (active_other (fun j hj => nested_put_other hj) hji hj))

/-- After the only active call released its savepoint none is open. -/
theorem idle_released (hstack : s.stack = [⟨n, i, before⟩])
    (hone : ∀ j n', s.Active j n' → j = i) (hc : ∀ m, ¬ ((s.released n).put i c).Active i m) :
    Phase ((s.released n).put i c) := by
  refine .idle (congrArg List.tail (dropWhile_single hstack rfl)) fun j m hj => ?_
  by_cases hji : j = i
  · subst hji
    exact hc m hj
  · exact hji (hone j m (active_other (fun j hj => nested_put_other hj) hji hj))

theorem not_active_closing {r : NestedEnd} (m : Nat) : ¬ (s.put i (.closing r k)).Active i m := by
  rintro (⟨k', h⟩ | ⟨k', r', h⟩) <;> cases nested_put_self.symm.trans h

theorem Alone.releaseRejected {r : Bool} (h : Alone s) (hi : s.calls i = some (.undoing n k r)) :
    Alone ((s.released n).put i (.closing (.rejected r) k)) := by
  obtain ⟨rfl, before, hstack, hone, hbefore, hdata⟩ := h.of_undoing hi
  refine h.moved nested_put_self (fun j hj => nested_put_other hj) (fun _ _ => rfl) (fun k' hk' => ?_)
    (idle_released hstack hone fun m => not_active_closing m)
  cases hk'
  exact (congrArg (List.count i) hdata).trans hbefore

theorem Alone.release (h : Alone s) (hi : s.calls i = some (.running n k)) :
    Alone ((s.released n).put i (.closing .done k)) := by
  obtain ⟨before, hstack, hone, hbefore, hdata⟩ := h.of_running hi
  refine h.moved nested_put_self (fun j hj => nested_put_other hj) (fun _ _ => rfl) (fun k' hk' => ?_)
    (idle_released hstack hone fun m => not_active_closing m)
  cases hk'
  exact (congrArg (List.count i) hdata).trans (count_own hbefore)

theorem Alone.close {r : NestedEnd} (h : Alone s) (hi : s.calls i = some (.closing r k)) :
    Alone ({ s with savepoints := s.savepoints - 1 }.put i (.ended r k)) := by
  have hother : ∀ j, j ≠ i → ({ s with savepoints := s.savepoints - 1 }.put i (.ended r k)).calls j =
      s.calls j := fun j hj => nested_put_other hj
  have hactive : ∀ j m, ({ s with savepoints := s.savepoints - 1 }.put i (.ended r k)).Active j m →
      s.Active j m := by
    intro j m hj
    by_cases hji : j = i
    · subst hji
      rcases hj with ⟨k', hj⟩ | ⟨k', r', hj⟩ <;> cases nested_put_self.symm.trans hj
    · exact active_other hother hji hj
  refine h.moved nested_put_self hother (fun _ _ => rfl) (fun k' hk' => ?_) ?_
  · refine h.writes i _ k' hi ?_
    rw [← hk']
    cases r with
    | done => rfl
    | rejected b => cases b <;> rfl
  · cases h.phase with
    | idle hstack hnone => exact .idle hstack fun j m hj => hnone j m (hactive j m hj)
    | running i' n k before hstack hone hbefore hcall hdata =>
      have hne : i' ≠ i := by
        rintro rfl
        cases hi.symm.trans hcall
      exact .running i' n k before hstack (fun j m hj => hone j m (hactive j m hj)) hbefore
        ((hother i' hne).trans hcall) hdata
    | undoing i' n k before hstack hone hbefore hcall hdata =>
      have hne : i' ≠ i := by
        rintro rfl
        cases hi.symm.trans hcall
      exact .undoing i' n k before hstack (fun j m hj => hone j m (hactive j m hj)) hbefore
        ((hother i' hne).trans hcall) hdata

theorem Alone.step (h : Alone s) (hsingle : s'.Single) (hstep : step e s = some s') : Alone s' := by
  rcases nested_cases hstep with ⟨i, _, hi, rfl⟩ | ⟨i, n, k, _, hi, rfl⟩ |
    ⟨i, n, k, _, hi, ⟨x, hx, rfl⟩ | ⟨hx, rfl⟩⟩ | ⟨i, n, k, r, _, hi, ⟨x, hx, rfl⟩ | ⟨hx, rfl⟩⟩ |
    ⟨i, n, k, _, hi, ⟨x, hx, rfl⟩ | ⟨hx, rfl⟩⟩ | ⟨i, r, k, _, hi, rfl⟩
  · exact h.start hi hsingle
  · exact h.write hi
  · exact h.reject hi hx
  · obtain ⟨y, hy, _⟩ := h.sound.own i n (.inl ⟨k, hi⟩)
    cases hx.symm.trans hy
  · exact h.releaseRejected hi
  · obtain ⟨y, hy, _⟩ := h.sound.own i n (.inr ⟨k, r, hi⟩)
    cases hx.symm.trans hy
  · exact h.release hi
  · obtain ⟨y, hy, _⟩ := h.sound.own i n (.inl ⟨k, hi⟩)
    cases hx.symm.trans hy
  · exact h.close hi

theorem OneAtATime.alone (h : OneAtATime events) (hrun : run events = some s) : Alone s := by
  induction events using List.reverseRecOn generalizing s with
  | nil =>
    cases hrun
    exact alone_empty
  | append_singleton events e ih =>
    have hsingle := h _ (List.prefix_refl _) s hrun
    unfold run at hrun
    rw [runSteps_append_eq_some] at hrun
    obtain ⟨t, ht, hlast⟩ := hrun
    obtain ⟨_, hfirst, hnil⟩ := Option.bind_eq_some_iff.mp hlast
    have hevents : OneAtATime events := fun before hb s hs =>
      h before (hb.trans (List.prefix_append _ _)) s hs
    exact (ih hevents ht).step hsingle (hfirst.trans hnil)

theorem alone_rest {rest : List NestedEvent} (hrest : ∀ e ∈ rest, e.CallFree) (h : Alone s)
    (hsingle : s.Single) (hrun : runSteps NestedTx.step rest s = some s') : Alone s' := by
  induction rest generalizing s with
  | nil =>
    cases hrun
    exact h
  | cons e rest ih =>
    obtain ⟨t, hstep, hrun⟩ := Option.bind_eq_some_iff.mp hrun
    have ht := single_of_step hsingle (hrest e List.mem_cons_self) hstep
    exact ih (fun e' he' => hrest e' (List.mem_cons_of_mem _ he')) (h.step ht hstep) ht hrun

end OneCall

section Overlap
variable {s s' : NestedTx} {i j n m : Nat} {e : NestedEvent} {events : List NestedEvent}

/-- In every run each call opens at most one savepoint. -/
structure Owned (s : NestedTx) : Prop where
  owners : (s.stack.map OpenSavepoint.owner).Nodup
  known : ∀ x ∈ s.stack, s.calls x.owner ≠ none

theorem Owned.of_sublist (h : Owned s) (hsub : s'.stack.Sublist s.stack)
    (hcalls : ∀ i, s.calls i ≠ none → s'.calls i ≠ none) : Owned s' :=
  ⟨(hsub.map _).nodup h.owners, fun x hx => hcalls _ (h.known x (hsub.subset hx))⟩

theorem put_known {c : NestedCall} (h : s.calls j ≠ none) : (s.put i c).calls j ≠ none := by
  by_cases hji : j = i
  · rw [hji, nested_put_self]
    nofun
  · rwa [nested_put_other hji]

theorem Owned.step (h : Owned s) (hstep : step e s = some s') : Owned s' := by
  have hdrop : ∀ n, (s.stack.dropWhile fun e => savepointName e.number ≠ savepointName n).Sublist
      s.stack := fun n => List.dropWhile_sublist _
  rcases nested_cases hstep with ⟨i, _, hi, rfl⟩ | ⟨i, n, k, _, hi, rfl⟩ |
    ⟨i, n, k, _, hi, ⟨x, hx, rfl⟩ | ⟨hx, rfl⟩⟩ | ⟨i, n, k, r, _, hi, ⟨x, hx, rfl⟩ | ⟨hx, rfl⟩⟩ |
    ⟨i, n, k, _, hi, ⟨x, hx, rfl⟩ | ⟨hx, rfl⟩⟩ | ⟨i, r, k, _, hi, rfl⟩
  · refine ⟨List.nodup_cons.mpr ⟨fun hmem => ?_, h.owners⟩, fun x hx => ?_⟩
    · obtain ⟨x, hx, rfl⟩ := List.mem_map.mp hmem
      exact h.known x hx hi
    · rcases List.mem_cons.mp hx with rfl | hx
      · rw [nested_put_self]
        nofun
      · exact put_known (s := { s with savepoints := _, stack := _ }) (h.known x hx)
  · exact h.of_sublist (.refl _) fun _ => put_known (s := { s with data := _ })
  · exact h.of_sublist (hdrop n) fun _ => put_known (s := s.rolledBack n x)
  · exact h.of_sublist (.refl _) fun _ => put_known
  · exact h.of_sublist ((List.tail_sublist _).trans (hdrop n)) fun _ => put_known (s := s.released n)
  · exact h.of_sublist (.refl _) fun _ => put_known
  · exact h.of_sublist ((List.tail_sublist _).trans (hdrop n)) fun _ => put_known (s := s.released n)
  · exact h.of_sublist (.refl _) fun _ => put_known
  · exact h.of_sublist (.refl _) fun _ => put_known (s := { s with savepoints := _ })

theorem Owned.rest (h : Owned s) (hrun : runSteps NestedTx.step events s = some s') : Owned s' := by
  induction events generalizing s with
  | nil =>
    cases hrun
    exact h
  | cons e events ih =>
    obtain ⟨t, hstep, hrest⟩ := Option.bind_eq_some_iff.mp hrun
    exact ih (h.step hstep) hrest

/-- Every continuation without new calls is sound. -/
def SoundFrom (s : NestedTx) : Prop :=
  ∀ rest, (∀ e ∈ rest, e.CallFree) → ∀ s', runSteps NestedTx.step rest s = some s' → s'.Sound

/-- The next statement of an active call can release its savepoint. -/
theorem can_release (hi : s.Active i n) {x : OpenSavepoint} (hx : s.lookup n = some x) :
    ∃ e c, NestedEvent.CallFree e ∧ NestedTx.step e s = some ((s.released n).put i c) := by
  rcases hi with ⟨k, hi⟩ | ⟨k, r, hi⟩
  · exact ⟨.release i, .closing .done k, nofun, by simp only [step, hi, hx]⟩
  · exact ⟨.releaseRejected i, .closing (.rejected r) k, nofun, by simp only [step, hi, hx]⟩

/-- The release of a savepoint takes the newer savepoint of another call away. -/
theorem release_breaks (h : SoundFrom s) (ho : Owned s) {x y : OpenSavepoint}
    {newer older : List OpenSavepoint} (hstack : s.stack = newer ++ x :: older)
    (hy : y ∈ newer) (hi : s.Active x.owner n) (hx : s.lookup n = some x)
    (hj : s.Active y.owner m) : False := by
  have hsplit := ho.owners
  rw [hstack, List.map_append, List.map_cons] at hsplit
  have hne : y.owner ≠ x.owner := fun heq =>
    (List.nodup_append.mp hsplit).2.2 _ (List.mem_map_of_mem hy) _ List.mem_cons_self heq
  obtain ⟨e, c, hfree, hstep⟩ := can_release hi hx
  have hsound := h [e] (fun e' he' => List.mem_singleton.mp he' ▸ hfree) _
    (Option.bind_eq_some_iff.mpr ⟨_, hstep, rfl⟩)
  have hactive : ((s.released n).put x.owner c).Active y.owner m := by
    unfold Active
    rwa [nested_put_other hne]
  obtain ⟨z, hz, howner⟩ := hsound.own _ _ hactive
  have hname : savepointName x.number = savepointName n := by
    have hfound := List.find?_some hx
    exact of_decide_eq_true hfound
  have hnames := (h [] nofun s rfl).names
  rw [hstack, List.map_append, List.map_cons] at hnames
  have hrest : (s.released n).stack = older := by
    have hdrop : s.stack.dropWhile (fun e => savepointName e.number ≠ savepointName n) = x :: older := by
      rw [hstack, List.dropWhile_append_of_pos fun a ha => ?_, List.dropWhile_cons_of_neg (by simp [hname])]
      refine decide_eq_true fun heq => ?_
      exact (List.nodup_append.mp hnames).2.2 _ (List.mem_map_of_mem ha) _ List.mem_cons_self
        (heq.trans hname.symm)
    exact congrArg List.tail hdrop
  have hmem : z ∈ older := by
    rw [← hrest]
    exact List.mem_of_find?_eq_some hz
  exact (List.nodup_append.mp hsplit).2.2 _ (List.mem_map_of_mem hy) _
    (List.mem_cons_of_mem _ (List.mem_map_of_mem hmem)) howner.symm

/-- Two active calls break the savepoints of each other in some interleaving. -/
theorem active_breaks (h : SoundFrom s) (ho : Owned s) (hi : s.Active i n) (hj : s.Active j m)
    (hne : i ≠ j) : False := by
  have hsound := h [] nofun s rfl
  obtain ⟨x, hx, rfl⟩ := hsound.own i n hi
  obtain ⟨y, hy, rfl⟩ := hsound.own j m hj
  obtain ⟨newer, older, hstack⟩ := List.append_of_mem (List.mem_of_find?_eq_some hx)
  have hmem := List.mem_of_find?_eq_some hy
  rw [hstack] at hmem
  rcases List.mem_append.mp hmem with hmem | hmem
  · exact release_breaks h ho hstack hmem hi hx hj
  · rcases List.mem_cons.mp hmem with rfl | hmem
    · exact hne rfl
    · obtain ⟨between, rest, hrest⟩ := List.append_of_mem hmem
      have hstack' : s.stack = (newer ++ x :: between) ++ y :: rest := by
        rw [hstack, hrest, List.append_assoc, List.cons_append]
      exact release_breaks h ho hstack' (List.mem_append_right _ List.mem_cons_self) hj hy hi

end Overlap

/-- Every interleaving of nested transactions keeps their savepoints and writes apart, if and only if
at most one of them is active at a time. -/
theorem nested_sound_iff (events : List NestedEvent) : SoundAll events ↔ OneAtATime events := by
  constructor
  · intro h before hb s hs i j n m hi hj
    by_contra hne
    have hempty : Owned empty := ⟨List.nodup_nil, by simp [empty]⟩
    have howned : Owned s := hempty.rest hs
    refine active_breaks (fun rest hrest s' hrun => ?_) howned hi hj hne
    refine h before hb rest hrest s' ?_
    unfold run
    rw [runSteps_append, show runSteps NestedTx.step before empty = some s from hs]
    exact hrun
  · intro h before hb rest hrest s hrun
    unfold run at hrun
    rw [runSteps_append_eq_some] at hrun
    obtain ⟨t, ht, hrun⟩ := hrun
    have hbefore : OneAtATime before := fun b hb' s hs => h b (hb'.trans hb) s hs
    exact (alone_rest hrest (hbefore.alone ht) (h before hb t ht) hrun).sound

/-- The first of two concurrent nested transactions releases the savepoint of the second. -/
theorem nested_release_lost : ∃ s,
    run [.start 0, .start 1, .write 1, .release 0, .release 1] = some s ∧
      s.calls 1 = some (.closing (.rejected false) 1) ∧ s.data = [1] ∧ ¬ s.Sound := by
  refine ⟨_, rfl, rfl, rfl, fun h => ?_⟩
  exact absurd (h.writes 1 _ 0 rfl rfl) (by decide)

end Orm.Client
