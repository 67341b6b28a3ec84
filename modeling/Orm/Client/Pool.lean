import Orm.Logic.Keyed

/-! The pool of the one SQLite connection: calls that wait for it, and sessions that hold it. -/
namespace Orm.Client

open Orm.Logic (runSteps runSteps_append runSteps_append_eq_some)

inductive PoolCall where
  | reserve | execute
  deriving DecidableEq, Repr

/-- Where a call is between its awaits: it waits in `idle`, it was woken, `idle` found the connection
free, it holds its unreleased session, or it ended. -/
inductive Place where
  | waiting | woken | passed | holding | ended
  deriving DecidableEq, Repr

structure Pool where
  busy : Bool
  calls : Nat → Option (PoolCall × Place)

/-- What runs without interruption: a call up to its first await, the next turn of the loop of
`idle`, the rest of a call after `idle`, a cancelled statement, and the release of a session. -/
inductive PoolEvent where
  | call (i : Nat) (kind : PoolCall)
  | resume (i : Nat)
  | proceed (i : Nat)
  | cancel (i : Nat)
  | release (i : Nat)
  deriving DecidableEq, Repr

namespace Pool

def empty : Pool := ⟨false, fun _ => none⟩

/-- Where the loop of `idle` leaves a call. -/
def checked (s : Pool) : Place := if s.busy then .waiting else .passed

def put (s : Pool) (i : Nat) (kind : PoolCall) (place : Place) : Pool :=
  { s with calls := Function.update s.calls i (some (kind, place)) }

/-- A waiter that a release wakes. -/
def wake : PoolCall × Place → PoolCall × Place
  | (kind, .waiting) => (kind, .woken)
  | x => x

def step : PoolEvent → Pool → Option Pool
  | .call i kind, s => if (s.calls i).isNone then some (s.put i kind s.checked) else none
  | .resume i, s => match s.calls i with
    | some (kind, .woken) => some (s.put i kind s.checked)
    | _ => none
  | .proceed i, s => match s.calls i with
    | some (.reserve, .passed) => some { s.put i .reserve .holding with busy := true }
    | some (.execute, .passed) => some (s.put i .execute .ended)
    | _ => none
  | .cancel i, s => match s.calls i with
    | some (.execute, .waiting) | some (.execute, .woken) | some (.execute, .passed) =>
      some (s.put i .execute .ended)
    | _ => none
  | .release i, s => match s.calls i with
    | some (.reserve, .holding) =>
      some ⟨false, fun j => ((s.put i .reserve .ended).calls j).map wake⟩
    | some (.reserve, .ended) => some s
    | _ => none

/-- Runs events on an unused pool. -/
def run (events : List PoolEvent) : Option Pool := runSteps step events empty

/-- The session of a call is unreleased. -/
def Holding (s : Pool) (i : Nat) : Prop := s.calls i = some (.reserve, .holding)

/-- The call was made and has neither its session nor run its statement. -/
def Pending (s : Pool) (kind : PoolCall) (i : Nat) : Prop :=
  s.calls i = some (kind, .waiting) ∨ s.calls i = some (kind, .woken) ∨
    s.calls i = some (kind, .passed)

/-- At most one session is unreleased, and a statement that can run finds none. -/
structure Excludes (s : Pool) : Prop where
  one : ∀ i j, s.Holding i → s.Holding j → i = j
  quiet : ∀ i, s.calls i = some (.execute, .passed) → ∀ j, ¬ s.Holding j

end Pool

open Pool

/-- The event makes no call. -/
def PoolEvent.CallFree (e : PoolEvent) : Prop := ∀ i kind, e ≠ .call i kind

/-- Every interleaving of the calls that were made excludes. -/
def ExcludesAll (events : List PoolEvent) : Prop :=
  ∀ before, before <+: events → ∀ rest, (∀ e ∈ rest, e.CallFree) →
    ∀ s, run (before ++ rest) = some s → s.Excludes

/-- A pending reservation is the only pending call. -/
def Pool.Apart (s : Pool) : Prop :=
  ∀ i kind j, s.Pending .reserve i → s.Pending kind j → i = j

/-- No reservation is made while a call is pending, and no call while a reservation is. -/
def CallsApart (events : List PoolEvent) : Prop :=
  ∀ before, before <+: events → ∀ s, run before = some s → s.Apart

section Steps
variable {s s' : Pool} {i j : Nat} {kind : PoolCall} {place : Place} {e : PoolEvent}

theorem put_self : (s.put i kind place).calls i = some (kind, place) := Function.update_self ..

theorem put_other (h : j ≠ i) : (s.put i kind place).calls j = s.calls j :=
  Function.update_of_ne h ..

/-- What an event does: it moves one call, and a release wakes the waiters. -/
theorem step_cases (h : step e s = some s') :
    (∃ i kind, e = .call i kind ∧ s.calls i = none ∧ s' = s.put i kind s.checked) ∨
    (∃ i kind, e = .resume i ∧ s.calls i = some (kind, .woken) ∧ s' = s.put i kind s.checked) ∨
    (∃ i, e = .proceed i ∧ s.calls i = some (.reserve, .passed) ∧
      s' = { s.put i .reserve .holding with busy := true }) ∨
    (∃ i, s.Pending .execute i ∧ e ≠ .call i .execute ∧ s' = s.put i .execute .ended) ∨
    (∃ i, e = .release i ∧ s.Holding i ∧
      s' = ⟨false, fun j => ((s.put i .reserve .ended).calls j).map wake⟩) ∨ s' = s := by
  cases e with
  | call i kind =>
    simp only [step] at h
    split at h
    · next hnone => exact .inl ⟨i, kind, rfl, Option.isNone_iff_eq_none.mp hnone, (Option.some.inj h).symm⟩
    · cases h
  | resume i =>
    simp only [step] at h
    split at h
    · next kind hwoken => exact .inr (.inl ⟨i, kind, rfl, hwoken, (Option.some.inj h).symm⟩)
    · cases h
  | proceed i =>
    simp only [step] at h
    split at h
    · next hpassed => exact .inr (.inr (.inl ⟨i, rfl, hpassed, (Option.some.inj h).symm⟩))
    · next hpassed =>
      exact .inr (.inr (.inr (.inl ⟨i, .inr (.inr hpassed), nofun, (Option.some.inj h).symm⟩)))
    · cases h
  | cancel i =>
    refine .inr (.inr (.inr (.inl ⟨i, ?_, nofun, ?_⟩)))
    all_goals
      simp only [step] at h
      split at h
    · next hplace => exact .inl hplace
    · next hplace => exact .inr (.inl hplace)
    · next hplace => exact .inr (.inr hplace)
    · cases h
    · exact (Option.some.inj h).symm
    · exact (Option.some.inj h).symm
    · exact (Option.some.inj h).symm
    · cases h
  | release i =>
    simp only [step] at h
    split at h
    · next hholds => exact .inr (.inr (.inr (.inr (.inl ⟨i, rfl, hholds, (Option.some.inj h).symm⟩))))
    · exact .inr (.inr (.inr (.inr (.inr (Option.some.inj h).symm))))
    · cases h

theorem put_eq_some {kind' : PoolCall} {place' : Place}
    (h : (s.put i kind place).calls j = some (kind', place')) :
    (j = i ∧ kind' = kind ∧ place' = place) ∨ (j ≠ i ∧ s.calls j = some (kind', place')) := by
  by_cases hj : j = i
  · subst hj
    rw [put_self] at h
    cases h
    exact .inl ⟨rfl, rfl, rfl⟩
  · exact .inr ⟨hj, (put_other hj).symm.trans h⟩

/-- A release changes the places of waiters only. -/
theorem map_wake {x : Option (PoolCall × Place)} (h : x.map wake = some (kind, place)) :
    x = some (kind, place) ∨ place = .woken ∧ x = some (kind, .waiting) := by
  obtain ⟨⟨kind', place'⟩, rfl, hx⟩ := Option.map_eq_some_iff.mp h
  cases place' <;> cases hx <;> simp

theorem wake_ne_waiting {x : Option (PoolCall × Place)} : x.map wake ≠ some (kind, .waiting) := by
  intro h
  obtain ⟨⟨kind', place'⟩, _, hx⟩ := Option.map_eq_some_iff.mp h
  cases place' <;> cases hx

/-- The places that a release leaves: of the released session, and of the others. -/
theorem release_eq_some {kind' : PoolCall} {place' : Place}
    (h : ((s.put i .reserve .ended).calls j).map wake = some (kind', place')) :
    (j = i ∧ place' = .ended) ∨ j ≠ i ∧ (s.calls j = some (kind', place') ∨
      place' = .woken ∧ s.calls j = some (kind', .waiting)) := by
  rcases map_wake h with h | ⟨hplace, h⟩
  · rcases put_eq_some h with ⟨hj, _, hplace⟩ | ⟨hj, h⟩
    · exact .inl ⟨hj, hplace⟩
    · exact .inr ⟨hj, .inl h⟩
  · rcases put_eq_some h with ⟨_, _, hwrong⟩ | ⟨hj, h⟩
    · cases hwrong
    · exact .inr ⟨hj, .inr ⟨hplace, h⟩⟩

theorem checked_passed (h : s.checked = .passed) : s.busy = false := by
  unfold checked at h
  split at h
  · cases h
  · next hbusy => exact Bool.eq_false_of_not_eq_true hbusy

theorem checked_waiting (h : s.checked = .waiting) : s.busy = true := by
  unfold checked at h
  split at h
  · assumption
  · cases h

theorem checked_ne_holding : s.checked ≠ .holding := by
  unfold checked
  split <;> nofun

end Steps

section Discipline
variable {s s' : Pool} {i j : Nat} {kind : PoolCall} {e : PoolEvent} {events : List PoolEvent}

/-- The busy flag is set while a session is unreleased, and no call is past `idle` then. -/
structure Guarded (s : Pool) : Prop where
  free : ∀ i kind, s.calls i = some (kind, .passed) → s.busy = false
  held : ∀ i, s.Holding i → s.busy = true
  one : ∀ i j, s.Holding i → s.Holding j → i = j

theorem Guarded.excludes (h : Guarded s) : s.Excludes where
  one := h.one
  quiet := by
    intro i hi j hj
    have hfree := h.free i _ hi
    rw [h.held j hj] at hfree
    cases hfree

/-- A call that is put where `idle` left it keeps the guard. -/
theorem Guarded.put_checked (h : Guarded s) : Guarded (s.put i kind s.checked) where
  free := by
    intro j kind' hj
    rcases put_eq_some hj with ⟨_, _, hplace⟩ | ⟨_, hj⟩
    · exact checked_passed hplace.symm
    · exact h.free j kind' hj
  held := by
    intro j hj
    rcases put_eq_some hj with ⟨_, _, hplace⟩ | ⟨_, hj⟩
    · exact absurd hplace.symm checked_ne_holding
    · exact h.held j hj
  one := by
    intro j k hj hk
    rcases put_eq_some hj with ⟨_, _, hplace⟩ | ⟨_, hj⟩
    · exact absurd hplace.symm checked_ne_holding
    · rcases put_eq_some hk with ⟨_, _, hplace⟩ | ⟨_, hk⟩
      · exact absurd hplace.symm checked_ne_holding
      · exact h.one j k hj hk

theorem Guarded.put_ended (h : Guarded s) : Guarded (s.put i kind .ended) where
  free := by
    intro j kind' hj
    rcases put_eq_some hj with ⟨_, _, hplace⟩ | ⟨_, hj⟩
    · cases hplace
    · exact h.free j kind' hj
  held := by
    intro j hj
    rcases put_eq_some hj with ⟨_, _, hplace⟩ | ⟨_, hj⟩
    · cases hplace
    · exact h.held j hj
  one := by
    intro j k hj hk
    rcases put_eq_some hj with ⟨_, _, hplace⟩ | ⟨_, hj⟩
    · cases hplace
    · rcases put_eq_some hk with ⟨_, _, hplace⟩ | ⟨_, hk⟩
      · cases hplace
      · exact h.one j k hj hk

/-- A reservation that is the only pending call takes the free connection. -/
theorem Guarded.take (h : Guarded s) (ha : s.Apart) (hi : s.calls i = some (.reserve, .passed)) :
    Guarded { s.put i .reserve .holding with busy := true } := by
  have hnone : ∀ j, ¬ s.Holding j := by
    intro j hj
    have hfree := h.free i _ hi
    rw [h.held j hj] at hfree
    cases hfree
  refine ⟨fun j kind' hj => ?_, fun _ _ => rfl, fun j k hj hk => ?_⟩
  · rcases put_eq_some hj with ⟨_, _, hplace⟩ | ⟨hne, hj⟩
    · cases hplace
    · exact absurd (ha i kind' j (.inr (.inr hi)) (.inr (.inr hj))).symm hne
  · rcases put_eq_some hj with ⟨rfl, _⟩ | ⟨_, hj⟩
    · rcases put_eq_some hk with ⟨rfl, _⟩ | ⟨_, hk⟩
      · rfl
      · exact absurd hk (hnone k)
    · exact absurd hj (hnone j)

theorem Guarded.release (h : Guarded s) (hi : s.Holding i) :
    Guarded ⟨false, fun j => ((s.put i .reserve .ended).calls j).map wake⟩ := by
  have hnone : ∀ j, ((s.put i .reserve .ended).calls j).map wake ≠ some (.reserve, .holding) := by
    intro j hj
    rcases release_eq_some hj with ⟨_, hplace⟩ | ⟨hne, hj | ⟨hplace, _⟩⟩
    · cases hplace
    · exact hne (h.one j i hj hi)
    · cases hplace
  exact ⟨fun _ _ _ => rfl, fun j hj => absurd hj (hnone j), fun j _ hj _ => absurd hj (hnone j)⟩

theorem Guarded.step (h : Guarded s) (ha : s.Apart) (hstep : step e s = some s') : Guarded s' := by
  rcases step_cases hstep with ⟨i, kind, _, _, rfl⟩ | ⟨i, kind, _, _, rfl⟩ | ⟨i, _, hi, rfl⟩ |
    ⟨i, _, _, rfl⟩ | ⟨i, _, hi, rfl⟩ | rfl
  · exact h.put_checked
  · exact h.put_checked
  · exact h.take ha hi
  · exact h.put_ended
  · exact h.release hi
  · exact h

theorem guarded_empty : Guarded empty := ⟨nofun, nofun, nofun⟩

/-- Only a call makes a call pending. -/
theorem pending_of_step (hfree : e.CallFree) (hstep : step e s = some s')
    (h : s'.Pending kind j) : s.Pending kind j := by
  rcases step_cases hstep with ⟨i, kind', rfl, _⟩ | ⟨i, kind', _, hi, rfl⟩ | ⟨i, _, hi, rfl⟩ |
    ⟨i, hi, _, rfl⟩ | ⟨i, _, hi, rfl⟩ | rfl
  · exact absurd rfl (hfree i kind')
  · by_cases hj : j = i
    · subst hj
      rcases h with h | h | h
      all_goals
        rcases put_eq_some h with ⟨_, rfl, _⟩ | ⟨hne, _⟩
        · exact .inr (.inl hi)
        · exact absurd rfl hne
    · unfold Pending at h
      rwa [put_other hj] at h
  · rcases h with h | h | h
    all_goals
      rcases put_eq_some h with ⟨_, _, hplace⟩ | ⟨_, h⟩
      · cases hplace
    · exact .inl h
    · exact .inr (.inl h)
    · exact .inr (.inr h)
  · rcases h with h | h | h
    all_goals
      rcases put_eq_some h with ⟨_, _, hplace⟩ | ⟨_, h⟩
      · cases hplace
    · exact .inl h
    · exact .inr (.inl h)
    · exact .inr (.inr h)
  · rcases h with h | h | h
    · rcases release_eq_some h with ⟨_, hplace⟩ | ⟨_, h | ⟨hplace, _⟩⟩
      · cases hplace
      · exact .inl h
      · cases hplace
    · rcases release_eq_some h with ⟨_, hplace⟩ | ⟨_, h | ⟨_, h⟩⟩
      · cases hplace
      · exact .inr (.inl h)
      · exact .inl h
    · rcases release_eq_some h with ⟨_, hplace⟩ | ⟨_, h | ⟨hplace, _⟩⟩
      · cases hplace
      · exact .inr (.inr h)
      · cases hplace
  · exact h

theorem apart_step (ha : s.Apart) (hfree : e.CallFree) (hstep : step e s = some s') : s'.Apart :=
  fun i kind j hi hj => ha i kind j (pending_of_step hfree hstep hi) (pending_of_step hfree hstep hj)

/-- Calls that are made apart keep the guard. -/
theorem CallsApart.guarded (h : CallsApart events) (hrun : run events = some s) : Guarded s := by
  induction events using List.reverseRecOn generalizing s with
  | nil =>
    cases hrun
    exact guarded_empty
  | append_singleton events e ih =>
    unfold run at hrun
    rw [runSteps_append_eq_some] at hrun
    obtain ⟨t, ht, hlast⟩ := hrun
    obtain ⟨_, hfirst, hnil⟩ := Option.bind_eq_some_iff.mp hlast
    have hstep : step e t = some s := hfirst.trans hnil
    have hsub : events <+: events ++ [e] := List.prefix_append _ _
    have hevents : CallsApart events := fun before hb s hs => h before (hb.trans hsub) s hs
    exact (ih hevents ht).step (h events hsub t ht) hstep

/-- The rest of a run without new calls keeps the guard. -/
theorem guarded_rest {rest : List PoolEvent} (hrest : ∀ e ∈ rest, e.CallFree) (h : Guarded s)
    (ha : s.Apart) (hrun : runSteps step rest s = some s') : Guarded s' := by
  induction rest generalizing s with
  | nil =>
    cases hrun
    exact h
  | cons e rest ih =>
    obtain ⟨t, hstep, hrun⟩ := Option.bind_eq_some_iff.mp hrun
    have hfree := hrest e List.mem_cons_self
    exact ih (fun e' he' => hrest e' (List.mem_cons_of_mem _ he')) (h.step ha hstep)
      (apart_step ha hfree hstep) hrun

end Discipline

section Overlap
variable {s s' : Pool} {i j k : Nat} {kind : PoolCall} {e : PoolEvent} {events : List PoolEvent}

/-- What holds in every run: a set flag has an unreleased session, and waiters wait for the flag. -/
structure Tracked (s : Pool) : Prop where
  held : s.busy = true → ∃ i, s.Holding i
  waits : ∀ i kind, s.calls i = some (kind, .waiting) → s.busy = true

theorem Tracked.put (h : Tracked s) {place : Place} (hi : ¬ s.Holding i)
    (hplace : place = .waiting → s.busy = true) : Tracked (s.put i kind place) where
  held := by
    intro hbusy
    obtain ⟨j, hj⟩ := h.held hbusy
    have hne : j ≠ i := fun heq => hi (heq ▸ hj)
    exact ⟨j, (put_other hne).trans hj⟩
  waits := by
    intro j kind' hj
    rcases put_eq_some hj with ⟨_, _, hp⟩ | ⟨_, hj⟩
    · exact hplace hp.symm
    · exact h.waits j kind' hj

theorem Tracked.step (h : Tracked s) (hstep : step e s = some s') : Tracked s' := by
  rcases step_cases hstep with ⟨i, kind, _, hi, rfl⟩ | ⟨i, kind, _, hi, rfl⟩ | ⟨i, _, hi, rfl⟩ |
    ⟨i, hi, _, rfl⟩ | ⟨i, _, hi, rfl⟩ | rfl
  · exact h.put (fun hh => by cases hi.symm.trans hh) checked_waiting
  · exact h.put (fun hh => by cases hi.symm.trans hh) checked_waiting
  · exact ⟨fun _ => ⟨i, put_self⟩, fun _ _ _ => rfl⟩
  · refine h.put (fun hh => ?_) nofun
    rcases hi with hi | hi | hi <;> cases hi.symm.trans hh
  · exact ⟨nofun, fun j kind hj => absurd hj wake_ne_waiting⟩
  · exact h

theorem Tracked.rest (h : Tracked s) (hrun : runSteps Pool.step events s = some s') : Tracked s' := by
  induction events generalizing s with
  | nil =>
    cases hrun
    exact h
  | cons e events ih =>
    obtain ⟨t, hstep, hrest⟩ := Option.bind_eq_some_iff.mp hrun
    exact ih (h.step hstep) hrest

theorem tracked_empty : Tracked empty where
  held := by simp [empty]
  waits := by simp [empty]

/-- Every continuation without new calls excludes. -/
def ExcludesFrom (s : Pool) : Prop :=
  ∀ rest, (∀ e ∈ rest, e.CallFree) → ∀ s', runSteps step rest s = some s' → s'.Excludes

theorem ExcludesFrom.here (h : ExcludesFrom s) : s.Excludes := h [] nofun s rfl

theorem ExcludesFrom.step (h : ExcludesFrom s) (hfree : e.CallFree) (hstep : step e s = some s') :
    ExcludesFrom s' := by
  intro rest hrest t hrun
  refine h (e :: rest) (fun e' he' => ?_) t ?_
  · rcases List.mem_cons.mp he' with rfl | he'
    · exact hfree
    · exact hrest e' he'
  · exact Option.bind_eq_some_iff.mpr ⟨s', hstep, hrun⟩

theorem step_take (hi : s.calls i = some (.reserve, .passed)) :
    step (.proceed i) s = some { s.put i .reserve .holding with busy := true } := by
  simp only [step, hi]

/-- Two calls past `idle`, one of them a reservation: the reservation takes the connection and the
other one goes on. -/
theorem passed_breaks (h : ExcludesFrom s) (hi : s.calls i = some (.reserve, .passed))
    (hj : s.calls j = some (kind, .passed)) (hne : i ≠ j) : False := by
  have hfrom := h.step (e := .proceed i) nofun (step_take hi)
  have hstill : ({ s.put i .reserve .holding with busy := true } : Pool).calls j =
      some (kind, .passed) := (put_other hne.symm).trans hj
  cases kind with
  | execute => exact hfrom.here.quiet j hstill i put_self
  | reserve =>
    have hnext := hfrom.step (e := .proceed j) nofun (step_take hstill)
    have hboth := hnext.here.one i j ((put_other hne).trans put_self) put_self
    exact hne hboth

/-- A woken call passes `idle` while the connection is free. -/
theorem reach_passed (hbusy : s.busy = false)
    (hi : s.calls i = some (kind, .woken) ∨ s.calls i = some (kind, .passed)) :
    ∃ rest s', (∀ e ∈ rest, PoolEvent.CallFree e) ∧ runSteps step rest s = some s' ∧
      s'.busy = false ∧ s'.calls i = some (kind, .passed) ∧ ∀ j, j ≠ i → s'.calls j = s.calls j := by
  rcases hi with hi | hi
  · have hstep : step (.resume i) s = some (s.put i kind .passed) := by
      simp only [step, hi, checked, hbusy, Bool.false_eq_true, if_false]
    refine ⟨[.resume i], s.put i kind .passed, fun e he => ?_, ?_, hbusy, put_self,
      fun j hj => put_other hj⟩
    · rw [List.mem_singleton.mp he]
      nofun
    · exact Option.bind_eq_some_iff.mpr ⟨_, hstep, rfl⟩
  · exact ⟨[], s, nofun, rfl, hbusy, hi, fun _ _ => rfl⟩

theorem ExcludesFrom.run (h : ExcludesFrom s) {rest : List PoolEvent}
    (hfree : ∀ e ∈ rest, e.CallFree) (hrun : runSteps Pool.step rest s = some s') : ExcludesFrom s' := by
  intro more hmore t ht
  refine h (rest ++ more) (fun e he => ?_) t ?_
  · rcases List.mem_append.mp he with he | he
    · exact hfree e he
    · exact hmore e he
  · rw [runSteps_append, hrun]
    exact ht

/-- Two pending calls on a free connection, one of them a reservation, can both pass `idle`. -/
theorem free_breaks (h : ExcludesFrom s) (hbusy : s.busy = false)
    (hi : s.calls i = some (.reserve, .woken) ∨ s.calls i = some (.reserve, .passed))
    (hj : s.calls j = some (kind, .woken) ∨ s.calls j = some (kind, .passed)) (hne : i ≠ j) :
    False := by
  obtain ⟨rest, t, hfree, hrun, htbusy, hti, hother⟩ := reach_passed hbusy hi
  have htj : t.calls j = some (kind, .woken) ∨ t.calls j = some (kind, .passed) := by
    rwa [hother j hne.symm]
  obtain ⟨rest', u, hfree', hrun', _, huj, hother'⟩ := reach_passed htbusy htj
  exact passed_breaks ((h.run hfree hrun).run hfree' hrun') ((hother' i hne).trans hti) huj hne

/-- A pending call that is past `idle` while a session is unreleased goes on. -/
theorem passed_free (h : ExcludesFrom s) (hk : s.Holding k)
    (hi : s.calls i = some (kind, .passed)) : False := by
  have hne : k ≠ i := by
    rintro rfl
    cases hk.symm.trans hi
  cases kind with
  | execute => exact h.here.quiet i hi k hk
  | reserve =>
    have hnext := h.step (e := .proceed i) nofun (step_take hi)
    exact hne (hnext.here.one k i ((put_other hne).trans hk) put_self)

/-- Two pending calls, one of them a reservation, break the exclusion in some interleaving. -/
theorem pending_breaks (h : ExcludesFrom s) (ht : Tracked s) (hi : s.Pending .reserve i)
    (hj : s.Pending kind j) (hne : i ≠ j) : False := by
  cases hbusy : s.busy with
  | false =>
    have hwoken : ∀ {kind : PoolCall} {i : Nat}, s.Pending kind i →
        s.calls i = some (kind, .woken) ∨ s.calls i = some (kind, .passed) := by
      rintro kind i (hw | hrest)
      · have := ht.waits i kind hw
        rw [hbusy] at this
        cases this
      · exact hrest
    exact free_breaks h hbusy (hwoken hi) (hwoken hj) hne
  | true =>
    obtain ⟨k, hk⟩ := ht.held hbusy
    have hrelease : step (.release k) s =
        some ⟨false, fun j => ((s.put k .reserve .ended).calls j).map wake⟩ := by
      simp only [step, show s.calls k = some (.reserve, .holding) from hk]
    -- a waiter is woken by the release of the session
    have hwoken : ∀ {kind : PoolCall} {i : Nat}, s.Pending kind i →
        ((s.put k .reserve .ended).calls i).map wake = some (kind, .woken) := by
      intro kind i hp
      have hki : i ≠ k := by
        rintro rfl
        rcases hp with hp | hp | hp <;> cases hk.symm.trans hp
      rw [put_other hki]
      rcases hp with hp | hp | hp
      · rw [hp]
        rfl
      · rw [hp]
        rfl
      · exact absurd (passed_free h hk hp) id
    exact free_breaks (h.step (e := .release k) nofun hrelease) rfl (.inl (hwoken hi))
      (.inl (hwoken hj)) hne

end Overlap

/-- Every interleaving of the calls made excludes, if and only if no reservation is pending together
with another call. -/
theorem pool_excludes_iff (events : List PoolEvent) : ExcludesAll events ↔ CallsApart events := by
  constructor
  · intro h before hb s hs i kind j hi hj
    by_contra hne
    refine pending_breaks (fun rest hrest s' hrun => ?_) (tracked_empty.rest hs) hi hj hne
    refine h before hb rest hrest s' ?_
    unfold run
    rw [runSteps_append, show runSteps step before empty = some s from hs]
    exact hrun
  · intro h before hb rest hrest s hrun
    unfold run at hrun
    rw [runSteps_append_eq_some] at hrun
    obtain ⟨t, ht, hrun⟩ := hrun
    have hbefore : CallsApart before := fun b hb' s hs => h b (hb'.trans hb) s hs
    exact (guarded_rest hrest (hbefore.guarded ht) (h before hb t ht) hrun).excludes

/-- Two reservations made together both get a session. -/
theorem pool_two_sessions : ∃ s,
    run [.call 0 .reserve, .call 1 .reserve, .proceed 0, .proceed 1] = some s ∧
      s.Holding 0 ∧ s.Holding 1 ∧ ¬ s.Excludes := by
  refine ⟨_, rfl, rfl, rfl, fun h => ?_⟩
  exact absurd (h.one 0 1 rfl rfl) (by decide)

end Orm.Client
