import Orm.Dbspec.Recover

/-! A refused rollback: what it has changed when it reports NULL rows or an irreversible step. -/
namespace Orm.Dbspec

open Orm.Logic (Cmd Halt Run)
open Orm.Logic.Cmd (Triple)

variable {S C : Type} {a : Applier S C} {p : Plan} {row : HistoryRow} {w : World S C}
  {steps : List (Step S)} {k : Nat}

section Errors

/-- The command fails only with errors in `Q`. -/
def Raises {α : Type} (x : Command S C α) (Q : ApplyError → Prop) : Prop :=
  Triple (fun _ => True) x (fun _ _ => True) fun h _ => ∀ e, h = .failed e → Q e

/-- An error of a rollback that has begun to undo its first `k` steps. -/
def Later (k : Nat) (e : ApplyError) : Prop :=
  e.code ≠ .nulls ∧ (e.code = .irreversible → e.step + 1 < k)

variable {α β : Type} {Q : ApplyError → Prop} {x : Command S C α} {f : α → Command S C β}

theorem Raises.bind (hx : Raises x Q) (hf : ∀ b, Raises (f b) Q) : Raises (x >>= f) Q :=
  Triple.bind hx fun b => (hf b).mono (fun _ _ => trivial) (fun _ _ h => h) fun _ _ h => h

theorem Raises.pure (b : α) : Raises (Pure.pure b : Command S C α) Q := Triple.pure fun _ _ => trivial

theorem Raises.fail {code : ApplyCode} {plan detail : String} {step : Nat}
    (h : Q ⟨code, plan, step, detail⟩) : Raises (Applier.fail code plan step detail : Command S C α) Q := by
  refine Triple.fail fun _ _ e he => ?_
  cases he
  exact h

theorem Raises.write (g : World S C → World S C) : Raises (Cmd.write g) Q :=
  Triple.write (fun _ _ => trivial) fun _ _ _ he => by cases he

theorem Raises.read_bind {g : World S C → Command S C β} (h : ∀ t, Raises (g t) Q) :
    Raises (Cmd.read >>= g) Q :=
  Triple.read_bind fun t _ => (h t).mono (fun _ _ => trivial) (fun _ _ h => h) fun _ _ h => h

/-- A code that no refusal has. -/
theorem later_of_code {e : ApplyError} (hn : e.code ≠ .nulls) (hi : e.code ≠ .irreversible) :
    Later k e := ⟨hn, fun h => absurd h hi⟩

theorem run_later (i : Nat) (back : Bool) (statement : S) :
    Raises (a.run p i back statement) (Later k) := by
  refine .read_bind fun t => (Raises.write _).bind fun _ => ?_
  split
  · exact .pure _
  · exact .fail (later_of_code nofun nofun)

theorem effect_later (i : Nat) (e : Effect) : Raises (a.effect p i e) (Later k) := by
  refine .read_bind fun t => ?_
  split
  · exact .fail (later_of_code nofun nofun)
  · exact .pure _

theorem chosen_later (i : Nat) (statement : S) (restore : Option S) (restoreIf : Option Effect) :
    Raises (a.chosen p i statement restore restoreIf) (Later k) := by
  unfold Applier.chosen
  split
  · exact .pure _
  · exact .fail (later_of_code nofun nofun)
  · exact (effect_later i _).bind fun _ => .pure _

/-- The last step to undo has a rollback. -/
def LastUndone (steps : List (Step S)) (k : Nat) : Prop :=
  ∀ s, 0 < k → steps[k - 1]? = some s → s.rollback ≠ none

/-- Undoing the steps below `i` meets an irreversible step only below the last one. -/
theorem backward_later {i : Nat} (hi : i ≤ k)
    (hk : i = k → LastUndone steps k) :
    Raises (a.backward p steps i) (Later k) := by
  induction i with
  | zero => exact .pure _
  | succ i ih =>
    unfold Applier.backward
    split
    · exact .fail (later_of_code (by simp) (by simp))
    · rename_i s hs
      split
      · rename_i hnone
        have hlt : i + 1 < k := by
          rcases Nat.lt_or_eq_of_le hi with hlt | heq
          · exact hlt
          · subst heq
            exact absurd hnone (hk rfl s (Nat.succ_pos i) hs)
        exact .fail ⟨by simp, fun _ => hlt⟩
      · refine (chosen_later i _ _ _).bind fun statement => (run_later i true statement).bind fun _ =>
          (Raises.write _).bind fun _ => ih (by omega) fun hik => ?_
        omega

theorem foreignKeyCheck_later : Raises (a.foreignKeyCheck p) (Later k) := by
  refine .read_bind fun t => ?_
  split
  · exact .pure _
  · exact .fail (later_of_code nofun nofun)

theorem verify_later (want : String) : Raises (a.verify p want) (Later k) := by
  refine .read_bind fun t => ?_
  split
  · exact .pure _
  · exact .fail (later_of_code nofun nofun)

end Errors

section Nulls

/-- Filling a column leaves it without NULL rows and touches no other column. -/
structure FillsNulls (db : Db S C) : Prop where
  filled : ∀ (c : NullCheck) (x : C), c.default.isSome = true → db.nullRows c (db.fillNulls c x) = 0
  others : ∀ (c d : NullCheck) (x : C), (d.table, d.column) ≠ (c.table, c.column) →
    db.nullRows d (db.fillNulls c x) = db.nullRows d x

/-- The check stops a rollback: its column has NULL rows and no default. -/
def Db.stops (db : Db S C) (x : C) (c : NullCheck) : Bool := c.default.isNone && db.nullRows c x ≠ 0

/-- A check stops the rollback, and a column of a check before it has NULL rows to fill. -/
def FillsBeforeStop (db : Db S C) (x : C) (checks : List NullCheck) : Prop :=
  (∃ c ∈ checks, db.stops x c = true) ∧
    ∃ c ∈ checks.takeWhile (fun c => !db.stops x c), db.nullRows c x ≠ 0

/-- The checks name different columns. -/
abbrev OwnColumns (checks : List NullCheck) : Prop :=
  (checks.map fun c => (c.table, c.column)).Nodup

variable {checks : List (Nat × NullCheck)}

theorem nullRows_others (hdb : FillsNulls a.db) {i : Nat} {c d : NullCheck} {x : C}
    (hown : OwnColumns (((i, c) :: checks).map Prod.snd)) (hd : d ∈ checks.map Prod.snd) :
    a.db.nullRows d (a.db.fillNulls c x) = a.db.nullRows d x := by
  refine hdb.others c d x fun heq => ?_
  simp only [OwnColumns, List.map_cons, List.nodup_cons] at hown
  exact hown.1 (heq ▸ List.mem_map_of_mem hd)

/-- Checks none of which stops do not fail. -/
theorem nullChecks_pass (hdb : FillsNulls a.db) (hown : OwnColumns (checks.map Prod.snd))
    {t : World S C} (h : ∀ c ∈ checks.map Prod.snd, a.db.stops t.catalog c = false) :
    Triple (fun u => u = t) (a.nullChecks p checks) (fun _ _ => True) fun h _ => h = .stopped := by
  induction checks generalizing t with
  | nil => exact Triple.pure_known trivial
  | cons x checks ih =>
    obtain ⟨i, c⟩ := x
    have hown' : OwnColumns (checks.map Prod.snd) := (List.nodup_cons.mp hown).2
    have hc := h c List.mem_cons_self
    refine Triple.read_known ?_
    dsimp only
    by_cases hrows : a.db.nullRows c t.catalog = 0
    · rw [if_pos hrows]
      exact ih hown' fun d hd => h d (List.mem_cons_of_mem _ hd)
    · have hsome : ¬ c.default.isNone = true := by
        intro hnone
        simp [Db.stops, hnone, hrows] at hc
      rw [if_neg hrows, if_neg hsome]
      refine Triple.bind (Triple.write_known (U := fun _ u =>
        u = { t with catalog := a.db.fillNulls c t.catalog }) rfl rfl) fun _ => ?_
      refine ih hown' fun d hd => ?_
      have hd' := h d (List.mem_cons_of_mem _ hd)
      rw [Db.stops] at hd' ⊢
      rwa [nullRows_others hdb hown hd]

/-- If the checks stop before they fill a column, they change nothing. -/
theorem nullChecks_unchanged (hdb : FillsNulls a.db) (hown : OwnColumns (checks.map Prod.snd))
    {t : World S C} (h : ¬ FillsBeforeStop a.db t.catalog (checks.map Prod.snd)) :
    Triple (fun u => u = t) (a.nullChecks p checks) (fun _ _ => True)
      fun h u => ∀ e, h = .failed e → u = t := by
  induction checks with
  | nil => exact Triple.pure_known trivial
  | cons x checks ih =>
    obtain ⟨i, c⟩ := x
    have hown' : OwnColumns (checks.map Prod.snd) := (List.nodup_cons.mp hown).2
    have hwhile (hgo : a.db.stops t.catalog c = false) :
        (((i, c) :: checks).map Prod.snd).takeWhile (fun c => !a.db.stops t.catalog c) =
          c :: (checks.map Prod.snd).takeWhile fun c => !a.db.stops t.catalog c := by
      rw [List.map_cons, List.takeWhile_cons, if_pos (by rw [hgo]; rfl)]
    refine Triple.read_known ?_
    dsimp only
    by_cases hrows : a.db.nullRows c t.catalog = 0
    · rw [if_pos hrows]
      refine ih hown' fun ⟨⟨d, hd, hstop⟩, d', hd', hfill⟩ => h ⟨⟨d, ?_, hstop⟩, d', ?_, hfill⟩
      · exact List.mem_cons_of_mem _ hd
      · rw [hwhile (by simp [Db.stops, hrows])]
        exact List.mem_cons_of_mem _ hd'
    · rw [if_neg hrows]
      by_cases hnone : c.default.isNone = true
      · rw [if_pos hnone]
        exact Triple.fail_known fun e _ => rfl
      · rw [if_neg hnone]
        have hrest : ∀ d ∈ checks.map Prod.snd, a.db.stops t.catalog d = false := by
          intro d hd
          by_contra hstop
          refine h ⟨⟨d, List.mem_cons_of_mem _ hd, by simpa using hstop⟩, c, ?_, hrows⟩
          rw [hwhile (by simp [Db.stops, hnone])]
          exact List.mem_cons_self
        refine Triple.bind (Triple.write_known (U := fun _ u =>
          u = { t with catalog := a.db.fillNulls c t.catalog }) rfl fun e he => by cases he) fun _ => ?_
        refine (nullChecks_pass hdb hown' fun d hd => ?_).mono (fun _ hu => hu) (fun _ _ hu => hu)
          fun h u hu e he => ?_
        · have hd' := hrest d hd
          rw [Db.stops] at hd' ⊢
          rwa [nullRows_others hdb hown hd]
        · rw [hu] at he
          cases he

theorem nullChecks_cons_pass {t : World S C} {i : Nat} {c : NullCheck} {m : Option Nat}
    (hrows : a.db.nullRows c t.catalog = 0) :
    a.nullChecks p ((i, c) :: checks) ⟨t, m⟩ = a.nullChecks p checks ⟨t, m⟩ := by
  change (if a.db.nullRows c t.catalog = 0 then _ else _ : Command S C PUnit) ⟨t, m⟩ = _
  rw [if_pos hrows]

theorem nullChecks_cons_stop {t : World S C} {i : Nat} {c : NullCheck} {m : Option Nat}
    (hrows : a.db.nullRows c t.catalog ≠ 0) (hnone : c.default.isNone = true) :
    a.nullChecks p ((i, c) :: checks) ⟨t, m⟩ = (.error (.failed ⟨.nulls, p.name, i,
      s!"column {c.table}.{c.column} has {a.db.nullRows c t.catalog} NULL rows and no default to restore NOT NULL"⟩),
      ⟨t, m⟩) := by
  change (if a.db.nullRows c t.catalog = 0 then _ else if c.default.isNone then _ else _ :
    Command S C PUnit) ⟨t, m⟩ = _
  rw [if_neg hrows, if_pos hnone]
  rfl

theorem nullChecks_cons_fill {t : World S C} {i : Nat} {c : NullCheck}
    (hrows : a.db.nullRows c t.catalog ≠ 0) (hsome : ¬ c.default.isNone = true) :
    a.nullChecks p ((i, c) :: checks) ⟨t, none⟩ =
      a.nullChecks p checks ⟨{ t with catalog := a.db.fillNulls c t.catalog }, none⟩ := by
  change (if a.db.nullRows c t.catalog = 0 then _ else if c.default.isNone then _ else _ :
    Command S C PUnit) ⟨t, none⟩ = _
  rw [if_neg hrows, if_neg hsome]
  rfl

theorem takeWhile_congr {α : Type} {f g : α → Bool} {xs : List α} (h : ∀ x ∈ xs, f x = g x) :
    xs.takeWhile f = xs.takeWhile g := by
  induction xs with
  | nil => rfl
  | cons x xs ih =>
    rw [List.takeWhile_cons, List.takeWhile_cons, h x List.mem_cons_self,
      ih fun y hy => h y (List.mem_cons_of_mem _ hy)]

/-- Checks that stop fail, with the columns before the stop filled. -/
theorem nullChecks_stop (hdb : FillsNulls a.db) (hown : OwnColumns (checks.map Prod.snd))
    {t : World S C} (hstop : ∃ c ∈ checks.map Prod.snd, a.db.stops t.catalog c = true) :
    ∃ e u, a.nullChecks p checks ⟨t, none⟩ = (.error (.failed e), ⟨u, none⟩) ∧ e.code = .nulls ∧
      (∀ d : NullCheck, (∀ c ∈ checks.map Prod.snd, (d.table, d.column) ≠ (c.table, c.column)) →
        a.db.nullRows d u.catalog = a.db.nullRows d t.catalog) ∧
      ∀ d ∈ (checks.map Prod.snd).takeWhile (fun c => !a.db.stops t.catalog c),
        a.db.nullRows d u.catalog = 0 := by
  induction checks generalizing t with
  | nil =>
    obtain ⟨c, hc, _⟩ := hstop
    cases hc
  | cons x checks ih =>
    obtain ⟨i, c⟩ := x
    have hown' : OwnColumns (checks.map Prod.snd) := (List.nodup_cons.mp hown).2
    have hother : ∀ d ∈ checks.map Prod.snd, (c.table, c.column) ≠ (d.table, d.column) := by
      intro d hd heq
      exact (List.nodup_cons.mp hown).1 (List.mem_map.mpr ⟨d, hd, heq.symm⟩)
    by_cases hc : a.db.stops t.catalog c = true
    · obtain ⟨hnone, hrows⟩ : c.default.isNone = true ∧ a.db.nullRows c t.catalog ≠ 0 := by
        simpa [Db.stops] using hc
      refine ⟨_, t, nullChecks_cons_stop hrows hnone, rfl, fun _ _ => rfl, fun d hd => ?_⟩
      rw [List.map_cons, List.takeWhile_cons, if_neg (by rw [hc]; exact nofun)] at hd
      cases hd
    · -- the columns that the later checks read are those of `t`
      obtain ⟨t', hrun, hcol, hsame⟩ : ∃ t', a.nullChecks p ((i, c) :: checks) ⟨t, none⟩ =
          a.nullChecks p checks ⟨t', none⟩ ∧ a.db.nullRows c t'.catalog = 0 ∧
          ∀ d : NullCheck, (d.table, d.column) ≠ (c.table, c.column) →
            a.db.nullRows d t'.catalog = a.db.nullRows d t.catalog := by
        by_cases hrows : a.db.nullRows c t.catalog = 0
        · exact ⟨t, nullChecks_cons_pass hrows, hrows, fun _ _ => rfl⟩
        · have hsome : ¬ c.default.isNone = true := by
            intro hnone
            simp [Db.stops, hnone, hrows] at hc
          refine ⟨_, nullChecks_cons_fill hrows hsome, ?_, fun d hd => hdb.others c d _ hd⟩
          exact hdb.filled c _ (by simpa [Option.isSome_iff_ne_none] using hsome)
      have hstops : ∀ d ∈ checks.map Prod.snd, a.db.stops t'.catalog d = a.db.stops t.catalog d := by
        intro d hd
        rw [Db.stops, Db.stops, hsame d fun heq => hother d hd heq.symm]
      obtain ⟨d, hd, hdstop⟩ := hstop
      have hd' : d ∈ checks.map Prod.snd := by
        rcases List.mem_cons.mp hd with rfl | hd
        · exact absurd hdstop hc
        · exact hd
      obtain ⟨e, u, hrest, hcode, houts, hfilled⟩ :=
        ih hown' (t := t') ⟨d, hd', (hstops d hd').trans hdstop⟩
      refine ⟨e, u, hrun.trans hrest, hcode, fun d hd => ?_, fun d hd => ?_⟩
      · rw [houts d fun c' hc' => hd c' (List.mem_cons_of_mem _ hc')]
        exact hsame d (hd c List.mem_cons_self)
      · rw [List.map_cons, List.takeWhile_cons, if_pos (by simpa using hc)] at hd
        rcases List.mem_cons.mp hd with rfl | hd
        · rw [houts d hother]
          exact hcol
        · refine hfilled d ?_
          rwa [takeWhile_congr fun d' hd' => by rw [hstops d' hd']]

end Nulls

section Rollback

/-- The last recorded plan, which is applied or done. -/
def LastApplied (a : Applier S C) (w : World S C) (p : Plan) (row : HistoryRow) : Prop :=
  ∃ n, position a.chain w.history = .ok (n + 1) ∧ a.chain[n]? = some p ∧
    rowOf w.history p = some row ∧ row.state.rests = true

/-- The rollback of the plan comes to its null checks: the catalog is the target of the plan, and the
last step has a rollback. -/
structure ReachesNulls (a : Applier S C) (w : World S C) (p : Plan) (row : HistoryRow)
    (steps : List (Step S)) : Prop where
  planned : a.steps p = .ok steps
  inside : row.step ≤ steps.length
  verified : a.db.verify p.to w.catalog = .same
  reversible : LastUndone steps row.step

/-- The errors of a rollback that has not begun. -/
def Refusal (row : HistoryRow) (e : ApplyError) : Prop :=
  e.code = .nulls ∨ e.code = .irreversible ∧ e.step + 1 = row.step

/-- The null checks of the steps that the rollback undoes. -/
def undoChecks (steps : List (Step S)) (row : HistoryRow) : List (Nat × NullCheck) :=
  Applier.nullChecksOf (steps.take row.step)

theorem lastPlan_eq (hl : LastApplied a w p row) (body : Plan → HistoryRow → Command S C PUnit)
    (m : Option Nat) : a.lastPlan body ⟨w, m⟩ = body p row ⟨w, m⟩ := by
  obtain ⟨n, hpos, hp, hrow, _⟩ := hl
  change (Cmd.check (position a.chain w.history) >>= _ : Command S C PUnit) ⟨w, m⟩ = _
  rw [hpos, Cmd.check_ok, pure_bind, if_neg (Nat.succ_ne_zero n)]
  simp only [Nat.add_sub_cancel, hp, hrow]

theorem bind_of_ok {α β : Type} {x : Command S C α} {f : α → Command S C β} {r r' : Run (World S C)}
    {b : α} (h : x r = (.ok b, r')) : (x >>= f) r = f b r' := by
  change Cmd.andThen x f r = _
  rw [Cmd.andThen, h]

theorem bind_of_error {α β : Type} {x : Command S C α} {f : α → Command S C β}
    {r r' : Run (World S C)} {e : Halt ApplyError} (h : x r = (.error e, r')) :
    (x >>= f) r = (.error e, r') := by
  change Cmd.andThen x f r = _
  rw [Cmd.andThen, h]

/-- What a rollback does after its null checks. -/
def undo (a : Applier S C) (p : Plan) (steps : List (Step S)) (k : Nat) : Command S C PUnit := do
  Applier.record p .rollingBack k
  a.backward p steps k
  a.foreignKeyCheck p
  a.verify p (p.from_.getD "")
  Cmd.write fun w => { w with history := deleteRow p w.history }

theorem undo_later (h : LastUndone steps k) :
    Raises (undo a p steps k) (Later k) := by
  refine (Raises.write _).bind fun _ => (backward_later le_rfl fun _ => h).bind fun _ => ?_
  exact foreignKeyCheck_later.bind fun _ => (verify_later _).bind fun _ => .write _

theorem driftCheck_run (m : Option Nat) :
    (a.driftCheck p ⟨w, m⟩ = (.ok ⟨⟩, ⟨w, m⟩) ∧ a.db.verify p.to w.catalog = .same) ∨
    ∃ e, a.driftCheck p ⟨w, m⟩ = (.error (.failed e), ⟨w, m⟩) ∧ a.db.verify p.to w.catalog ≠ .same := by
  have hread : (Cmd.read : Command S C _) ⟨w, m⟩ = (.ok w, ⟨w, m⟩) := rfl
  rw [Applier.driftCheck, bind_of_ok hread]
  cases a.db.verify p.to w.catalog with
  | same => exact .inl ⟨rfl, rfl⟩
  | mismatch message => exact .inr ⟨_, rfl, nofun⟩
  | failed => exact .inr ⟨_, rfl, nofun⟩

theorem reversible_run (m : Option Nat) :
    (Applier.reversible p steps k ⟨w, m⟩ = (.ok ⟨⟩, ⟨w, m⟩) ∧ LastUndone steps k) ∨
    ∃ e, Applier.reversible p steps k ⟨w, m⟩ = (.error (.failed e), ⟨w, m⟩) ∧
      ¬ LastUndone steps k := by
  unfold Applier.reversible LastUndone
  by_cases hk : k = 0
  · rw [if_pos hk]
    exact .inl ⟨rfl, by omega⟩
  · rw [if_neg hk]
    cases hs : steps[k - 1]? with
    | none => exact .inl ⟨rfl, fun _ _ h => by cases h⟩
    | some s =>
      dsimp only
      by_cases hnone : s.rollback = none
      · rw [if_pos (by simp [hnone])]
        exact .inr ⟨_, rfl, fun h => h s (Nat.pos_of_ne_zero hk) rfl hnone⟩
      · rw [if_neg (by simp [hnone])]
        refine .inl ⟨rfl, fun s' _ hs' => ?_⟩
        cases hs'
        exact hnone

/-- A rollback comes to its null checks or is refused before them. -/
theorem rollbackPlans_run (hl : LastApplied a w p row) (m : Option Nat) :
    (∃ steps, ReachesNulls a w p row steps ∧ a.rollbackPlans ⟨w, m⟩ =
      (a.nullChecks p (undoChecks steps row) >>= fun _ => undo a p steps row.step) ⟨w, m⟩) ∨
    (∀ steps, ¬ ReachesNulls a w p row steps) ∧
      ∃ e, a.rollbackPlans ⟨w, m⟩ = (.error (.failed e), ⟨w, m⟩) := by
  have hrest : row.state.rests = true := hl.choose_spec.2.2.2
  rw [Applier.rollbackPlans, lastPlan_eq hl]
  cases hplan : a.steps p with
  | error message =>
    have hsteps : a.stepsOf p ⟨w, m⟩ = (.error (.failed (chainError p.name message)), ⟨w, m⟩) := by
      rw [Applier.stepsOf, hplan]
      rfl
    refine .inr ⟨fun steps hr => ?_, _, bind_of_error hsteps⟩
    rw [hr.planned] at hplan
    cases hplan
  | ok steps =>
    have hsame {steps' : List (Step S)} (hr : ReachesNulls a w p row steps') :
        ReachesNulls a w p row steps := by
      obtain rfl : steps = steps' := Except.ok.inj (hplan.symm.trans hr.planned)
      exact hr
    have hsteps : a.stepsOf p ⟨w, m⟩ = (.ok steps, ⟨w, m⟩) := by
      rw [Applier.stepsOf, hplan]
      rfl
    rw [bind_of_ok hsteps, Applier.rollbackStart, if_pos hrest]
    by_cases hout : steps.length < row.step
    · rw [if_pos hout]
      exact .inr ⟨fun _ hr => absurd (hsame hr).inside (Nat.not_le.mpr hout), _, bind_of_error rfl⟩
    · rw [if_neg hout, bind_assoc]
      rcases @driftCheck_run S C a p w m with ⟨hdrift, hv⟩ | ⟨e, hdrift, hne⟩
      · rw [bind_of_ok hdrift, pure_bind]
        rcases @reversible_run S C p w steps row.step m with ⟨hrev, hundo⟩ | ⟨e, hrev, hundo⟩
        · rw [bind_of_ok hrev, if_pos hrest]
          exact .inl ⟨steps, ⟨hplan, Nat.not_lt.mp hout, hv, hundo⟩, rfl⟩
        · exact .inr ⟨fun _ hr => hundo (hsame hr).reversible, e, bind_of_error hrev⟩
      · exact .inr ⟨fun _ hr => hne (hsame hr).verified, e, bind_of_error hdrift⟩

/-- The rollback comes to null checks that fill a column before they stop. -/
def FillsThenRefuses (a : Applier S C) (w : World S C) (p : Plan) (row : HistoryRow) : Prop :=
  ∃ steps, ReachesNulls a w p row steps ∧
    FillsBeforeStop a.db w.catalog ((undoChecks steps row).map Prod.snd)

/-- A rollback that reports NULL rows, or that its first step to undo is irreversible, has changed
neither the catalog nor the history, exactly when no column with NULL rows and a default is checked
before the column that stops it. -/
theorem rollbackPlans_refused_unchanged_iff (hdb : FillsNulls a.db)
    (hl : LastApplied a w p row)
    (hown : ∀ steps, a.steps p = .ok steps → OwnColumns ((undoChecks steps row).map Prod.snd)) :
    (∀ m e r, a.rollbackPlans ⟨w, m⟩ = (.error (.failed e), r) → Refusal row e →
      r.state.catalog = w.catalog ∧ r.state.history = w.history) ↔
    ¬ FillsThenRefuses a w p row := by
  constructor
  · rintro h ⟨steps, hr, hstop, c, hc, hrows⟩
    obtain ⟨e, u, hrun, hcode, _, hfilled⟩ := @nullChecks_stop S C a p _ hdb (hown steps hr.planned) w hstop
    rcases rollbackPlans_run hl none with ⟨steps', hr', hrun'⟩ | ⟨hnot, _⟩
    · obtain rfl : steps = steps' := Except.ok.inj (hr.planned.symm.trans hr'.planned)
      rw [bind_of_error hrun] at hrun'
      obtain ⟨hcat, _⟩ := h none e _ hrun' (.inl hcode)
      refine hrows ?_
      rw [← hcat]
      exact hfilled c hc
    · exact hnot steps hr
  · intro hno m e r hrun href
    rcases rollbackPlans_run hl m with ⟨steps, hr, hrun'⟩ | ⟨_, e', hrun'⟩
    · rw [hrun'] at hrun
      have hnulls : Triple (fun u => u = w) (a.nullChecks p (undoChecks steps row))
          (fun _ _ => True) fun h u => ∀ e, h = .failed e → Refusal row e → u = w :=
        (nullChecks_unchanged hdb (hown steps hr.planned) fun hfill => hno ⟨steps, hr, hfill⟩).mono
          (fun _ hu => hu) (fun _ _ hu => hu) fun _ _ hu e he _ => hu e he
      have hundo : Triple (fun _ => True) (undo a p steps row.step) (fun _ _ => True)
          fun h u => ∀ e, h = .failed e → Refusal row e → u = w := by
        refine (undo_later hr.reversible).mono (fun _ hu => hu) (fun _ _ hu => hu)
          fun _ _ hlater e he href => ?_
        obtain ⟨hcode, hstep⟩ := hlater e he
        rcases href with hnull | ⟨hirr, heq⟩
        · exact absurd hnull hcode
        · exact absurd heq (Nat.ne_of_lt (hstep hirr))
      have hends := hnulls.bind (fun _ => hundo) ⟨w, m⟩ rfl
      rw [hrun] at hends
      have hsame : r.state = w := hends.1 e rfl href
      rw [hsame]
      exact ⟨rfl, rfl⟩
    · rw [hrun'] at hrun
      cases hrun
      exact ⟨rfl, rfl⟩

end Rollback

section Example

def nullablePlan : Plan := ⟨"nullable", none, [], [], [], [], ⟨[], ""⟩⟩

/-- A step that makes a column of the users nullable. -/
def makeNullable (column : String) (default : Option (ColumnType × Default)) : Step String :=
  { statement := column, rollback := some column, irreversible := "", effect := repeatEffect
    restore := none, rollbackRestore := none, restoreIf := none
    nullChecks := [⟨"users", column, default⟩], finalize := false }

/-- The nick has a default and the email has none. -/
def nullableSteps : List (Step String) :=
  [makeNullable "nick" (some (.text, .literal "'none'")), makeNullable "email" none]

/-- The plan that makes two columns nullable, in a catalog of the columns with NULL rows. -/
def nullableApplier : Applier String (List (String × String)) where
  chain := [nullablePlan]
  steps := fun _ => .ok nullableSteps
  db :=
    { exec := fun _ c => some c
      holds := fun _ _ => some true
      verify := fun _ _ => .same
      brokenForeignKeys := fun _ => 0
      nullRows := fun x c => c.count (x.table, x.column)
      fillNulls := fun x c => c.filter (· ≠ (x.table, x.column)) }

theorem nullableApplier_fills : FillsNulls nullableApplier.db where
  filled c x _ := by simp [nullableApplier, List.count_eq_zero]
  others c d x hne := by
    simp only [nullableApplier]
    exact List.count_filter (decide_eq_true hne)

/-- The plan is applied, and the columns have NULL rows. -/
def nullableWorld (columns : List (String × String)) : World String (List (String × String)) :=
  ⟨columns, rowsOf [nullablePlan] fun _ => (.applied, 2), []⟩

theorem nullableWorld_applied (columns : List (String × String)) :
    LastApplied nullableApplier (nullableWorld columns) nullablePlan ⟨"empty", "", .applied, 2⟩ :=
  ⟨0, rfl, rfl, rfl, rfl⟩

/-- Only the email has NULL rows. -/
theorem rollbackPlans_refused_unchanged_iff_email :
    LastApplied nullableApplier (nullableWorld [("users", "email")]) nullablePlan
      ⟨"empty", "", .applied, 2⟩ ∧
    ∀ m e r, nullableApplier.rollbackPlans ⟨nullableWorld [("users", "email")], m⟩ =
      (.error (.failed e), r) → Refusal ⟨"empty", "", .applied, 2⟩ e →
      r.state.catalog = [("users", "email")] ∧
        r.state.history = (nullableWorld [("users", "email")]).history := by
  refine ⟨nullableWorld_applied _, (rollbackPlans_refused_unchanged_iff nullableApplier_fills
    (nullableWorld_applied _) fun steps hsteps => ?_).mpr ?_⟩
  · cases hsteps
    decide
  · rintro ⟨steps, hr, -, c, hc, hrows⟩
    cases hr.planned
    have hnone : ∀ c ∈ (((undoChecks nullableSteps ⟨"empty", "", .applied, 2⟩).map Prod.snd).takeWhile
        fun c => !nullableApplier.db.stops [("users", "email")] c),
        nullableApplier.db.nullRows c [("users", "email")] = 0 := by decide
    exact hrows (hnone c hc)

/-- Both columns have NULL rows: the nicks are filled, and then the emails stop the rollback. -/
theorem rollbackPlans_fills_then_refuses :
    let ran := nullableApplier.rollbackPlans
      ⟨nullableWorld [("users", "nick"), ("users", "email")], none⟩
    (∃ e, ran.1 = .error (.failed e) ∧ e.code = .nulls) ∧
      ran.2.state.catalog = [("users", "email")] := by
  refine ⟨⟨_, rfl, rfl⟩, ?_⟩
  decide

end Example

end Orm.Dbspec
