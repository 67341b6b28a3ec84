import Orm.Engine.Placed
import Orm.Engine.Joined

/-! The placeholders of every statement of a plan stand for the values that the request places
there. -/
namespace Orm.Engine

open Orm.Sql (Tok Text bindsOf)
open Orm.Sql.Text (commaSep andSep)
open Orm.Logic

/-- A run that only reads. -/
theorem adds_mapM_nil {α β : Type} {f : α → Build β} {as : List α}
    (h : ∀ a ∈ as, Adds Builder.binds (f a) fun _ l => l = []) :
    Adds Builder.binds (as.mapM f) fun _ l => l = [] := by
  refine (Adds.mapM (R := fun _ _ l => l = []) h).mono fun bs l hl => ?_
  induction hl with
  | nil => rfl
  | cons head tail ih =>
    subst head
    exact ih fun a ha => h a (List.mem_cons_of_mem _ ha)

@[simp] theorem Dialect.bindsOf_upsert (d : Dialect) (conflict : List String) (t : Text) :
    bindsOf (d.upsert conflict t) = bindsOf t := by
  cases d <;> simp [upsert, Function.comp_def]

theorem Dialect.bindsOf_rowLock {d : Dialect} {mode : RowLock} {t : Text}
    (h : d.rowLock mode = some t) : bindsOf t = [] := by
  have hsuffix (h : lockSuffix mode = some t) : bindsOf t = [] := by
    cases mode <;> cases h <;> simp
  cases d with
  | mysql => exact hsuffix h
  | postgres => exact hsuffix h
  | sqlite =>
    obtain ⟨_, _, rfl⟩ := Option.map_eq_some_iff.mp h
    rfl

namespace Planner
variable {P : Planner}

section Read
variable {root : Scope} {ent : Entity}

theorem bindsOf_aggregate (col : Text) (agg : Agg) (h : bindsOf col = []) :
    bindsOf (aggregateText col agg) = [] := by
  cases agg <;> simp [aggregateText, h]

theorem selectGroupCountList_binds {x : List Text × List String × Assemble}
    (h : P.selectGroupCountList root ent = .ok x) : bindsOf x.1.flatten = [] := by
  obtain ⟨cols, _, h⟩ := ok_bind.mp h
  obtain ⟨key, _, h⟩ := ok_bind.mp h
  obtain rfl : _ = x := by simpa [pure, Except.pure] using h
  simp [Function.comp_def, qcol]

theorem selectRows_writes :
    Adds Builder.binds (P.selectRows root ent) fun x l => Shown P.d (selectPlaces P.d root.q) x.1 l := by
  refine (selectList_writes root.q 0 rfl).bind fun x l hl => .lift_bind fun key _ => .pure ?_
  exact hl.same (by simp)

theorem selectHead_writes (kind : Kind) (agg : String) :
    Adds Builder.binds (P.selectHead root ent kind agg) fun x l =>
      Shown P.d (headPlaces P.d root.q kind) x.1 l := by
  cases kind with
  | count =>
    refine .pure (shown_nil ?_)
    split <;> simp
  | sum => exact .pure (shown_nil (bindsOf_aggregate (P.qcol root agg) .sum rfl))
  | avg => exact .pure (shown_nil (bindsOf_aggregate (P.qcol root agg) .avg rfl))
  | groupCount =>
    refine .lift_bind fun x hx => .pure (shown_nil ?_)
    simpa using selectGroupCountList_binds hx
  | _ => exact selectRows_writes

theorem parentCondition_writes (rc : RelationContext) :
    Writes P.d (P.parentCondition root ent rc) [.parent rc.parentStep] := by
  refine (adds_mapM_nil fun key _ => .lift_bind fun _ _ => .pure rfl).bind ?_
  rintro types _ rfl
  refine (Build.parentList_writes rc.parentStep types).bind fun ph l hl => .pure (hl.same ?_)
  split <;> simp [qcol, Function.comp_def]

theorem selectConditions_writes (rc : Option RelationContext) :
    Adds Builder.binds (P.selectConditions root ent rc) fun ts l =>
      Shown P.d (conditionPlaces P.d root.q rc) ts.flatten l := by
  have hrest {parents : List Text} {e : List Place} {l : List (BindSlot × Nat)}
      (hl : Shown P.d e parents.flatten l) : Adds Builder.binds (do
        let own ← P.renderWhere (P.placedOf root root.q.joins) root rc.isNone root.q.where_
        let nested ← P.collectJoinWhere root (placedIn root.q.where_) root.q.joins
        pure (parents ++ P.softDeleteConditions root ent ++ own ++ nested)) fun ts l' =>
        Shown P.d (e ++ wherePlaces P.d (placedPlaces P.d root.q.joins) root.q.where_ ++
          joinWherePlaces P.d (placedIn root.q.where_) root.q.joins) ts.flatten (l ++ l') := by
    refine (renderWhere_writes _ root _ (placedOf_writes _ root)).bind fun own l₁ hl₁ => ?_
    refine (collectJoinWhere_writes _ root _).bind fun nested l₂ hl₂ => .pure ?_
    rw [List.append_nil, ← List.append_assoc l]
    exact (hl.append hl₁ (Orm.Sql.bindsOf_append _ _)).append hl₂ (by simp)
  cases rc with
  | none => exact hrest (shown_nil rfl)
  | some rc => exact (parentCondition_writes rc).bind fun t l hl => hrest (by simpa using hl)

theorem rowNumber_binds {rc : RelationContext} {t : Text} (h : P.rowNumber root ent rc = .ok t) :
    bindsOf t = [] := by
  obtain ⟨order, horder, h⟩ := ok_bind.mp h
  have hnone := renderOrder_binds horder
  have hrest {order : Text} (ho : bindsOf order = []) (h : (pure [.comma, .call "ROW_NUMBER" [],
      .word "OVER", .paren (.word "PARTITION BY" :: commaSep (rc.childKeys.map (P.qcol root)) ++
      order), .word "AS", .ident (P.d.quote "orm_rn")] : Except Failure Text) = .ok t) :
      bindsOf t = [] := by
    obtain rfl : _ = t := by simpa [pure, Except.pure] using h
    simp [ho, qcol, Function.comp_def]
  dsimp only at h
  split at h
  · obtain ⟨pk, _, h⟩ := ok_bind.mp h
    exact hrest (by simp [qcol]) h
  · exact hrest hnone h

theorem numberText_binds {rc : Option RelationContext} {n : Int} {t : Text}
    (h : P.numberText root ent rc n = .ok t) : bindsOf t = [] := by
  unfold numberText at h
  split at h
  · split at h
    · exact rowNumber_binds h
    · cases h
      rfl
  · cases h
    rfl

theorem lockText_binds {mode : RowLock} {t : Text} (h : P.lockText mode = .ok t) :
    bindsOf t = [] := by
  unfold lockText at h
  split at h
  · cases h
    rfl
  · split at h
    · rename_i hlock
      cases h
      exact Dialect.bindsOf_rowLock hlock
    · cases h

theorem renderPage_writes (kind : Kind) (isRelation : Bool) :
    Writes P.d (P.renderPage root kind isRelation) (pagePlaces P.d root.q kind isRelation) := by
  refine .lift_bind fun order horder => ?_
  have hrest {limit : Text} {e : List Place} {l : List (BindSlot × Nat)} (hl : Shown P.d e limit l) :
      Adds Builder.binds ((do
        let lock ← P.lockText root.q.head.lock
        pure (order ++ limit ++ lock)) : Build Text) fun t l' => Shown P.d e t (l ++ l') := by
    refine .lift_bind fun lock hlock => .pure (hl.same ?_)
    simp [renderOrder_binds horder, lockText_binds hlock]
  have hfixed {offset count : String} (ho : Orm.Sql.marks offset = false)
      (hc : Orm.Sql.marks count = false) :
      Shown P.d [] (P.d.limit [.word offset] [.word count]) [] := by
    refine shown_nil (bindsOf_limit _ _ ?_ ?_)
    · simp [-Orm.Sql.marks_eq, ho]
    · simp [-Orm.Sql.marks_eq, hc]
  unfold pagePlaces
  dsimp only
  split
  · exact hrest (hfixed rfl rfl)
  · cases root.q.head.limit with
    | none => exact hrest (shown_nil rfl)
    | some limit =>
      cases limit with
      | values offset count => exact hrest (hfixed (by simp) (by simp))
      | params offset count =>
        dsimp only
        by_cases hd : P.d = .mysql
        · rw [if_pos hd, if_pos hd]
          refine (Build.param_writes offset .i64).bind fun o l hl => ?_
          refine (Build.param_writes count .i64).bind fun c l' hl' => ?_
          have hboth := hl.append hl' (u := P.d.limit o c) (by simp [hd, Dialect.limit])
          exact (hrest hboth).mono fun t l'' h => by rwa [List.append_assoc] at h
        · rw [if_neg hd, if_neg hd]
          refine (Build.param_writes count .i64).bind fun c l hl => ?_
          refine (Build.param_writes offset .i64).bind fun o l' hl' => ?_
          have hboth := hl.append hl' (u := P.d.limit o c) (by
            cases hd' : P.d <;> simp_all [Dialect.limit])
          exact (hrest hboth).mono fun t l'' h => by rwa [List.append_assoc] at h

theorem pageText_writes (kind : Kind) (rc : Option RelationContext) (outNames : List String)
    {sql : Text} {e : List Place} {l : List (BindSlot × Nat)} (hl : Shown P.d e sql l) :
    Adds Builder.binds (P.pageText root kind rc (perParent root.q rc) outNames sql) fun t l' =>
      Shown P.d (e ++ endPlaces P.d root.q kind rc) t (l ++ l') := by
  unfold pageText endPlaces
  split
  · refine .pure ?_
    rw [List.append_nil, List.append_nil]
    exact hl
  · cases rc with
    | none =>
      refine (renderPage_writes kind false).bind fun page l' hl' => .pure ?_
      rw [List.append_nil]
      exact hl.append hl' (Orm.Sql.bindsOf_append _ _)
    | some rc =>
      dsimp only
      split
      · refine .pure ?_
        rw [List.append_nil, List.append_nil]
        exact ⟨by simp [perParentWrap, Function.comp_def, hl.1], hl.2⟩
      · refine (renderPage_writes kind true).bind fun page l' hl' => .pure ?_
        rw [List.append_nil]
        exact hl.append hl' (Orm.Sql.bindsOf_append _ _)

theorem selectText_writes (q : Query) (kind : Kind) (agg : String) (rc : Option RelationContext) :
    Adds Builder.binds (P.selectText q kind agg rc) fun x l =>
      Shown P.d (statementPlaces P.d q kind rc) x.1 l := by
  have hq : (selectRoot q rc).q = q := by cases rc <;> rfl
  refine .lift_bind fun _ _ => .lift_bind fun ent _ => ?_
  refine (selectHead_writes kind agg).bind fun out l₁ hl₁ => ?_
  refine .lift_bind fun number hnumber => (Build.table_adds ent).bind ?_
  rintro table _ ⟨htable, rfl⟩
  refine (renderJoins_writes q.joins _).bind fun joins l₂ hl₂ => ?_
  refine (selectConditions_writes rc).bind fun conditions l₃ hl₃ => ?_
  have hwhere := whereClause_binds conditions
  rw [hq] at hl₁ hl₃
  have hforce : bindsOf (if q.head.forceIndex = "" then [] else P.d.forceIndex q.head.forceIndex) =
      [] := by
    split
    · rfl
    · cases P.d <;> rfl
  have hgroup : bindsOf (if q.hasGroupBy then .word "GROUP BY" ::
      commaSep ((q.head.groupBy.getD []).map (P.qcol (selectRoot q rc))) else []) = [] := by
    split
    · simp [qcol, Function.comp_def]
    · rfl
  have hcond := (hl₁.append hl₂ (Orm.Sql.bindsOf_append _ _)).append hl₃ (Orm.Sql.bindsOf_append _ _)
  have hstatement {sql : Text} (hsql : bindsOf sql = bindsOf (out.1 ++ joins ++ conditions.flatten)) :
      Adds Builder.binds ((do
        let sql ← P.pageText (selectRoot q rc) kind rc (perParent q rc) out.2.1 sql
        pure (sql, out.2.2)) : Build (Text × Assemble)) fun x l =>
        Shown P.d (statementPlaces P.d q kind rc) x.1 (l₁ ++ (l₂ ++ (l₃ ++ l))) := by
    have hshown : Shown P.d _ sql _ := ⟨hsql.trans hcond.1, hcond.2⟩
    have hpage := @pageText_writes P (selectRoot q rc) kind rc out.2.1 sql _ _ hshown
    rw [hq] at hpage
    refine hpage.bind fun t l hl => .pure ?_
    rw [List.append_nil]
    simpa only [List.append_assoc, statementPlaces] using hl
  refine (hstatement ?_).mono fun x l h => by simpa using h
  split <;> simp [numberText_binds hnumber, htable, hforce, hwhere, hgroup]

end Read

section Write
variable {ent : Entity}

/-- A run from a builder with `n` slots writes a text whose placeholders stand for the values `e`. -/
def WritesAt (d : Dialect) (n : Nat) (x : Build Text) (e : List Place) : Prop :=
  ∀ b t b', b.binds.length = n → x b = .ok (t, b') →
    ∃ new, b'.binds = b.binds ++ new ∧ Shown d e t (new.zipIdx n)

theorem writesAt {d : Dialect} {x : Build Text} {e : List Place} (n : Nat) (hx : Writes d x e) :
    WritesAt d n x e := by
  rintro b t b' rfl hr
  exact hx b t b' hr

theorem get_writes {d : Dialect} {f : Builder → Build Text} {e : List Place}
    (hf : ∀ b, WritesAt d b.binds.length (f b) e) : Writes d (get >>= f) e := by
  intro b t b' hr
  exact hf b b t b' rfl hr

/-- The marks of an assigned value do not change what its slots stand for. -/
theorem markAssigned_writesAt {d : Dialect} {x : Build Text} {e : List Place} (hx : Writes d x e)
    (n : Nat) (col : Field) : WritesAt d n (x >>= markAssigned n col) e := by
  rintro b t b' rfl hr
  obtain ⟨⟨v, b₁⟩, hv, hr⟩ := ok_bind.mp hr
  obtain ⟨new, hlog, hshown⟩ := hx b v b₁ hv
  obtain ⟨rfl, rfl⟩ : v = t ∧ _ = b' := by simpa [markAssigned, pure, Except.pure] using hr
  by_cases hnull : col.nullable = true
  · exact ⟨new, by simp [hnull, hlog], hshown⟩
  · refine ⟨new.map fun s => if s.source = .param then
      { s with notNull := true, column := col.name } else s, by simp [hnull, hlog], ?_, ?_⟩
    · rw [hshown.1]
      simp [List.zipIdx_map, List.flatMap_map]
    · rw [← hshown.2, List.zipIdx_map, List.map_map]
      refine List.map_congr_left fun x _ => ?_
      dsimp only [Function.comp_apply, Prod.map]
      split <;> rfl

/-- The values of an assignment. -/
def assignPlaces (a : Assignment) : List Place :=
  match a.plusP, a.minusP with
  | some plus, _ => [.param plus]
  | none, some minus => [.param minus, .param minus]
  | none, none => if a.null then [] else a.p.toList.map .param

theorem renderAssign_writes (col : Field) (a : Assignment) :
    Writes P.d (P.renderAssign ent col a) (assignPlaces a) := by
  have hvalue {f : Int → Build Text} (hf : ∀ i, Writes P.d (f i) [.param i]) (n : Nat) :
      WritesAt P.d n (do
        let p ← present a.p s!"the value of {a.column}"
        let value ← f p
        markAssigned n col value) (a.p.toList.map .param) := by
    rw [← bind_assoc]
    refine markAssigned_writesAt (.lift_bind fun i hi => ?_) n col
    rw [present_some hi]
    exact hf i
  refine get_writes fun b => ?_
  dsimp only
  generalize b.binds.length = n
  split
  · split
    · exact writesAt n (.error fun _ _ h => by cases h)
    · rename_i hplain
      have hplus : a.plusP = none ∧ a.minusP = none := by simpa using hplain
      simp only [assignPlaces, hplus]
      split
      · exact writesAt n (.pure (shown_nil (by simp)))
      · exact hvalue (renderBlindIndexValue_writes col) n
  · unfold assignPlaces
    cases a.plusP with
    | some plus =>
      refine writesAt n ((Build.colParam_writes plus col .none).bind fun ph l hl => .pure ?_)
      exact hl.same (by simp)
    | none =>
      cases a.minusP with
      | some minus =>
        refine writesAt n ((Build.colParam_writes minus col .none).bind fun ph l hl => ?_)
        refine (Build.colParam_writes minus col .none).bind fun ph' l' hl' => .pure ?_
        rw [List.append_nil]
        exact hl.append hl' (by simp)
      | none =>
        dsimp only
        split
        · exact writesAt n (.pure (shown_nil (by simp)))
        · exact hvalue (renderValue_writes col) n

@[simp] theorem bindsOf_setText (column : String) (value : Text) :
    bindsOf (P.setText column value) = bindsOf value := by
  simp [setText]

theorem setTexts_writes (set : List Assignment) :
    Adds Builder.binds (P.setTexts ent set) fun ts l =>
      Shown P.d (set.flatMap assignPlaces) ts.flatten l := by
  refine mapM_writes fun a _ => .lift_bind fun col _ => ?_
  exact (renderAssign_writes col a).bind fun v l hl => .pure (hl.same (by simp))

theorem audit_writes : Writes P.d (P.audit ent) [.audit ent.auditRecord] :=
  .lift_bind fun _ _ => Build.typed_writes _

/-- The value of the audit column of an audited table. -/
def auditPlaces (ent : Entity) : List Place :=
  if ent.auditColumn = "" then [] else [.audit ent.auditRecord]

theorem auditAssignment_writes : Adds Builder.binds (P.auditAssignment ent) fun ts l =>
    Shown P.d (auditPlaces ent) ts.flatten l := by
  unfold auditAssignment auditPlaces
  split
  · exact .pure (shown_nil rfl)
  · exact audit_writes.bind fun v l hl => .pure (hl.same (by simp))

/-- The key version that the AES assignments of a set need. -/
def versionPlaces (ent : Entity) (set : List Assignment) : List Place :=
  if ent.aesVersion ≠ "" && assignsAES ent set && !assigned set ent.aesVersion then
    [.config "aes_version"] else []

theorem versionAssignment_writes (set : List Assignment) :
    Adds Builder.binds (P.versionAssignment ent set) fun ts l =>
      Shown P.d (versionPlaces ent set) ts.flatten l := by
  unfold versionAssignment versionPlaces
  split
  · refine .lift_bind fun col _ => (Build.config_writes _ _).bind fun v l hl => .pure ?_
    exact hl.same (by simp)
  · exact .pure (shown_nil rfl)

/-- The clock, which a database without one takes from the host. -/
def hostClock (d : Dialect) : List Place := if d.hostNow then [.now] else []

theorem clock_writes (col : Field) : Writes P.d (P.clock col) (hostClock P.d) := by
  unfold clock hostClock
  split
  · exact Build.now_writes _
  · refine .pure (shown_nil ?_)
    cases hd : P.d with
    | mysql =>
      unfold Dialect.now
      split <;> simp
    | postgres => simp [Dialect.now]
    | sqlite => simp [Dialect.now]

/-- The update time that a set does not give itself. -/
def updatedPlaces (d : Dialect) (ent : Entity) (set : List Assignment) : List Place :=
  if ent.updated ≠ "" && !assigned set ent.updated then hostClock d else []

theorem updatedAssignment_writes (set : List Assignment) :
    Adds Builder.binds (P.updatedAssignment ent set) fun ts l =>
      Shown P.d (updatedPlaces P.d ent set) ts.flatten l := by
  unfold updatedAssignment updatedPlaces
  split
  · refine .lift_bind fun col _ => (clock_writes col).bind fun v l hl => .pure ?_
    exact hl.same (by simp)
  · exact .pure (shown_nil rfl)

theorem writeWhere_writes {root : Scope} (kind : String) (g : Option Group) :
    Writes P.d (P.writeWhere root kind g)
      (wherePlaces P.d (placedPlaces P.d root.q.joins) g) := by
  refine .lift_bind fun g' hg => ?_
  rw [present_some hg]
  exact renderGroup_writes g' root true (placedOf_writes _ root)

theorem optimisticCondition_writes {root : Scope} (o : Optimistic) :
    Writes P.d (P.optimisticCondition root ent o) [.param o.p] := by
  refine .lift_bind fun col _ => (Build.colParam_writes o.p col .none).bind fun v l hl => .pure ?_
  exact hl.same (by simp [qcol])

@[simp] theorem bindsOf_andWhere (text : Text) (conditions : List Text) :
    bindsOf (andWhere text conditions) = bindsOf text ++ (conditions.map bindsOf).flatten := by
  simp [andWhere, Function.comp_def]

/-- The values of an UPDATE statement. -/
def updatePlaces (P : Planner) (r : Request) : Except Failure (List Place) := do
  let ent ← P.entity r.query.entity
  let sourced ← addBlindIndexAssignments ent r.set
  let set := sourced.map Prod.fst
  pure (set.flatMap assignPlaces ++ versionPlaces ent set ++ updatedPlaces P.d ent r.set ++
    auditPlaces ent ++ wherePlaces P.d (placedPlaces P.d r.query.joins) r.query.where_ ++
    r.optimistic.toList.map fun o => .param o.p)

/-- A run writes a text whose placeholders stand for the values that `e` finds. -/
abbrev WritesThe (d : Dialect) (x : Build Text) (e : Except Failure (List Place)) : Prop :=
  Adds Builder.binds x fun t l => ∃ places, e = .ok places ∧ Shown d places t l

theorem updateText_writes (r : Request) : WritesThe P.d (P.updateText r) (P.updatePlaces r) := by
  refine .lift_bind fun ent hent => .lift_bind fun sourced hsourced => .lift_bind fun _ _ => ?_
  refine .lift_bind fun _ _ => (setTexts_writes _).bind fun sets l₁ hl₁ => ?_
  refine (versionAssignment_writes _).bind fun version l₂ hl₂ => ?_
  refine (updatedAssignment_writes _).bind fun updated l₃ hl₃ => ?_
  refine auditAssignment_writes.bind fun op l₄ hl₄ => ?_
  refine (writeWhere_writes _ _).bind fun where_ l₅ hl₅ => ?_
  refine (mapM_writes fun o _ => optimisticCondition_writes o).bind fun optimistic l₆ hl₆ => ?_
  refine (Build.table_adds ent).bind ?_
  rintro table _ ⟨htable, rfl⟩
  rw [← List.map_eq_flatMap] at hl₆
  have hset := ((hl₁.concat hl₂).concat hl₃).concat hl₄
  refine .pure ⟨_, ?_, ((hset.concat hl₅).concat hl₆).of_eq ?_ ?_⟩
  · exact ok_bind.mpr ⟨ent, hent, ok_bind.mpr ⟨sourced, hsourced, rfl⟩⟩
  · simp [htable]
  · simp

/-- The values of a DELETE statement, or of the update that hides the row. -/
def deletePlaces (P : Planner) (r : Request) : Except Failure (List Place) := do
  let ent ← P.entity r.query.entity
  let where_ := wherePlaces P.d (placedPlaces P.d r.query.joins) r.query.where_
  pure (if ent.softDelete = "" then where_ else hostClock P.d ++ auditPlaces ent ++ where_)

theorem deleteText_writes (r : Request) : WritesThe P.d (P.deleteText r) (P.deletePlaces r) := by
  refine .lift_bind fun ent hent => .lift_bind fun _ _ => ?_
  have hplaces : P.deletePlaces r = .ok (if ent.softDelete = "" then
      wherePlaces P.d (placedPlaces P.d r.query.joins) r.query.where_ else hostClock P.d ++
      auditPlaces ent ++ wherePlaces P.d (placedPlaces P.d r.query.joins) r.query.where_) :=
    ok_bind.mpr ⟨ent, hent, rfl⟩
  dsimp only
  split
  · rename_i hsoft
    rw [if_pos hsoft] at hplaces
    refine (Build.table_adds ent).bind ?_
    rintro table _ ⟨htable, rfl⟩
    refine (writeWhere_writes _ _).bind fun where_ l hl => .pure ⟨_, hplaces, hl.of_eq ?_ ?_⟩
    · simp [htable]
    · simp
  · rename_i hsoft
    rw [if_neg hsoft] at hplaces
    refine .lift_bind fun col _ => (clock_writes col).bind fun value l₁ hl₁ => ?_
    refine auditAssignment_writes.bind fun op l₂ hl₂ => ?_
    refine (writeWhere_writes _ _).bind fun where_ l₃ hl₃ => (Build.table_adds ent).bind ?_
    rintro table _ ⟨htable, rfl⟩
    refine .pure ⟨_, hplaces, ((hl₁.concat hl₂).concat hl₃).of_eq ?_ ?_⟩
    · simp [htable]
    · simp

/-- The values of the update that brings a row back. -/
def restorePlaces (P : Planner) (r : Request) : Except Failure (List Place) := do
  let ent ← P.entity r.query.entity
  let parts ← restoreKey ent r
  let sourced ← addBlindIndexAssignments ent parts.set
  let set := sourced.map Prod.fst
  let version : List Place :=
    if ent.aesVersion ≠ "" && assignsAES ent set then [.config "aes_version"] else []
  pure (set.flatMap assignPlaces ++ version ++ auditPlaces ent ++
    wherePlaces P.d (placedPlaces P.d r.query.joins) (some parts.where_))

theorem restoreText_writes (r : Request) : WritesThe P.d (P.restoreText r) (P.restorePlaces r) := by
  refine .lift_bind fun ent hent => .lift_bind fun parts hparts => ?_
  refine .lift_bind fun sourced hsourced => .lift_bind fun _ _ => .lift_bind fun _ _ => ?_
  refine (setTexts_writes _).bind fun sets l₁ hl₁ => ?_
  have hrest {version : List Text} {e : List Place} {l₂ : List (BindSlot × Nat)}
      (hl₂ : Shown P.d e version.flatten l₂) : Adds Builder.binds (do
        let op ← P.auditAssignment ent
        let where_ ← P.writeWhere (rootScope r.query ent.table) "restore" (some parts.where_)
        let table ← Build.table P.d ent
        pure (.word "UPDATE" :: table ++ .word "SET" ::
          commaSep (sets ++ version ++ [P.setText ent.softDelete [.word "NULL"]] ++ op) ++
          .word "WHERE" :: andWhere where_ [P.qcol (rootScope r.query ent.table) ent.softDelete ++
            [.word "IS", .word "NOT", .word "NULL"]])) fun t l =>
        Shown P.d ((sourced.map Prod.fst).flatMap assignPlaces ++ e ++ auditPlaces ent ++
          wherePlaces P.d (placedPlaces P.d r.query.joins) (some parts.where_)) t
          (l₁ ++ (l₂ ++ l)) := by
    refine auditAssignment_writes.bind fun op l₃ hl₃ => ?_
    refine (writeWhere_writes _ _).bind fun where_ l₄ hl₄ => (Build.table_adds ent).bind ?_
    rintro table _ ⟨htable, rfl⟩
    refine .pure ((((hl₁.concat hl₂).concat hl₃).concat hl₄).of_eq ?_ ?_)
    · simp [htable, qcol]
    · simp
  have hplaces {e : List Place}
      (he : (if ent.aesVersion ≠ "" && assignsAES ent (sourced.map Prod.fst) then
        [.config "aes_version"] else []) = e) :
      P.restorePlaces r = .ok ((sourced.map Prod.fst).flatMap assignPlaces ++ e ++ auditPlaces ent ++
        wherePlaces P.d (placedPlaces P.d r.query.joins) (some parts.where_)) := by
    subst he
    exact ok_bind.mpr ⟨ent, hent, ok_bind.mpr ⟨parts, hparts, ok_bind.mpr ⟨sourced, hsourced, rfl⟩⟩⟩
  dsimp only
  split
  · rename_i hversion
    refine .lift_bind fun col _ => (Build.config_writes _ _).bind fun value l hl => ?_
    have hl' : Shown P.d [.config "aes_version"] [P.setText ent.aesVersion value].flatten l :=
      hl.of_eq (by simp) rfl
    exact (hrest hl').mono fun t l h => ⟨_, hplaces (if_pos hversion), h⟩
  · rename_i hversion
    exact (hrest (shown_nil rfl)).mono fun t l h => ⟨_, hplaces (if_neg hversion), h⟩

theorem restartIdentityText_writes (r : Request) : Writes P.d (P.restartIdentityText r) [] := by
  refine .lift_bind fun ent _ => ?_
  dsimp only
  split
  · exact .error fun _ _ h => by cases h
  · refine (Build.table_adds ent).bind ?_
    rintro table _ ⟨htable, rfl⟩
    refine .pure (shown_nil ?_)
    cases P.d <;> simp [Dialect.restartIdentity, literal]

/-- The values that an insert writes besides the assignments. -/
def managedPlaces (d : Dialect) (ent : Entity) (set : List Assignment) : List Place :=
  (if ent.aesVersion ≠ "" && !assigned set ent.aesVersion then [.config "aes_version"] else []) ++
  auditPlaces ent ++
  (if d.hostNow then (ent.fields.filter fun f => f.defaultNow && !assigned set f.name).map
    fun _ => .now else [])

theorem mapM_append_writes {α : Type} {d : Dialect} {f : α → Build Text} {xs ys : List α}
    {e e' : List Place} (hx : Adds Builder.binds (xs.mapM f) fun ts l => Shown d e ts.flatten l)
    (hy : Adds Builder.binds (ys.mapM f) fun ts l => Shown d e' ts.flatten l) :
    Adds Builder.binds ((xs ++ ys).mapM f) fun ts l => Shown d (e ++ e') ts.flatten l := by
  rw [List.mapM_append]
  refine hx.bind fun ts l hl => hy.bind fun ts' l' hl' => .pure ?_
  exact (hl.concat hl').of_eq (by simp) (by simp)

theorem managed_writes (set : List Assignment) :
    Adds Builder.binds ((P.managedInsertColumns ent set).mapM Prod.snd) fun ts l =>
      Shown P.d (managedPlaces P.d ent set) ts.flatten l := by
  have hone {name : String} {x : Build Text} {e : List Place} (hx : Writes P.d x e) :
      Adds Builder.binds ([(name, x)].mapM Prod.snd) fun ts l => Shown P.d e ts.flatten l := by
    rw [List.mapM_cons, List.mapM_nil]
    exact hx.bind fun t l hl => .pure (hl.same (by simp))
  refine mapM_append_writes (mapM_append_writes ?_ ?_) ?_
  · split
    · exact hone (.lift_bind fun col _ => Build.config_writes _ _)
    · exact .pure (shown_nil rfl)
  · by_cases haudit : ent.auditColumn = ""
    · simp only [auditPlaces, haudit, ne_eq, not_true_eq_false, if_true, if_false]
      exact .pure (shown_nil rfl)
    · simp only [auditPlaces, haudit, ne_eq, not_false_eq_true, if_true, if_false]
      exact hone audit_writes
  · split
    · rw [List.mapM_map, List.map_eq_flatMap]
      exact mapM_writes fun f _ => Build.now_writes f.precision
    · exact .pure (shown_nil rfl)

/-- The values of one more row: each assignment takes the parameter of its source. -/
def rowPlaces (sourced : List (Assignment × Nat)) (row : List Int) : List Place :=
  sourced.flatMap fun x => row.toArray[x.2]?.toList.map .param

theorem insertRow_writes (sourced : List (Assignment × Nat)) (row : List Int) :
    Adds Builder.binds (P.insertRow ent sourced row) fun ts l =>
      Shown P.d (rowPlaces sourced row) ts.flatten l := by
  refine mapM_writes fun x _ => .lift_bind fun col _ => .lift_bind fun i hi => ?_
  rw [present_some hi]
  exact renderAssign_writes col ⟨x.1.column, some i, false, none, none⟩

/-- The values of the update on a duplicate key. -/
def duplicatePlaces (ent : Entity) (input : List Assignment) : Except Failure (List Place) := do
  let duplicate ← addBlindIndexAssignments ent input
  let set := duplicate.map Prod.fst
  pure (set.flatMap assignPlaces ++ versionPlaces ent set ++ auditPlaces ent)

theorem onDuplicate_writes (set input : List Assignment) :
    WritesThe P.d (P.onDuplicate ent set input) (duplicatePlaces ent input) := by
  refine .lift_bind fun duplicate hduplicate => .lift_bind fun _ _ => ?_
  refine (setTexts_writes _).bind fun sets l₁ hl₁ => ?_
  refine (versionAssignment_writes _).bind fun version l₂ hl₂ => ?_
  refine auditAssignment_writes.bind fun op l₃ hl₃ => .lift_bind fun conflict _ => ?_
  refine .pure ⟨_, ok_bind.mpr ⟨duplicate, hduplicate, rfl⟩,
    ((hl₁.concat hl₂).concat hl₃).of_eq ?_ ?_⟩
  · simp
  · simp

/-- The values of an INSERT statement after its first row: the other rows, or the update. -/
def insertRest (P : Planner) (ent : Entity) (sourced : List (Assignment × Nat)) (r : Request) :
    Except Failure (List Place) :=
  if r.rows ≠ [] then pure (r.rows.flatMap fun row => rowPlaces sourced row ++
    managedPlaces P.d ent (sourced.map Prod.fst))
  else if r.onDuplicate = [] then pure [] else duplicatePlaces ent r.onDuplicate

/-- The values of an INSERT statement. -/
def insertPlaces (P : Planner) (r : Request) : Except Failure (List Place) := do
  let ent ← P.entity r.query.entity
  let sourced ← addBlindIndexAssignments ent r.set
  let set := sourced.map Prod.fst
  let rest ← P.insertRest ent sourced r
  pure (set.flatMap assignPlaces ++ managedPlaces P.d ent set ++ rest)

theorem rows_writes (sourced : List (Assignment × Nat)) (set : List Assignment)
    (rows : List (List Int)) :
    Adds Builder.binds (rows.mapM fun row => do
      let vals ← P.insertRow ent sourced row
      let more ← (P.managedInsertColumns ent set).mapM Prod.snd
      pure ([.comma, .paren (commaSep (vals ++ more))] : Text)) fun ts l =>
      Shown P.d (rows.flatMap fun row => rowPlaces sourced row ++ managedPlaces P.d ent set)
        ts.flatten l := by
  refine mapM_writes fun row _ => (insertRow_writes sourced row).bind fun vals l hl => ?_
  refine (managed_writes set).bind fun more l' hl' => .pure ((hl.concat hl').of_eq ?_ ?_)
  · simp
  · simp

theorem insertText_writes (r : Request) : WritesThe P.d (P.insertText r) (P.insertPlaces r) := by
  refine .lift_bind fun ent hent => .lift_bind fun sourced hsourced => ?_
  refine .lift_bind fun _ _ => .lift_bind fun _ _ => ?_
  dsimp only
  split
  · exact .error fun _ _ h => by cases h
  have hvals : Adds Builder.binds ((sourced.map Prod.fst).mapM fun a => do
      let col ← columnIn ent a.column
      if col.identity && !r.load then
        throw (.orm .irInvalid s!"cannot set identity column {a.column}")
      P.renderAssign ent col a : Build (List Text)) fun ts l =>
      Shown P.d ((sourced.map Prod.fst).flatMap assignPlaces) ts.flatten l := by
    refine mapM_writes fun a _ => .lift_bind fun col _ => ?_
    dsimp only
    split
    · exact .error fun _ _ h => by cases h
    · exact renderAssign_writes col a
  refine hvals.bind fun vals l₁ hl₁ => (managed_writes _).bind fun more l₂ hl₂ => ?_
  refine (Build.table_adds ent).bind ?_
  rintro table _ ⟨htable, rfl⟩
  have hplaces {rest : List Place} (hrest : P.insertRest ent sourced r = .ok rest) :
      P.insertPlaces r = .ok ((sourced.map Prod.fst).flatMap assignPlaces ++
        managedPlaces P.d ent (sourced.map Prod.fst) ++ rest) :=
    ok_bind.mpr ⟨ent, hent, ok_bind.mpr ⟨sourced, hsourced, ok_bind.mpr ⟨rest, hrest, rfl⟩⟩⟩
  -- the text up to the first row stands for the values of the assignments
  generalize hsql : Tok.word "INSERT INTO" :: table ++ [.paren (commaSep (((sourced.map
    Prod.fst).map Assignment.column ++ (P.managedInsertColumns ent (sourced.map
      Prod.fst)).map Prod.fst).map fun c => ([.ident (P.d.quote c)] : Text))), .word "VALUES",
    .paren (commaSep (vals ++ more))] = sql
  have hhead : Shown P.d _ sql _ := (hl₁.concat hl₂).of_eq (by
    rw [← hsql]
    simp [htable, Function.comp_def]) rfl
  split
  · rename_i hrows
    refine (rows_writes sourced _ r.rows).bind fun rows l₃ hl₃ => .pure ⟨_, hplaces (if_pos hrows),
      (hhead.concat hl₃).of_eq rfl ?_⟩
    simp
  · rename_i hrows
    have hend {duplicate : Text} {e : List Place} {l₃ : List (BindSlot × Nat)}
        (he : P.insertRest ent sourced r = .ok e) (hl₃ : Shown P.d e duplicate l₃)
        (returning : Text) (hret : bindsOf returning = []) : Adds (ε := Failure) Builder.binds
        (pure (sql ++ duplicate ++ returning)) fun t l => ∃ places,
          P.insertPlaces r = .ok places ∧
          Shown P.d places t (l₁ ++ (l₂ ++ ([] ++ (l₃ ++ l)))) := by
      refine .pure ⟨_, hplaces he, (hhead.concat hl₃).of_eq ?_ ?_⟩
      · simp [hret]
      · simp
    have hreturning {duplicate : Text} {e : List Place} {l₃ : List (BindSlot × Nat)}
        (he : P.insertRest ent sourced r = .ok e) (hl₃ : Shown P.d e duplicate l₃) :
        Adds Builder.binds ((do
          let returning ← if P.d.insertReturningId && ent.identity ≠ "" then
              pure [.word "RETURNING", .ident (P.d.quote ent.identity)]
            else if P.assigns && allocatedKey ent then do
              let pk ← present ent.primaryKey.head? "the primary key"
              pure [.word "RETURNING", .ident (P.d.quote pk)]
            else pure []
          pure (sql ++ duplicate ++ returning)) : Build Text) fun t l => ∃ places,
            P.insertPlaces r = .ok places ∧
            Shown P.d places t (l₁ ++ (l₂ ++ ([] ++ (l₃ ++ l)))) := by
      dsimp only
      split
      · exact hend he hl₃ _ (by simp)
      · split
        · exact .lift_bind fun pk _ => hend he hl₃ _ (by simp)
        · exact hend he hl₃ _ rfl
    have hrest : P.insertRest ent sourced r = if r.onDuplicate = [] then pure []
        else duplicatePlaces ent r.onDuplicate := if_neg hrows
    split
    · rename_i hdup
      exact hreturning (hrest.trans (if_pos hdup)) (shown_nil rfl)
    · rename_i hdup
      refine (onDuplicate_writes _ _).bind fun duplicate l₃ hl₃ => ?_
      obtain ⟨e, he, hl₃⟩ := hl₃
      exact hreturning ((hrest.trans (if_neg hdup)).trans he) hl₃

end Write

/-- The values of the statement of a write request. -/
def writePlaces (P : Planner) (r : Request) : Except Failure (List Place) :=
  match r.kind with
  | .insert => P.insertPlaces r
  | .update => P.updatePlaces r
  | .delete => P.deletePlaces r
  | .restore => P.restorePlaces r
  | _ => pure []

end Planner

section Plan
variable {P : Planner} {r : Request}

/-- The SELECT statements of a read request: its own and one for each relation. -/
inductive StatementOf (r : Request) : Query → Kind → Option RelationContext → Prop where
  | own (h : r.kind ≠ .paginate) : StatementOf r r.query r.kind none
  | page (h : r.kind = .paginate) : StatementOf r r.query .all none
  | count (h : r.kind = .paginate) : StatementOf r r.query .count none
  | relation {q : Query} {rel : Relation} (hq : StepQuery r.query q) (hr : rel ∈ q.relations)
    (step : Nat) : StatementOf r rel.query .all
      (some ⟨step, rel.keys.map KeyPair.left, rel.keys.map KeyPair.right, rel.kind⟩)

/-- What the statements of a read keep: each one that is added and each assembly that is set. -/
structure StepsKeep (P : Planner) (r : Request) (I : List PlanStep → Prop) : Prop where
  add : ∀ {q : Query} {kind : Kind} (agg : String) (rc : Option (RelationContext × Assemble)),
    StatementOf r q kind (rc.map Prod.fst) → Holds I (P.addSelect q kind agg rc) fun _ => True
  set : ∀ (id : Nat) (asm : Assemble), Holds I (setAssemble id asm) fun _ => True

namespace StepsKeep
variable {I : List PlanStep → Prop}

mutual
theorem relationSteps (hI : StepsKeep P r I) :
    ∀ (q : Query) {s : Scope} {stepId : Nat} {asm : Assemble}, StepQuery r.query q →
      Holds I (P.relationSteps s stepId asm q) fun _ => True
  | .mk _ _ _ _ joins relations, _, _, _, hq =>
    (hI.relationChildren relations hq fun _ hr => hr).bind fun _ _ =>
      hI.joinRelationSteps joins fun _ hj => .join hq hj
theorem relationChildren (hI : StepsKeep P r I) :
    ∀ (relations : List Relation) {q : Query} {s : Scope} {stepId : Nat} {asm : Assemble},
      StepQuery r.query q → (∀ rel ∈ relations, rel ∈ q.relations) →
      Holds I (P.relationChildren s stepId asm relations) fun _ => True
  | [], _, _, _, _, _, _ => .pure trivial
  | .mk rel q kind keys :: relations, _, _, stepId, asm, hq, h => by
    have hrel := h _ List.mem_cons_self
    refine (hI.add "" (some (_, asm)) (.relation hq hrel stepId)).bind fun x _ => ?_
    refine (hI.relationSteps q (.relation hq hrel)).bind fun assembled _ => ?_
    refine (hI.set _ _).bind fun _ _ => ?_
    refine Holds.bind (A := fun _ => True) (.lift fun _ _ => trivial) fun child _ => ?_
    exact (hI.relationChildren relations hq fun rel hr => h rel (List.mem_cons_of_mem _ hr)).bind
      fun _ _ => .pure trivial
theorem joinRelationSteps (hI : StepsKeep P r I) : ∀ (joins : List Join) {s : Scope} {stepId : Nat}
    {asm : Assemble}, (∀ j ∈ joins, StepQuery r.query j.query) →
    Holds I (P.joinRelationSteps s stepId asm joins) fun _ => True
  | [], _, _, _, _ => .pure trivial
  | .mk rel kind q left right :: joins, s, stepId, asm, h => by
    refine (Holds.mapM (R := fun _ _ => True) fun ch _ => ?_).bind fun children _ =>
      hI.joinRelationSteps joins fun j hj => h j (List.mem_cons_of_mem _ hj)
    split
    · refine Holds.bind (A := fun _ => True) (.lift fun _ _ => trivial) fun inner _ => ?_
      exact (hI.relationSteps q (h _ List.mem_cons_self)).bind fun _ _ => .pure trivial
    · exact .pure trivial
end

/-- What each SELECT statement keeps as it is added, a whole read keeps. -/
theorem readSteps (hI : StepsKeep P r I) : Holds I (P.readSteps r) fun _ => True := by
  have happend (id : Nat) (asm : Assemble) :
      Holds I (P.appendRelations r.query id asm) fun _ => True :=
    (hI.relationSteps r.query .root).bind fun _ _ => hI.set _ _
  unfold Planner.readSteps
  split
  · rename_i hk
    refine (hI.add "" none (.page hk)).bind fun x _ => ?_
    exact (hI.add "" none (.count hk)).bind fun _ _ => happend _ _
  · rename_i hk
    refine (hI.add r.agg none (.own hk)).bind fun x _ => ?_
    dsimp only
    split
    · exact happend _ _
    · exact .pure trivial

end StepsKeep

/-- The placeholders of the step are those of its bind slots, in their order. -/
def PlanStep.Numbered (d : Dialect) (st : PlanStep) : Prop :=
  bindsOf st.sql = (List.range st.bindSlots.length).flatMap fun i => d.placeholder (i + 1)

/-- The slots of the step stand for the values that the request places in its statement. -/
def PlanStep.Bound (P : Planner) (r : Request) (st : PlanStep) : Prop :=
  if r.kind.isWrite then P.writePlaces r = .ok (st.bindSlots.map BindSlot.place)
  else ∃ q kind rc, StatementOf r q kind rc ∧
    st.parent.map StepParent.step = rc.map RelationContext.parentStep ∧
    st.bindSlots.map BindSlot.place = statementPlaces P.d q kind rc

theorem Shown.numbered {d : Dialect} {e : List Place} {t : Text} {new : List BindSlot}
    (h : Shown d e t (new.zipIdx 0)) :
    bindsOf t = (List.range new.length).flatMap (fun i => d.placeholder (i + 1)) ∧
      new.map BindSlot.place = e := by
  refine ⟨?_, ?_⟩
  · rw [h.1, List.range_eq_range', ← List.zipIdx_map_snd, List.flatMap_map]
  · have hfst := congrArg (List.map BindSlot.place) (List.zipIdx_map_fst 0 new)
    rw [List.map_map] at hfst
    rw [← h.2, ← hfst]
    rfl

theorem stepParent_step {q : Query} {rc : Option (RelationContext × Assemble)}
    {parent : Option StepParent} (h : Planner.stepParent q rc = .ok parent) :
    parent.map StepParent.step = (rc.map Prod.fst).map RelationContext.parentStep := by
  cases rc with
  | none =>
    cases h
    rfl
  | some x =>
    obtain ⟨keys, _, h⟩ := ok_bind.mp h
    split at h
    · cases h
      rfl
    · obtain ⟨index, _, h⟩ := ok_bind.mp h
      cases h
      rfl

theorem readSteps_bound (hk : r.kind.isWrite = false) :
    Holds (fun steps => ∀ st ∈ steps, st.Numbered P.d ∧ st.Bound P r) (P.readSteps r)
      fun _ => True := by
  refine StepsKeep.readSteps ⟨fun {q kind} agg rc hof => ?_, fun id asm => ?_⟩
  · intro steps x steps' hr hs
    obtain ⟨⟨⟨sql, asm⟩, b⟩, htext, hr⟩ := ok_bind.mp hr
    obtain ⟨new, hnew, hshown⟩ := Planner.selectText_writes q kind agg _ _ _ _ htext
    obtain rfl : b.binds = new := hnew
    obtain ⟨hnum, hplaces⟩ := hshown.numbered
    obtain ⟨parent, hparent, hr⟩ := ok_bind.mp hr
    obtain ⟨rfl, rfl⟩ : _ = x ∧ _ = steps' := by simpa [pure, Except.pure] using hr
    refine ⟨fun st hst => ?_, trivial⟩
    rcases List.mem_append.mp hst with hst | hst
    · exact hs st hst
    · obtain rfl := List.mem_singleton.mp hst
      refine ⟨hnum, ?_⟩
      rw [PlanStep.Bound, if_neg (by simp [hk])]
      exact ⟨q, kind, _, hof, stepParent_step hparent, hplaces⟩
  · intro steps x steps' hr hs
    obtain rfl : _ = steps' := by simpa [setAssemble, pure, Except.pure] using hr
    refine ⟨fun st hst => ?_, trivial⟩
    obtain ⟨st', hst', rfl⟩ := List.mem_map.mp hst
    have hst' := hs st' hst'
    split
    · exact hst'
    · exact hst'

theorem writeStep_bound {text : Build Text} {steps : List PlanStep} {u : PUnit}
    (hk : r.kind.isWrite = true) (hw : Planner.WritesThe P.d text (P.writePlaces r))
    (h : Planner.writeStep text [] = .ok (u, steps)) :
    ∀ st ∈ steps, st.Numbered P.d ∧ st.Bound P r := by
  obtain ⟨⟨sql, b⟩, htext, h⟩ := ok_bind.mp h
  obtain ⟨new, hnew, places, hplaces, hshown⟩ := hw _ _ _ htext
  obtain rfl : b.binds = new := hnew
  obtain ⟨hnum, hslots⟩ := hshown.numbered
  obtain rfl : _ = steps := by simpa [pure, Except.pure] using h
  intro st hst
  obtain rfl := List.mem_singleton.mp hst
  refine ⟨hnum, ?_⟩
  rw [PlanStep.Bound, if_pos hk, hplaces, ← hslots]

/-- In every statement of a plan the placeholders, read from left to right outside quotes, are
those of its bind slots, and each slot stands for the value that the request places there. -/
theorem compile_places {plan : Planner.Plan} (hc : P.compile r = .ok plan) :
    ∀ st ∈ plan.steps, st.Numbered P.d ∧ st.Bound P r := by
  obtain ⟨⟨u, steps⟩, hsteps, hc⟩ := ok_bind.mp hc
  obtain rfl : _ = plan := by simpa [pure, Except.pure] using hc
  cases hw : r.kind.isWrite with
  | false =>
    rw [requestSteps_read hw] at hsteps
    exact (readSteps_bound hw _ _ _ hsteps fun _ h => by cases h).1
  | true =>
    have hall {text : Build Text} (hsteps : Planner.writeStep text [] = .ok (u, steps))
        (hw' : Planner.WritesThe P.d text (P.writePlaces r)) := writeStep_bound hw hw' hsteps
    unfold Planner.requestSteps at hsteps
    unfold Planner.writePlaces at hall
    cases hkind : r.kind with
    | insert =>
      rw [hkind] at hsteps hall
      exact hall hsteps (Planner.insertText_writes r)
    | update =>
      rw [hkind] at hsteps hall
      exact hall hsteps (Planner.updateText_writes r)
    | delete =>
      rw [hkind] at hsteps hall
      exact hall hsteps (Planner.deleteText_writes r)
    | restore =>
      rw [hkind] at hsteps hall
      exact hall hsteps (Planner.restoreText_writes r)
    | restartIdentity =>
      rw [hkind] at hsteps hall
      exact hall hsteps ((Planner.restartIdentityText_writes r).mono fun _ _ h => ⟨_, rfl, h⟩)
    | _ => simp [hkind, Kind.isWrite] at hw

end Plan

end Orm.Engine
