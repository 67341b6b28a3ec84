import Orm.Engine.Places
import Orm.Engine.Write
import Orm.Engine.Joined

/-! In every statement of a plan the placeholders are those of its bind slots, each once and in
order, and the slots stand for the values that the request places there. -/
namespace Orm.Engine

open Orm.Sql (Tok Text bindsOf)
open Orm.Sql.Text (commaSep andSep joined)
open Orm.Logic

section Values
variable (d : Dialect)

mutual
/-- The values of a group, item by item; `placed` are those of the joins that it places. -/
def groupPlaces (placed : String → List Place) : Group → List Place
  | .mk _ _ items => itemsPlaces placed items
  termination_by structural x => x
def itemsPlaces (placed : String → List Place) : List Item → List Place
  | [] => []
  | it :: items => itemPlaces placed it ++ itemsPlaces placed items
  termination_by structural x => x
def itemPlaces (placed : String → List Place) : Item → List Place
  | .mk (some pred) _ _ => predPlaces pred
  | .mk none (some g) _ => groupPlaces placed g
  | .mk none none (some j) => placed j.join
  | .mk none none none => []
  termination_by structural x => x
def predPlaces : Predicate → List Place
  | .mk test none => Planner.predicatePlaces d test none
  | .mk test (some sub) => Planner.predicatePlaces d test (some (subPlaces sub))
  termination_by structural x => x
def wherePlaces (placed : String → List Place) : Option Group → List Place
  | none => []
  | some g => groupPlaces placed g
  termination_by structural x => x
/-- The values of a subquery: those of its joins, of its where group and of the groups of its
joins. -/
def subPlaces : Subquery → List Place
  | .mk (.mk _ _ _ where_ joins _) _ _ =>
    joinPlaces joins ++ wherePlaces (placedPlaces joins) where_ ++
      joinWherePlaces (placedIn where_) joins
  termination_by structural x => x
/-- The values of the ON clauses of joins and of their joins. -/
def joinPlaces : List Join → List Place
  | [] => []
  | .mk _ _ (.mk _ _ on _ joins _) _ _ :: rest =>
    wherePlaces (placedPlaces joins) on ++ joinPlaces joins ++ joinPlaces rest
  termination_by structural x => x
/-- The values of the where groups of joins and of their joins, unless a group places them. -/
def joinWherePlaces (placed : List String) : List Join → List Place
  | [] => []
  | .mk rel _ (.mk _ _ _ where_ joins _) _ _ :: rest =>
    (if rel ∈ placed then [] else wherePlaces (placedPlaces joins) where_) ++
      joinWherePlaces (placedIn where_) joins ++ joinWherePlaces placed rest
  termination_by structural x => x
/-- The values of the where group of the join that an item places. -/
def placedPlaces : List Join → String → List Place
  | [], _ => []
  | .mk name _ (.mk _ _ _ where_ joins _) _ _ :: rest, rel =>
    if (joinNamed rest rel).isSome || name ≠ rel then placedPlaces rest rel
    else wherePlaces (placedPlaces joins) where_
  termination_by structural x => x
end

/-- The values of the columns of a projection: only its subqueries hold any. -/
def columnsPlaces : Option Projection → List Place
  | none => []
  | some c => (sortedEntries NamedSub.name c.sub).flatMap fun x => subPlaces d x.sub

mutual
/-- The values of a select list with those of its joins. -/
def selectPlaces : Query → List Place
  | .mk _ columns _ _ joins _ => columnsPlaces d columns ++ selectJoinsPlaces joins
  termination_by structural x => x
def selectJoinsPlaces : List Join → List Place
  | [] => []
  | .mk _ _ q _ _ :: joins => selectPlaces q ++ selectJoinsPlaces joins
  termination_by structural x => x
end

/-- The values of the page of a statement. -/
def pagePlaces (q : Query) (kind : Kind) (isRelation : Bool) : List Place :=
  if kind = .one ∧ !isRelation then []
  else match q.head.limit with
    | some (.params offset count) =>
      if d = .mysql then [.param offset, .param count] else [.param count, .param offset]
    | _ => []

/-- The values of the select list of a statement kind. -/
def headPlaces (q : Query) : Kind → List Place
  | .count | .sum | .avg | .groupCount => []
  | _ => selectPlaces d q

/-- The values of the WHERE clause of a statement. -/
def conditionPlaces (q : Query) (rc : Option RelationContext) : List Place :=
  (rc.toList.map fun rc => .parent rc.parentStep) ++
    wherePlaces d (placedPlaces d q.joins) q.where_ ++
    joinWherePlaces d (placedIn q.where_) q.joins

/-- The values of the page of a statement, which a cut for each parent does not have. -/
def endPlaces (q : Query) (kind : Kind) (rc : Option RelationContext) : List Place :=
  if !Planner.returnsRows kind then []
  else match rc with
    | none => pagePlaces d q kind false
    | some _ => if 0 < Planner.perParent q rc then [] else pagePlaces d q kind true

/-- The values of a SELECT statement: its select list, joins, conditions and page. -/
def statementPlaces (q : Query) (kind : Kind) (rc : Option RelationContext) : List Place :=
  headPlaces d q kind ++ joinPlaces d q.joins ++ conditionPlaces d q rc ++ endPlaces d q kind rc

end Values

namespace Planner
variable {P : Planner}

@[simp] theorem bindsOf_groupText (top not : Bool) (out : Text) :
    bindsOf (groupText top not out) = bindsOf out := by
  cases top <;> cases not <;> simp [groupText]

@[simp] theorem bindsOf_softDelete (s : Scope) (ent : Entity) :
    (P.softDeleteConditions s ent).map bindsOf = (P.softDeleteConditions s ent).map fun _ => [] := by
  unfold softDeleteConditions
  split <;> simp

theorem whereClause_binds (ts : List Text) :
    bindsOf (whereClause ts) = (ts.map bindsOf).flatten := by
  unfold whereClause
  cases ts with
  | nil => rfl
  | cons t ts => simp

theorem forall₂_left {α β : Type} {R : α → β → Prop} {A : α → Prop} {as : List α} {bs : List β}
    (h : List.Forall₂ R as bs) (hA : ∀ a b, R a b → A a) : ∀ a ∈ as, A a := by
  induction h with
  | nil => simp
  | cons h _ ih => exact List.forall_mem_cons.mpr ⟨hA _ _ h, ih⟩

theorem orderItems_binds {s : Scope} {order : List Order} {ts : List Text}
    (h : P.orderItems s order = .ok ts) : ∀ t ∈ ts, bindsOf t = [] := by
  refine forall₂_left (ok_mapM h).flip fun t o ho => ?_
  dsimp only [flip] at ho
  split at ho
  · obtain rfl : _ = t := by simpa [pure, Except.pure] using ho
    cases P.d <;> rfl
  · have hrest {target : Text} (hnone : bindsOf target = []) (h : (do
        let ent ← P.entOf s
        let col ← columnIn ent o.column
        pure (target ++ [.word (if o.desc then "DESC" else "ASC")] ++
          if col.nullable then P.d.nullsOrder o.desc else []) : Except Failure Text) = .ok t) :
        bindsOf t = [] := by
      obtain ⟨ent, _, h⟩ := ok_bind.mp h
      obtain ⟨col, _, h⟩ := ok_bind.mp h
      obtain rfl : _ = t := by simpa [pure, Except.pure] using h
      have hnulls : bindsOf (if col.nullable then P.d.nullsOrder o.desc else []) = [] := by
        cases col.nullable <;> cases P.d <;> simp [Dialect.nullsOrder]
      simp [hnone, hnulls]
    split at ho
    · obtain ⟨target, htarget, ho⟩ := ok_bind.mp ho
      exact hrest (columnFunction_binds htarget) ho
    · exact hrest rfl ho

mutual
theorem orderParts_binds : ∀ (q : Query) {s : Scope} {ts : List Text},
    P.orderParts s q = .ok ts → ∀ t ∈ ts, bindsOf t = []
  | .mk head columns on where_ joins relations, s, ts, h => by
    obtain ⟨own, hown, h⟩ := ok_bind.mp h
    obtain ⟨nested, hnested, h⟩ := ok_bind.mp h
    obtain rfl : own ++ nested = ts := by simpa [pure, Except.pure] using h
    exact List.forall_mem_append.mpr ⟨orderItems_binds hown, joinOrderParts_binds joins hnested⟩
theorem joinOrderParts_binds : ∀ (joins : List Join) {s : Scope} {ts : List Text},
    P.joinOrderParts s joins = .ok ts → ∀ t ∈ ts, bindsOf t = []
  | [], s, ts, h => by
    obtain rfl : [] = ts := by simpa [joinOrderParts, pure, Except.pure] using h
    simp
  | .mk rel kind q left right :: joins, s, ts, h => by
    obtain ⟨own, hown, h⟩ := ok_bind.mp h
    obtain ⟨rest, hrest, h⟩ := ok_bind.mp h
    obtain rfl : own ++ rest = ts := by simpa [pure, Except.pure] using h
    exact List.forall_mem_append.mpr ⟨orderParts_binds q hown, joinOrderParts_binds joins hrest⟩
end

theorem flatten_binds {ts : List Text} (h : ∀ t ∈ ts, bindsOf t = []) :
    (ts.map bindsOf).flatten = [] := by
  simpa using h

theorem renderOrder_binds {s : Scope} {q : Query} {t : Text} (h : P.renderOrder s q = .ok t) :
    bindsOf t = [] := by
  obtain ⟨parts, hparts, h⟩ := ok_bind.mp h
  obtain rfl : _ = t := by simpa [pure, Except.pure] using h
  have hnone := flatten_binds (orderParts_binds q hparts)
  split
  · rfl
  · simp [hnone]

@[simp] theorem bindsOf_limit (offset count : Text) (h : bindsOf offset = []) (h' : bindsOf count = []) :
    bindsOf (P.d.limit offset count) = [] := by
  cases hd : P.d <;> simp [Dialect.limit, h, h']

theorem subOutput_binds {root : Scope} {column : Option String} {agg : Agg} {t : Text}
    (h : P.subOutput root column agg = .ok t) : bindsOf t = [] := by
  have haggregate (col : Text) (hcol : bindsOf col = []) : bindsOf (aggregateText col agg) = [] := by
    cases agg <;> simp [aggregateText, hcol]
  unfold subOutput at h
  split at h
  · cases h
    exact haggregate [] rfl
  · obtain ⟨column, _, h⟩ := ok_bind.mp h
    obtain rfl : _ = t := by simpa [pure, Except.pure] using h
    exact haggregate _ rfl

theorem subPage_binds {root : Scope} {agg : Agg} {t : Text} (h : P.subPage root agg = .ok t) :
    bindsOf t = [] := by
  unfold subPage at h
  split at h
  · obtain ⟨limit, hlimit, h⟩ := ok_bind.mp h
    obtain ⟨order, horder, h⟩ := ok_bind.mp h
    obtain rfl : _ = t := by simpa [pure, Except.pure] using h
    have hnone : bindsOf limit = [] := by
      unfold limitText at hlimit
      split at hlimit
      · cases hlimit
      · cases hlimit
        exact bindsOf_limit _ _ (by simp) (by simp)
    simp [renderOrder_binds horder, hnone]
  · cases h
    rfl

mutual
theorem renderGroup_writes : ∀ (g : Group) {placed : String → Build Text}
    {places : String → List Place} (s : Scope) (top : Bool),
    (∀ rel, Writes P.d (placed rel) (places rel)) →
    Writes P.d (P.renderGroup placed s top g) (groupPlaces P.d places g)
  | .mk conn not items, placed, places, s, top, hp => by
    refine (renderItems_writes items s hp).bind fun xs l hl => .pure (hl.same ?_)
    simp [Function.comp_def]
theorem renderItems_writes : ∀ (items : List Item) {placed : String → Build Text}
    {places : String → List Place} (s : Scope), (∀ rel, Writes P.d (placed rel) (places rel)) →
    Adds Builder.binds (P.renderItems placed s items) fun xs l =>
      Shown P.d (itemsPlaces P.d places items) (xs.map Prod.snd).flatten l
  | [], _, _, _, _ => .pure (shown_nil rfl)
  | it :: items, placed, places, s, hp => by
    refine (renderItem_writes it s hp).bind fun x l hl => ?_
    refine (renderItems_writes items s hp).bind fun xs l' hl' => .pure ?_
    rw [List.append_nil]
    exact hl.append hl' (by simp)
theorem renderItem_writes : ∀ (it : Item) {placed : String → Build Text}
    {places : String → List Place} (s : Scope), (∀ rel, Writes P.d (placed rel) (places rel)) →
    Adds Builder.binds (P.renderItem placed s it) fun x l =>
      Shown P.d (itemPlaces P.d places it) x.2 l
  | .mk (some pred) _ _, _, _, s, _ =>
    (renderPred_writes pred s).bind fun t l hl => .pure (hl.same rfl)
  | .mk none (some g) _, _, _, s, hp =>
    (renderGroup_writes g s false hp).bind fun t l hl => .pure (hl.same rfl)
  | .mk none none (some j), _, _, _, hp =>
    (hp j.join).bind fun t l hl => .pure (hl.same rfl)
  | .mk none none none, _, _, _, _ => .error fun _ _ h => by cases h
theorem renderPred_writes : ∀ (pred : Predicate) (s : Scope),
    Writes P.d (P.renderPred s pred) (predPlaces P.d pred)
  | .mk test none, s => renderTest_writes s test .none
  | .mk test (some sub), s => renderTest_writes s test (.some (subSelect_writes sub s))
theorem renderWhere_writes : ∀ (g : Option Group) {placed : String → Build Text}
    {places : String → List Place} (s : Scope) (top : Bool),
    (∀ rel, Writes P.d (placed rel) (places rel)) →
    Adds Builder.binds (P.renderWhere placed s top g) fun ts l =>
      Shown P.d (wherePlaces P.d places g) ts.flatten l
  | none, _, _, _, _, _ => .pure (shown_nil rfl)
  | some g, placed, places, s, top, hp => by
    unfold renderWhere
    split
    · rename_i hempty
      obtain ⟨conn, not, items⟩ := g
      obtain rfl : items = [] := List.isEmpty_iff.mp hempty
      exact .pure (shown_nil rfl)
    · exact (renderGroup_writes g s top hp).bind fun t l hl => .pure (hl.same (by simp))
theorem subSelect_writes : ∀ (sub : Subquery) (outer : Scope),
    Writes P.d (P.subSelect outer sub) (subPlaces P.d sub)
  | .mk (.mk head columns on where_ joins relations) column agg, outer => by
    refine Build.nextSub_adds.bind ?_
    rintro n _ rfl
    refine .lift_bind fun _ _ => .lift_bind fun ent _ => .lift_bind fun out hout => ?_
    refine (Build.table_adds ent).bind ?_
    rintro table _ ⟨htable, rfl⟩
    refine (renderJoins_writes joins _).bind fun joinText l₁ hl₁ => ?_
    refine (renderWhere_writes where_ _ true (placedOf_writes joins _)).bind fun own l₂ hl₂ => ?_
    refine (collectJoinWhere_writes joins _ _).bind fun nested l₃ hl₃ => ?_
    refine .lift_bind fun page hpage => .pure ?_
    have hconds := hl₂.append hl₃ (Orm.Sql.bindsOf_append _ _)
    rw [subPlaces, List.append_assoc, List.append_nil, List.nil_append]
    refine hl₁.append hconds ?_
    simp [subOutput_binds hout, htable, whereClause_binds, subPage_binds hpage]
theorem renderJoins_writes : ∀ (joins : List Join) (s : Scope),
    Writes P.d (P.renderJoins s joins) (joinPlaces P.d joins)
  | [], _ => .pure (shown_nil rfl)
  | .mk rel kind (.mk head columns on where_ joins relations) left right :: rest, s => by
    refine .lift_bind fun left _ => .lift_bind fun right _ => .lift_bind fun ent _ => ?_
    refine (Build.table_adds ent).bind ?_
    rintro table _ ⟨htable, rfl⟩
    refine (renderWhere_writes on _ true (placedOf_writes joins _)).bind fun own l₁ hl₁ => ?_
    refine (renderJoins_writes joins _).bind fun nested l₂ hl₂ => ?_
    refine (renderJoins_writes rest s).bind fun others l₃ hl₃ => .pure ?_
    have hrest := hl₂.append hl₃ (Orm.Sql.bindsOf_append _ _)
    rw [joinPlaces, List.append_assoc, List.append_nil, List.nil_append]
    refine hl₁.append hrest ?_
    have hforce : bindsOf (if head.forceIndex = "" then [] else P.d.forceIndex head.forceIndex) =
        [] := by
      split
      · rfl
      · cases P.d <;> rfl
    simp [htable, hforce]
theorem collectJoinWhere_writes : ∀ (joins : List Join) (s : Scope) (placed : List String),
    Adds Builder.binds (P.collectJoinWhere s placed joins) fun ts l =>
      Shown P.d (joinWherePlaces P.d placed joins) ts.flatten l
  | [], _, _ => .pure (shown_nil rfl)
  | .mk rel kind (.mk head columns on where_ joins relations) left right :: rest, s, placed => by
    have hown : Adds Builder.binds (if rel ∈ placed then pure []
        else P.renderWhere (P.placedOf (joinScope s
          (.mk rel kind (.mk head columns on where_ joins relations) left right)) joins)
          (joinScope s (.mk rel kind (.mk head columns on where_ joins relations) left right)) false
          where_) fun ts l => Shown P.d
            (if rel ∈ placed then [] else wherePlaces P.d (placedPlaces P.d joins) where_)
            ts.flatten l := by
      split
      · exact .pure (shown_nil rfl)
      · exact renderWhere_writes where_ _ false (placedOf_writes joins _)
    refine hown.bind fun own l₁ hl₁ => ?_
    refine (collectJoinWhere_writes joins _ _).bind fun nested l₂ hl₂ => ?_
    refine (collectJoinWhere_writes rest s placed).bind fun others l₃ hl₃ => .pure ?_
    have hrest := hl₂.append hl₃ (Orm.Sql.bindsOf_append _ _)
    rw [joinWherePlaces, List.append_assoc, List.append_nil]
    exact hl₁.append hrest (by simp)
theorem placedOf_writes : ∀ (joins : List Join) (s : Scope) (rel : String),
    Writes P.d (P.placedOf s joins rel) (placedPlaces P.d joins rel)
  | [], _, _ => .error fun _ _ h => by cases h
  | .mk name kind (.mk head columns on where_ joins relations) left right :: rest, s, rel => by
    rw [placedOf, placedPlaces]
    split
    · exact placedOf_writes rest s rel
    · exact renderPlaced_writes where_ _ rel (placedOf_writes joins _)
theorem renderPlaced_writes : ∀ (g : Option Group) {placed : String → Build Text}
    {places : String → List Place} (s : Scope) (rel : String),
    (∀ rel, Writes P.d (placed rel) (places rel)) →
    Writes P.d (P.renderPlaced placed s rel g) (wherePlaces P.d places g)
  | none, _, _, _, _, _ => .error fun _ _ h => by cases h
  | some g, _, _, s, _, hp => renderGroup_writes g s false hp
end

section Select
variable {s : Scope}

@[simp] theorem bindsOf_readColumn (t : Text) (col : Field) :
    bindsOf (P.readColumn t col) = bindsOf t := by
  unfold readColumn
  dsimp only
  split <;> simp

@[simp] theorem bindsOf_named (expr : Text) (name : String) :
    bindsOf (P.named s expr name) = bindsOf expr := by
  simp [named]

/-- The values of one projected column. -/
def columnPlaces (d : Dialect) (c : OutColumn) : List Place :=
  match c.fn, c.sub with
  | none, some sub => subPlaces d sub
  | _, _ => []

theorem selectColumn_writes (ent : Entity) (c : OutColumn) :
    Adds Builder.binds (P.selectColumn s ent c) fun x l => Shown P.d (columnPlaces P.d c) x.1 l := by
  obtain ⟨name, column, fn, sub⟩ := c
  unfold selectColumn
  dsimp only
  cases fn with
  | some fn =>
    dsimp only
    split
    · exact .error fun _ _ h => by cases h
    · exact .lift_bind fun expr hexpr => .pure (shown_nil (columnFunction_binds hexpr))
  | none =>
    cases sub with
    | some sub =>
      refine (subSelect_writes sub s).bind fun text l hl => .lift_bind fun type _ => ?_
      exact .pure (hl.same (by simp))
    | none => exact .lift_bind fun own _ => .pure (shown_nil (by simp))

theorem selectColumns_writes (ent : Entity) (cols : List OutColumn) (idx : Nat) :
    Adds Builder.binds (P.selectColumns s ent idx cols) fun sel l =>
      Shown P.d (cols.flatMap (columnPlaces P.d)) sel.parts.flatten l := by
  induction cols generalizing idx with
  | nil => exact .pure (shown_nil rfl)
  | cons c cols ih =>
    refine (selectColumn_writes ent c).bind fun x l hl => ?_
    refine (ih (idx + 1)).bind fun rest l' hl' => .pure ?_
    rw [List.append_nil]
    exact hl.append hl' (by simp)

theorem selectVersion_binds {ent : Entity} {idx : Nat} {sel sel' : Selected}
    (h : P.selectVersion s ent idx sel = .ok sel') :
    bindsOf sel'.parts.flatten = bindsOf sel.parts.flatten := by
  unfold selectVersion at h
  split at h
  · cases h
  · split at h
    · cases h
      rfl
    · cases h
      simp

theorem projection_places (ent : Entity) :
    (projection ent s).flatMap (columnPlaces P.d) = columnsPlaces P.d s.q.columns := by
  have hbase (names : List String) :
      (names.map fun x => (⟨x, x, none, none⟩ : OutColumn)).flatMap (columnPlaces P.d) = [] := by
    simp [List.flatMap_map, columnPlaces]
  unfold projection columnsPlaces
  rw [List.flatMap_append, hbase, List.nil_append]
  cases s.q.columns with
  | none => rfl
  | some c =>
    rw [List.flatMap_append]
    simp [List.flatMap_map, columnPlaces]

theorem selectOwn_writes (idx : Nat) :
    Adds Builder.binds (P.selectOwn s idx) fun x l =>
      Shown P.d (columnsPlaces P.d s.q.columns) x.1.parts.flatten l := by
  refine .lift_bind fun ent _ => (selectColumns_writes ent _ idx).bind fun sel l hl => ?_
  rw [projection_places] at hl
  dsimp only
  split
  · exact .lift_bind fun sel' h => .pure (hl.same (selectVersion_binds h))
  · rw [pure_bind]
    exact .pure (hl.same rfl)

mutual
theorem selectList_writes : ∀ (q : Query) {s : Scope} (idx : Nat), s.q = q →
    Adds Builder.binds (P.selectList s idx q) fun x l =>
      Shown P.d (selectPlaces P.d q) x.1.flatten l
  | .mk head columns on where_ joins relations, s, idx, hs => by
    refine (selectOwn_writes idx).bind fun own l hl => ?_
    refine (selectJoins_writes joins _).bind fun nested l' hl' => ?_
    refine .lift_bind fun ent _ => .lift_bind fun key _ => .pure ?_
    rw [List.append_nil]
    rw [hs] at hl
    exact hl.append hl' (by simp)
theorem selectJoins_writes : ∀ (joins : List Join) {s : Scope} (idx : Nat),
    Adds Builder.binds (P.selectJoins s idx joins) fun x l =>
      Shown P.d (selectJoinsPlaces P.d joins) x.1.flatten l
  | [], _, _ => .pure (shown_nil rfl)
  | .mk rel kind q left right :: joins, s, idx => by
    refine (selectList_writes q idx rfl).bind fun own l hl => ?_
    refine (selectJoins_writes joins _).bind fun rest l' hl' => .pure ?_
    rw [List.append_nil]
    exact hl.append hl' (by simp)
end

end Select

end Planner

end Orm.Engine
