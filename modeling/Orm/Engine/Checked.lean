import Orm.Engine.Joined

/-! The parts of a query that the validator accepts have been checked themselves. -/
namespace Orm.Engine

open Orm.Logic

/-- The validator accepts the query at some place of a request. -/
def Checked (V : Validator) (q : Query) : Prop :=
  ∃ s isJoin isRelation isRoot u, V.query s isJoin isRelation isRoot q = .ok u

variable {V : Validator} {q : Query}

theorem knownColumn_ok {ent : Entity} {place name : String} {col : Field}
    (h : knownColumn ent place name = .ok col) : fieldOf ent name = some col := by
  unfold knownColumn at h
  cases hfound : fieldOf ent name with
  | none => simp [hfound, fail] at h
  | some found =>
    simp only [hfound] at h
    cases h
    rfl

theorem queryJoins_checked (joins : List Join) {s : Scope} {ent : Entity} {seen : List String}
    {u : PUnit} (h : V.queryJoins s ent seen joins = .ok u) :
    ∀ j ∈ joins, Checked V j.query := by
  induction joins generalizing seen u with
  | nil =>
    intro j hj
    cases hj
  | cons j joins ih =>
    obtain ⟨rel, kind, jq, left, right⟩ := j
    obtain ⟨_, _, h⟩ := ok_bind.mp h
    obtain ⟨u', hq, h⟩ := ok_bind.mp h
    intro j hj
    rcases List.mem_cons.mp hj with rfl | hj
    · exact ⟨_, _, _, _, u', hq⟩
    · exact ih h j hj

theorem queryRelations_checked (relations : List Relation) {ent : Entity} {entity : String}
    {seen : List String} {u : PUnit} (h : V.queryRelations ent entity seen relations = .ok u) :
    ∀ r ∈ relations, Checked V r.query := by
  induction relations generalizing seen u with
  | nil =>
    intro r hr
    cases hr
  | cons r relations ih =>
    obtain ⟨rel, rq, kind, keys⟩ := r
    obtain ⟨_, _, h⟩ := ok_bind.mp h
    obtain ⟨u', hq, h⟩ := ok_bind.mp h
    intro r hr
    rcases List.mem_cons.mp hr with rfl | hr
    · exact ⟨_, _, _, _, u', hq⟩
    · exact ih h r hr

/-- The checks of the parts of a query. -/
theorem Checked.checks (h : Checked V q) :
    ∃ ent s u, entityOf V.m q.entity = some ent ∧
      V.projection s ent q.entity q.columns = .ok u ∧
      V.queryJoins s ent [] q.joins = .ok u ∧ V.queryRelations ent q.entity [] q.relations = .ok u := by
  obtain ⟨s, isJoin, isRelation, isRoot, u, h⟩ := h
  obtain ⟨head, columns, on, where_, joins, relations⟩ := q
  obtain ⟨ent, hent, h⟩ := ok_bind.mp h
  obtain ⟨u', hproj, h⟩ := ok_bind.mp h
  obtain ⟨_, hjoins, h⟩ := ok_bind.mp h
  obtain ⟨_, _, h⟩ := ok_bind.mp h
  obtain ⟨_, _, h⟩ := ok_bind.mp h
  obtain ⟨_, _, h⟩ := ok_bind.mp h
  obtain ⟨_, _, h⟩ := ok_bind.mp h
  obtain ⟨_, _, h⟩ := ok_bind.mp h
  obtain ⟨_, _, h⟩ := ok_bind.mp h
  obtain ⟨_, _, h⟩ := ok_bind.mp h
  obtain ⟨_, hrelations, h⟩ := ok_bind.mp h
  have hent' : entityOf V.m head.entity = some ent := by
    unfold Validator.entity at hent
    cases hfound : entityOf V.m head.entity with
    | none => simp [hfound, fail] at hent
    | some found =>
      simp only [hfound] at hent
      cases hent
      rfl
  exact ⟨ent, s, u', hent', hproj, hjoins, hrelations⟩

/-- What the check of a query has checked: its entity, projection, joins and relations. -/
theorem Checked.parts (h : Checked V q) :
    ∃ ent s u, entityOf V.m q.entity = some ent ∧
      V.projection s ent q.entity q.columns = .ok u ∧
      (∀ j ∈ q.joins, Checked V j.query) ∧ ∀ r ∈ q.relations, Checked V r.query := by
  obtain ⟨ent, s, u, hent, hproj, hjoins, hrelations⟩ := h.checks
  exact ⟨ent, s, u, hent, hproj, queryJoins_checked _ hjoins, queryRelations_checked _ hrelations⟩

theorem validate_checked {m : RuntimeModel} {r : Request} {u : PUnit}
    (h : validate m r = .ok u) : Checked ⟨m, r.nParams⟩ r.query := by
  obtain ⟨_, _, h⟩ := ok_bind.mp h
  obtain ⟨u', hq, _⟩ := ok_bind.mp h
  exact ⟨_, _, _, _, u', hq⟩

theorem columnFunction_types {ent : Entity} {col : Field} {f : Func} {u : PUnit}
    (h : V.columnFunction ent col f = .ok u) :
    ∃ types, columnFunctionTypes f.name = some types ∧ col.type ∈ types := by
  unfold Validator.columnFunction at h
  cases htypes : columnFunctionTypes f.name with
  | none => simp [htypes, fail] at h
  | some types =>
    simp only [htypes] at h
    obtain ⟨_, hrefuse, _⟩ := ok_bind.mp h
    exact ⟨types, rfl, not_not.mp (ok_refuse hrefuse)⟩

/-- A column function stands on a column of a type that it takes. -/
theorem projection_fn_types {s : Scope} {ent : Entity} {entity : String} {c : Projection}
    {u : PUnit} (h : V.projection s ent entity (some c) = .ok u) :
    ∀ x ∈ c.fn, ∃ col types, fieldOf ent x.2.column = some col ∧
      columnFunctionTypes x.2.fn.name = some types ∧ col.type ∈ types := by
  intro x hx
  obtain ⟨mode, add, remove, fn, sub⟩ := c
  obtain ⟨_, hhead, _⟩ := ok_bind.mp h
  unfold Validator.projectionHead at hhead
  dsimp only at hhead
  split at hhead
  · obtain ⟨_, hfail, _⟩ := ok_bind.mp hhead
    cases hfail
  · obtain ⟨_, _, hhead⟩ := ok_bind.mp hhead
    have hfn := ok_forM hhead x hx
    obtain ⟨_, _, hfn⟩ := ok_bind.mp hfn
    obtain ⟨col, hcol, hfn⟩ := ok_bind.mp hfn
    obtain ⟨types, htypes, htype⟩ := columnFunction_types hfn
    exact ⟨col, types, knownColumn_ok hcol, htypes, htype⟩

end Orm.Engine
