import Orm.Engine.Assigned

/-! The columns of a write statement: no column twice in its column list or in a SET list, and as
many values in each row as there are columns. -/
namespace Orm.Engine

open Orm.Logic

/-- What the setting and column rules of a document say of an entity. -/
structure Entity.Ruled (ent : Entity) : Prop where
  names : (ent.fields.map Field.name).Nodup
  settings : ∀ c ∈ [ent.aesVersion, ent.updated, ent.softDelete, ent.auditColumn, ent.identity],
    c ≠ "" → ∃ f ∈ ent.fields, f.name = c
  aes : ∀ f ∈ ent.fields, f.stages.contains .aes = true → ent.aesVersion ≠ "" ∧
    (f.type = .bytes ∨ f.type = .varchar ∨ f.type = .text)
  version : ∀ f ∈ ent.fields, f.name = ent.aesVersion → f.type = .i16 ∨ f.type = .i32 ∨ f.type = .i64
  clock : ∀ f ∈ ent.fields,
    f.name = ent.updated ∨ f.name = ent.softDelete ∨ f.defaultNow = true → f.type = .datetime
  index : ∀ f ∈ ent.fields, ∀ g ∈ ent.fields, f.blindIndex = g.name →
    g.type = .varchar ∧ g.stages.contains .aes = false
  identity : ∀ f ∈ ent.fields, f.name = ent.identity → f.type = .i64 ∧ f.identity = true
  soft : ∀ f ∈ ent.fields, f.name = ent.softDelete → f.nullable = true
  audit : ∀ f ∈ ent.fields, f.name = ent.auditColumn → f.nullable = false

/-- No column is named twice, and each row has a value for each column. -/
structure Assigned.ColumnsOnce (x : Assigned) : Prop where
  columns : x.columns.Nodup
  rows : ∀ row ∈ x.rows, row.all.length = x.columns.length
  sets : ∀ sets ∈ x.sets, (sets.all.map Written.column).Nodup

/-- The assignments name no column twice, and the columns that the writer adds to them are apart:
the audit column is no blind index of theirs, not the key version that is written with them and
none of `others`, and neither is the key version. -/
structure SetApart (ent : Entity) (input : List Assignment) (version : Prop)
    (others : List String) : Prop where
  own : (input.map Assignment.column).Nodup
  key : version → ent.aesVersion ∉ others
  index : ent.auditColumn ≠ "" → ¬ DerivedIndex ent input ent.auditColumn
  version : ent.auditColumn ≠ "" → version → ent.auditColumn ≠ ent.aesVersion
  others : ent.auditColumn ≠ "" → ent.auditColumn ∉ others

section Rules
variable {ent : Entity} {input : List Assignment} {c : String}

/-- A setting names a column of the entity. -/
theorem Entity.Ruled.field (h : ent.Ruled) (hc : c ∈ [ent.aesVersion, ent.updated, ent.softDelete,
    ent.auditColumn, ent.identity]) (hne : c ≠ "") : ∃ f ∈ ent.fields, f.name = c :=
  h.settings c hc hne

/-- A derived blind index is a varchar column, so no clock column and no identity. -/
theorem Entity.Ruled.index_apart (h : ent.Ruled) (hc : DerivedIndex ent input c) :
    c ≠ ent.updated ∧ c ≠ ent.softDelete ∧ c ≠ ent.identity := by
  obtain ⟨hne, -, a, -, f, hf, rfl⟩ := hc
  have htype {d : String} (hd : d ∈ [ent.aesVersion, ent.updated, ent.softDelete,
      ent.auditColumn, ent.identity]) (heq : f.blindIndex = d) :
      ∃ g ∈ ent.fields, g.name = d ∧ g.type = .varchar := by
    obtain ⟨g, hg, hname⟩ := h.field hd (heq ▸ hne)
    exact ⟨g, hg, hname, (h.index f (fieldOf_mem hf) g hg (heq.trans hname.symm)).1⟩
  refine ⟨fun heq => ?_, fun heq => ?_, fun heq => ?_⟩
  · obtain ⟨g, hg, hname, hvarchar⟩ := htype (by simp) heq
    cases hvarchar.symm.trans (h.clock g hg (.inl hname))
  · obtain ⟨g, hg, hname, hvarchar⟩ := htype (by simp) heq
    cases hvarchar.symm.trans (h.clock g hg (.inr (.inl hname)))
  · obtain ⟨g, hg, hname, hvarchar⟩ := htype (by simp) heq
    cases hvarchar.symm.trans (h.identity g hg hname).1

/-- The columns of the assignments with their derived indexes are distinct when those of the
assignments are. -/
theorem sourced_nodup {sourced : List (Assignment × Nat)}
    (h : addBlindIndexAssignments ent input = .ok sourced) :
    ((sourced.map Prod.fst).map Assignment.column).Nodup ↔
      (input.map Assignment.column).Nodup := by
  obtain ⟨derived, rfl, hd⟩ := addBlindIndexAssignments_derived h
  rw [List.map_append, List.map_append, map_fst_mapIdx, List.nodup_append', List.map_map]
  refine ⟨fun h => h.1, fun hown => ⟨hown, hd.nodup, ?_⟩⟩
  intro c hc hc'
  obtain ⟨x, hx, rfl⟩ := List.mem_map.mp hc'
  obtain ⟨k, a, f, -, -, -, -, hnot, -, heq⟩ := hd.source x hx
  simp only [Function.comp_apply, heq] at hc
  exact hnot hc

/-- The derived indexes are no AES columns, so they take no key version along. -/
theorem sourced_assignsAES (hr : ent.Ruled) {sourced : List (Assignment × Nat)}
    (h : addBlindIndexAssignments ent input = .ok sourced) :
    assignsAES ent (sourced.map Prod.fst) = assignsAES ent input := by
  rw [Bool.eq_iff_iff, assignsAES_iff, assignsAES_iff]
  simp only [addBlindIndexAssignments_columns h]
  constructor
  · rintro ⟨d, f, hd | ⟨-, -, a, -, g, hg, rfl⟩, hf, haes⟩
    · exact ⟨d, f, hd, hf, haes⟩
    · have hplain := (hr.index g (fieldOf_mem hg) f (fieldOf_mem hf) (fieldOf_name hf).symm).2
      rw [hplain] at haes
      cases haes
  · rintro ⟨d, f, hd, hf, haes⟩
    exact ⟨d, f, .inl hd, hf, haes⟩

end Rules

section Lists
variable {P : Planner} {ent : Entity} {input set values : List Assignment}
  {stamp refresh : List String} {sourced : List (Assignment × Nat)}

theorem Only.columns {c : Prop} [Decidable c] {A : Written → Prop} {ws : List Written}
    {column : String} (h : Only c A ws) (hA : ∀ w, A w → w.column = column) :
    ws.map Written.column = if c then [column] else [] := by
  by_cases hc : c
  · obtain ⟨w, rfl, hw⟩ := h.1 hc
    rw [if_pos hc, List.map_singleton, hA w hw]
  · rw [if_neg hc, h.2 hc]
    rfl

theorem gives_columns {ws : List Written} (h : List.Forall₂ (Gives P ent) values ws) :
    ws.map Written.column = values.map Assignment.column := by
  induction h with
  | nil => rfl
  | cons head _ ih => rw [List.map_cons, List.map_cons, head.column, ih]

/-- The assignments of an entity that take its key version along. -/
theorem takesVersion_iff (hr : ent.Ruled)
    (h : addBlindIndexAssignments ent input = .ok sourced) :
    TakesVersion ent (sourced.map Prod.fst) ↔ assignsAES ent input = true := by
  rw [TakesVersion, sourced_assignsAES hr h]
  refine ⟨fun h => h.2, fun h => ⟨?_, h⟩⟩
  obtain ⟨_, f, -, hf, haes⟩ := assignsAES_iff.mp h
  exact (hr.aes f (fieldOf_mem hf) haes).1

/-- The version column is none of those that a checked set assigns or derives. -/
theorem version_not_sourced {complete : Bool}
    (h : validateAESAssignments ent (sourced.map Prod.fst) complete = .ok ⟨⟩)
    (hne : ent.aesVersion ≠ "") :
    ent.aesVersion ∉ (sourced.map Prod.fst).map Assignment.column := by
  intro hmem
  obtain ⟨a, ha, heq⟩ := List.mem_map.mp hmem
  have hfree := checked_version h hne
  rw [assigned, List.any_eq_false] at hfree
  exact hfree a ha (by simpa using heq)

theorem nodup_append_ite {c : Prop} [Decidable c] {name : String} {names : List String} :
    (names ++ if c then [name] else []).Nodup ↔ names.Nodup ∧ (c → name ∉ names) := by
  by_cases hc : c
  · rw [if_pos hc, List.nodup_append', List.disjoint_singleton]
    exact ⟨fun h => ⟨h.1, fun _ => h.2.2⟩, fun h => ⟨h.1, List.nodup_singleton _, h.2 hc⟩⟩
  · rw [if_neg hc, List.append_nil]
    exact ⟨fun h => ⟨h, fun h' => absurd h' hc⟩, fun h => h.1⟩

/-- A list of the assigned columns, others, the key version and the audit column names no column
twice exactly when these are apart. -/
theorem written_nodup_iff {columns others : List String} {version : Prop} [Decidable version]
    {complete : Bool} (h : addBlindIndexAssignments ent input = .ok sourced)
    (hchecked : validateAESAssignments ent (sourced.map Prod.fst) complete = .ok ⟨⟩)
    (haudit : ent.auditColumn ≠ "" → ent.auditColumn ∉ input.map Assignment.column)
    (hkey : version → ent.aesVersion ≠ "") (hothers : others.Nodup)
    (hapart : ((sourced.map Prod.fst).map Assignment.column).Disjoint others)
    (hperm : columns.Perm ((sourced.map Prod.fst).map Assignment.column ++ others ++
      (if version then [ent.aesVersion] else []) ++
      (if ent.auditColumn ≠ "" then [ent.auditColumn] else []))) :
    columns.Nodup ↔ SetApart ent input version others := by
  have hown (c : String) := addBlindIndexAssignments_columns h c
  have hfirst : (((sourced.map Prod.fst).map Assignment.column) ++ others).Nodup ↔
      (input.map Assignment.column).Nodup := by
    rw [List.nodup_append', sourced_nodup h]
    exact ⟨fun h => h.1, fun h => ⟨h, hothers, hapart⟩⟩
  rw [hperm.nodup_iff, nodup_append_ite, nodup_append_ite, hfirst]
  simp only [List.mem_append, hown, not_or]
  constructor
  · rintro ⟨⟨hset, hver⟩, haud⟩
    refine ⟨hset, fun hv => (hver hv).2, fun hne => (haud hne).1.1.2,
      fun hne hv heq => (haud hne).2 ?_, fun hne => (haud hne).1.2⟩
    rw [if_pos hv]
    exact List.mem_singleton.mpr heq
  · intro hset
    refine ⟨⟨hset.own, fun hv => ⟨?_, hset.key hv⟩⟩, fun hne => ⟨⟨⟨haudit hne, hset.index hne⟩,
      hset.others hne⟩, fun hmem => ?_⟩⟩
    · rw [← not_or, ← hown]
      exact version_not_sourced hchecked (hkey hv)
    · split at hmem
      · rename_i hv
        exact hset.version hne hv (List.mem_singleton.mp hmem)
      · cases hmem

/-- The columns of a SET list, in order. -/
theorem SetParts.Of.columns {x : SetParts} (hx : x.Of P ent input stamp refresh sourced)
    (hr : ent.Ruled) : x.all.map Written.column =
      (sourced.map Prod.fst).map Assignment.column ++
      (if assignsAES ent input = true then [ent.aesVersion] else []) ++ stamp ++
      (if ent.auditColumn ≠ "" then [ent.auditColumn] else []) ++ refresh := by
  classical
  simp only [SetParts.all, List.map_append, gives_columns hx.own, hx.stamp, hx.refresh.1,
    hx.version.columns fun w hw => hw.1, hx.audit.columns fun w hw => hw.1,
    takesVersion_iff hr hx.derives]

theorem SetParts.Of.nodup_iff {x : SetParts} (hx : x.Of P ent input stamp refresh sourced)
    (hr : ent.Ruled) (haudit : ent.auditColumn ≠ "" → ent.auditColumn ∉ input.map Assignment.column)
    (hadded : ∀ c ∈ stamp ++ refresh, c ∉ input.map Assignment.column ∧ ¬ DerivedIndex ent input c)
    (hnodup : (stamp ++ refresh).Nodup) : (x.all.map Written.column).Nodup ↔
      SetApart ent input (assignsAES ent input = true) (stamp ++ refresh) := by
  have htakes := takesVersion_iff hr hx.derives
  refine written_nodup_iff hx.derives hx.checked haudit (fun h => (htakes.mpr h).1) hnodup
    (fun c hc hc' => ?_) ?_
  · rw [addBlindIndexAssignments_columns hx.derives] at hc
    exact hc.elim (hadded c hc').1 (hadded c hc').2
  · rw [hx.columns hr, List.perm_iff_count]
    intro c
    simp only [List.count_append]
    omega

/-- The columns of an INSERT. -/
theorem managed_columns (set : List Assignment) : (P.managedInsertColumns ent set).map Prod.fst =
    (if ent.aesVersion ≠ "" ∧ assigned set ent.aesVersion = false then [ent.aesVersion] else []) ++
    (if ent.auditColumn ≠ "" then [ent.auditColumn] else []) ++ stampColumns P.d ent set := by
  have hmap {c : Prop} [Decidable c] (name : String) (x : Build Sql.Text) :
      (if c then [(name, x)] else []).map Prod.fst = if c then [name] else [] := by
    split <;> rfl
  unfold Planner.managedInsertColumns stampColumns
  rw [List.map_append, List.map_append, hmap, hmap]
  congr 1
  · simp
  · split
    · rw [List.map_map]
      rfl
    · rfl

/-- Each row of an INSERT has a value for each of its columns, in their order. -/
theorem RowParts.Of.columns {x : RowParts} (hx : x.Of P ent set values)
    (hcols : values.map Assignment.column = set.map Assignment.column) :
    x.all.map Written.column = set.map Assignment.column ++
      (P.managedInsertColumns ent set).map Prod.fst := by
  rw [managed_columns, RowParts.all, List.map_append, List.map_append, List.map_append,
    gives_columns hx.own, hcols, hx.version.columns fun w hw => hw.1,
    hx.audit.columns fun w hw => hw.1, hx.stamp]
  simp only [List.append_assoc]

theorem rowSet_columns (sourced : List (Assignment × Nat)) (row : List Int) :
    (rowSet sourced row).map Assignment.column = (sourced.map Prod.fst).map Assignment.column := by
  rw [rowSet, List.map_map, List.map_map]
  rfl

/-- The default-now columns that an insert writes are distinct and not assigned. -/
theorem stampColumns_apart (hr : ent.Ruled) (d : Dialect) (set : List Assignment) :
    (stampColumns d ent set).Nodup ∧
      ∀ c ∈ stampColumns d ent set, c ∉ set.map Assignment.column := by
  unfold stampColumns
  split
  · refine ⟨hr.names.sublist (List.filter_sublist.map _), fun c hc hmem => ?_⟩
    obtain ⟨f, hf, rfl⟩ := List.mem_map.mp hc
    obtain ⟨-, hfree⟩ := List.mem_filter.mp hf
    obtain ⟨a, ha, heq⟩ := List.mem_map.mp hmem
    have hassigned : assigned set f.name = true :=
      List.any_eq_true.mpr ⟨a, ha, by simpa using heq⟩
    simp [hassigned] at hfree
  · exact ⟨List.nodup_nil, fun c hc => absurd hc List.not_mem_nil⟩

/-- The column list of an INSERT names no column twice exactly when its assignments do not and the
audit column is apart from the others. -/
theorem insertColumns_nodup_iff (hr : ent.Ruled)
    (h : addBlindIndexAssignments ent input = .ok sourced)
    (hchecked : validateAESAssignments ent (sourced.map Prod.fst) false = .ok ⟨⟩)
    (haudit : ent.auditColumn ≠ "" → ent.auditColumn ∉ input.map Assignment.column) :
    ((sourced.map Prod.fst).map Assignment.column ++
      (P.managedInsertColumns ent (sourced.map Prod.fst)).map Prod.fst).Nodup ↔
    SetApart ent input (ent.aesVersion ≠ "") (stampColumns P.d ent (sourced.map Prod.fst)) := by
  have hstamp := stampColumns_apart hr P.d (sourced.map Prod.fst)
  refine written_nodup_iff h hchecked haudit id hstamp.1 (fun c hc hc' => hstamp.2 c hc' hc) ?_
  have hversion : (ent.aesVersion ≠ "" ∧ assigned (sourced.map Prod.fst) ent.aesVersion = false) ↔
      ent.aesVersion ≠ "" := ⟨fun h => h.1, fun h => ⟨h, checked_version hchecked h⟩⟩
  rw [managed_columns, List.perm_iff_count]
  intro c
  simp only [List.count_append, hversion]
  omega

end Lists

section Validated
variable {V : Validator} {ent : Entity} {r : Request}

theorem assign_apart {entity : String} {a : Assignment} {u : PUnit}
    (h : V.assign ent entity a = .ok u) : a.column ≠ ent.auditColumn := by
  obtain ⟨_, _, h⟩ := ok_bind.mp h
  obtain ⟨_, _, h⟩ := ok_bind.mp h
  obtain ⟨_, _, h⟩ := ok_bind.mp h
  obtain ⟨_, hrefuse, _⟩ := ok_bind.mp h
  exact ok_refuse hrefuse

theorem validateSet_apart {u : PUnit} (h : validateSet V ent r = .ok u) :
    ∀ a ∈ r.set, a.column ≠ ent.auditColumn := by
  intro a ha
  obtain ⟨_, _, h⟩ := ok_bind.mp h
  obtain ⟨_, hassign, _⟩ := ok_bind.mp (ok_forM h a ha)
  exact assign_apart hassign

theorem validateOnDuplicate_apart {u : PUnit} (h : validateOnDuplicate V ent r = .ok u) :
    ∀ a ∈ r.onDuplicate, a.column ≠ ent.auditColumn ∧
      ∃ f, fieldOf ent a.column = some f ∧ f.identity = false := by
  intro a ha
  obtain ⟨_, _, h⟩ := ok_bind.mp h
  obtain ⟨_, hall, _⟩ := ok_bind.mp h
  obtain ⟨_, hassign, hrest⟩ := ok_bind.mp (ok_forM hall a ha)
  obtain ⟨f, hf, hrefuse⟩ := ok_bind.mp hrest
  have hfixed := ok_refuse hrefuse
  exact ⟨assign_apart hassign, f, knownColumn_ok hf, by simpa using (not_or.mp hfixed).2⟩

/-- What a validated write says of its assignments. -/
theorem validate_write {m : RuntimeModel} (hv : validate m r = .ok ⟨⟩)
    (hent : entityOf m r.query.entity = some ent) :
    validateWrite ⟨m, r.nParams⟩ ent r = .ok ⟨⟩ := by
  obtain ⟨_, _, h⟩ := ok_bind.mp hv
  obtain ⟨_, _, h⟩ := ok_bind.mp h
  obtain ⟨_, _, h⟩ := ok_bind.mp h
  obtain ⟨ent', hent', h⟩ := ok_bind.mp h
  obtain ⟨_, _, h⟩ := ok_bind.mp h
  obtain ⟨_, hwrite, _⟩ := ok_bind.mp h
  have heq : ent' = ent := by
    unfold Validator.entity at hent'
    dsimp only at hent'
    rw [hent] at hent'
    cases hent'
    rfl
  rw [← heq]
  exact hwrite

theorem validateWrite_parts {u : PUnit} (h : validateWrite V ent r = .ok u) :
    (r.kind = .insert ∨ r.kind = .update ∨ r.kind = .restore → validateSet V ent r = .ok ⟨⟩) ∧
      (r.onDuplicate ≠ [] → validateOnDuplicate V ent r = .ok ⟨⟩) := by
  have hlast {u : PUnit} (h : (if r.onDuplicate ≠ [] then validateOnDuplicate V ent r
      else pure ⟨⟩) = .ok u) (hne : r.onDuplicate ≠ []) : validateOnDuplicate V ent r = .ok ⟨⟩ := by
    rwa [if_pos hne] at h
  have hrows {u : PUnit} (h : (if r.rows ≠ [] then do
        let _ ← validateRows V r
        if r.onDuplicate ≠ [] then validateOnDuplicate V ent r else pure ⟨⟩
      else if r.onDuplicate ≠ [] then validateOnDuplicate V ent r else pure ⟨⟩) = .ok u) :
      r.onDuplicate ≠ [] → validateOnDuplicate V ent r = .ok ⟨⟩ := by
    split at h
    · obtain ⟨_, _, h⟩ := ok_bind.mp h
      exact hlast h
    · exact hlast h
  unfold validateWrite at h
  dsimp only at h
  split at h
  · obtain ⟨_, hset, h⟩ := ok_bind.mp h
    exact ⟨fun _ => hset, hrows h⟩
  · rename_i hk
    exact ⟨fun h' => absurd h' hk, hrows h⟩

/-- A validated write assigns no audit column, and no identity on a duplicate key. -/
theorem validate_apart {m : RuntimeModel} (hv : validate m r = .ok ⟨⟩)
    (hk : r.kind = .insert ∨ r.kind = .update ∨ r.kind = .restore)
    (hent : entityOf m r.query.entity = some ent) :
    (∀ a ∈ r.set, a.column ≠ ent.auditColumn) ∧
      ∀ a ∈ r.onDuplicate, a.column ≠ ent.auditColumn ∧
        ∃ f, fieldOf ent a.column = some f ∧ f.identity = false := by
  obtain ⟨hset, hdup⟩ := validateWrite_parts (validate_write hv hent)
  refine ⟨validateSet_apart (hset hk), fun a ha => ?_⟩
  exact validateOnDuplicate_apart (hdup (List.ne_nil_of_mem ha)) a ha

end Validated

section Main
variable {P : Planner} {ent : Entity} {r : Request}

/-- The columns that the statement of a request writes are apart: those of its INSERT, and those of
each SET list. -/
inductive ColumnsApart (P : Planner) (ent : Entity) (r : Request) : Prop where
  | insert (hkind : r.kind = .insert)
    (hset : SetApart ent r.set (ent.aesVersion ≠ "") (stampColumns P.d ent r.set))
    (hdup : r.rows = [] → r.onDuplicate ≠ [] → SetApart ent r.onDuplicate
      (assignsAES ent r.onDuplicate = true) (refreshColumns P.d ent))
  | update (hkind : r.kind = .update)
    (hset : SetApart ent r.set (assignsAES ent r.set = true) (updatedColumns ent r.set))
  | restore (hkind : r.kind = .restore)
    (hset : ∀ parts, restoreKey ent r = .ok parts →
      SetApart ent parts.set (assignsAES ent parts.set = true) [ent.softDelete])

theorem assigned_iff {set : List Assignment} {c : String} :
    assigned set c = true ↔ c ∈ set.map Assignment.column := by
  simp [assigned, List.any_eq_true, List.mem_map]

/-- A derived blind index does not default to now, so it takes no clock column away. -/
theorem stampColumns_sourced (hr : ent.Ruled) {sourced : List (Assignment × Nat)}
    (h : addBlindIndexAssignments ent r.set = .ok sourced) (d : Dialect) :
    stampColumns d ent (sourced.map Prod.fst) = stampColumns d ent r.set := by
  unfold stampColumns
  split
  · congr 1
    refine List.filter_congr fun f hf => ?_
    by_cases hnow : f.defaultNow = true
    · have hsame : assigned (sourced.map Prod.fst) f.name = assigned r.set f.name := by
        rw [Bool.eq_iff_iff, assigned_iff, assigned_iff, addBlindIndexAssignments_columns h]
        refine ⟨fun hc => hc.elim id ?_, .inl⟩
        rintro ⟨-, -, a, -, g, hg, heq⟩
        have hvarchar := (hr.index g (fieldOf_mem hg) f hf heq).1
        cases hvarchar.symm.trans (hr.clock f hf (.inr (.inr hnow)))
      rw [hsame]
    · simp [hnow]
  · rfl

theorem insert_nodup_iff (hr : ent.Ruled) {sourced : List (Assignment × Nat)}
    (h : addBlindIndexAssignments ent r.set = .ok sourced)
    (hchecked : validateAESAssignments ent (sourced.map Prod.fst) false = .ok ⟨⟩)
    (hset : ∀ a ∈ r.set, a.column ≠ ent.auditColumn) :
    ((sourced.map Prod.fst).map Assignment.column ++
      (P.managedInsertColumns ent (sourced.map Prod.fst)).map Prod.fst).Nodup ↔
    SetApart ent r.set (ent.aesVersion ≠ "") (stampColumns P.d ent r.set) := by
  rw [← stampColumns_sourced hr h]
  refine insertColumns_nodup_iff hr h hchecked fun _ hmem => ?_
  obtain ⟨a, ha, heq⟩ := List.mem_map.mp hmem
  exact hset a ha heq

theorem exists_of_forall₂ {α β : Type} {R : α → β → Prop} {as : List α} {bs : List β} {b : β}
    (h : List.Forall₂ R as bs) (hb : b ∈ bs) : ∃ a ∈ as, R a b := by
  induction h with
  | nil => cases hb
  | cons head _ ih =>
    rcases List.mem_cons.mp hb with rfl | hb
    · exact ⟨_, List.mem_cons_self, head⟩
    · obtain ⟨a, ha, hab⟩ := ih hb
      exact ⟨a, List.mem_cons_of_mem _ ha, hab⟩

/-- Every row of an INSERT has as many values as the INSERT has columns. -/
theorem rows_length {sourced : List (Assignment × Nat)} {rows : List (List Int)}
    {ws : List RowParts}
    (h : List.Forall₂ (fun values row => RowParts.Of row P ent (sourced.map Prod.fst) values)
      (sourced.map Prod.fst :: rows.map (rowSet sourced)) ws) :
    ∀ row ∈ ws, row.all.length = ((sourced.map Prod.fst).map Assignment.column ++
      (P.managedInsertColumns ent (sourced.map Prod.fst)).map Prod.fst).length := by
  have hrow {values : List Assignment} {row : RowParts}
      (hrow : row.Of P ent (sourced.map Prod.fst) values)
      (hcols : values.map Assignment.column = (sourced.map Prod.fst).map Assignment.column) :
      row.all.length = ((sourced.map Prod.fst).map Assignment.column ++
        (P.managedInsertColumns ent (sourced.map Prod.fst)).map Prod.fst).length := by
    rw [← hrow.columns hcols, List.length_map]
  intro row hmem
  obtain ⟨values, hvalues, hof⟩ := exists_of_forall₂ h hmem
  rcases List.mem_cons.mp hvalues with rfl | hvalues
  · exact hrow hof rfl
  · obtain ⟨ints, -, rfl⟩ := List.mem_map.mp hvalues
    exact hrow hof (rowSet_columns sourced ints)

/-- What a statement assigns has each column once exactly when the columns of the request are
apart. -/
theorem Assigned.Of.once_iff {x : Assigned} (hx : x.Of P ent r) (hr : ent.Ruled)
    (hset : ∀ a ∈ r.set, a.column ≠ ent.auditColumn)
    (hdup : ∀ a ∈ r.onDuplicate, a.column ≠ ent.auditColumn ∧
      ∃ f, fieldOf ent a.column = some f ∧ f.identity = false) :
    x.ColumnsOnce ↔ ColumnsApart P ent r := by
  have hnot {input : List Assignment} {c : String} (h : ∀ a ∈ input, a.column ≠ c) :
      c ∉ input.map Assignment.column := by
    intro hmem
    obtain ⟨a, ha, heq⟩ := List.mem_map.mp hmem
    exact h a ha heq
  cases hx with
  | @insert sourced rows hkind hsourced hchecked hrows hupsert =>
    have hcols := insert_nodup_iff (P := P) hr hsourced hchecked hset
    constructor
    · intro h
      exact .insert hkind (hcols.mp h.columns) fun hnil hne =>
        hupsert.elim (absurd hnil) (absurd · hne)
    · intro h
      cases h with
      | insert _ hapart _ =>
        exact ⟨hcols.mpr hapart, rows_length hrows, fun _ hs => absurd hs (by simp)⟩
      | update hk _ => cases hkind.symm.trans hk
      | restore hk _ => cases hkind.symm.trans hk
  | @upsert sourced duplicate row sets hkind hsourced hchecked hrow hrows hne hsets =>
    have hcols := insert_nodup_iff (P := P) hr hsourced hchecked hset
    have hfree : ∀ c ∈ [] ++ refreshColumns P.d ent,
        c ∉ r.onDuplicate.map Assignment.column ∧ ¬ DerivedIndex ent r.onDuplicate c := by
      intro c hc
      rw [List.nil_append, refreshColumns] at hc
      split at hc
      · rename_i hident
        obtain rfl := List.mem_singleton.mp hc
        refine ⟨hnot fun a ha heq => ?_, fun hderived => (hr.index_apart hderived).2.2 rfl⟩
        obtain ⟨-, f, hf, hplain⟩ := hdup a ha
        have hflag := (hr.identity f (fieldOf_mem hf) ((fieldOf_name hf).trans heq)).2
        rw [hplain] at hflag
        cases hflag
      · cases hc
    have hlist := hsets.nodup_iff hr (fun _ => hnot fun a ha => (hdup a ha).1) hfree (by
      rw [List.nil_append, refreshColumns]
      split <;> simp)
    constructor
    · intro h
      exact .insert hkind (hcols.mp h.columns) fun _ _ => hlist.mp (h.sets _ rfl)
    · intro h
      cases h with
      | insert _ hapart hdup' =>
        refine ⟨hcols.mpr hapart, ?_, ?_⟩
        · have hone : List.Forall₂ (fun values row => RowParts.Of row P ent (sourced.map Prod.fst)
              values) (sourced.map Prod.fst :: [].map (rowSet sourced)) [row] := .cons hrow .nil
          exact rows_length hone
        · intro s hs
          cases hs
          exact hlist.mpr (hdup' hrows hne)
      | update hk _ => cases hkind.symm.trans hk
      | restore hk _ => cases hkind.symm.trans hk
  | @update sourced sets hkind hsets =>
    have hfree : ∀ c ∈ updatedColumns ent r.set ++ [],
        c ∉ r.set.map Assignment.column ∧ ¬ DerivedIndex ent r.set c := by
      intro c hc
      rw [List.append_nil, updatedColumns] at hc
      split at hc
      · rename_i hupdated
        obtain rfl := List.mem_singleton.mp hc
        refine ⟨fun hmem => ?_, fun hderived => (hr.index_apart hderived).1 rfl⟩
        rw [assigned_iff.mpr hmem] at hupdated
        cases hupdated.2
      · cases hc
    have hlist := hsets.nodup_iff hr (fun _ => hnot hset) hfree (by
      rw [List.append_nil, updatedColumns]
      split <;> simp)
    rw [List.append_nil] at hlist
    constructor
    · intro h
      exact .update hkind (hlist.mp (h.sets _ rfl))
    · intro h
      cases h with
      | insert hk _ _ => cases hkind.symm.trans hk
      | update _ hapart =>
        refine ⟨List.nodup_nil, fun _ h => absurd h List.not_mem_nil, fun s hs => ?_⟩
        cases hs
        exact hlist.mpr hapart
      | restore hk _ => cases hkind.symm.trans hk
  | @restore parts sourced sets hkind hparts hsets =>
    have hof := restoreKey_of hparts
    have hsub : ∀ a ∈ parts.set, a ∈ r.set := by
      intro a ha
      rw [hof.set] at ha
      exact (List.mem_filter.mp ha).1
    have hlist := hsets.nodup_iff hr (fun _ => hnot fun a ha => hset a (hsub a ha)) (by
      intro c hc
      obtain rfl := List.mem_singleton.mp hc
      exact ⟨hnot fun a ha => (hof.fixed a ha).2, fun hd => (hr.index_apart hd).2.1 rfl⟩)
      (List.nodup_singleton _)
    constructor
    · intro h
      refine .restore hkind fun parts' hparts' => ?_
      obtain rfl : parts = parts' := Except.ok.inj (hparts.symm.trans hparts')
      exact hlist.mp (h.sets _ rfl)
    · intro h
      cases h with
      | insert hk _ _ => cases hkind.symm.trans hk
      | update hk _ => cases hkind.symm.trans hk
      | restore _ hapart =>
        refine ⟨List.nodup_nil, fun _ h => absurd h List.not_mem_nil, fun s hs => ?_⟩
        cases hs
        exact hlist.mpr (hapart parts hparts)

end Main

section Example

/-- Updates the title of a book by the given assignments. -/
def titleUpdate (set : List Assignment) : Request := { bookUpdate .and with set }

theorem bookEntity_ruled : bookEntity.Ruled where
  names := by decide
  settings := by decide
  aes := by decide
  version := by decide
  clock := by decide
  index := by decide
  identity := by decide
  soft := by decide
  audit := by decide

end Example

end Orm.Engine
