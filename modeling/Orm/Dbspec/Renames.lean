import Orm.Dbspec.PlanText

/-! The renames of an accepted plan: every source table and column has one target name. -/
namespace Orm.Dbspec

open Orm.Engine (sortedEntries)

section Maps
variable {entries : List (String × String)} {k v : String}

theorem mapGet_mem (h : mapGet entries k = some v) : (k, v) ∈ entries := by
  obtain ⟨l₁, l₂, heq, _⟩ := List.lookup_eq_some_iff.mp h
  rw [← List.mem_reverse, heq]
  simp

theorem mapGet_eq_none : mapGet entries k = none ↔ k ∉ entries.map Prod.fst := by
  simp only [mapGet, List.lookup_eq_none_iff, List.mem_reverse, List.mem_map, not_exists, not_and,
    bne_iff_ne, ne_eq]
  exact ⟨fun h e he hk => h e he hk.symm, fun h e he hk => h e he hk.symm⟩

theorem mapGet_eq_some (hk : (entries.map Prod.fst).Nodup) (h : (k, v) ∈ entries) :
    mapGet entries k = some v := by
  cases hget : mapGet entries k with
  | none => exact absurd (List.mem_map_of_mem h) (mapGet_eq_none.mp hget)
  | some u =>
    have hmem := mapGet_mem hget
    have heq := List.inj_on_of_nodup_map hk hmem h rfl
    rw [(Prod.mk.inj heq).2]

theorem renamedOr_cases (entries : List (String × String)) (k : String) :
    (k, renamedOr entries k) ∈ entries ∨ (k ∉ entries.map Prod.fst ∧ renamedOr entries k = k) := by
  unfold renamedOr
  cases hget : mapGet entries k with
  | none => exact .inr ⟨mapGet_eq_none.mp hget, rfl⟩
  | some v => exact .inl (mapGet_mem hget)

/-- Renames to distinct new names, none of which is an old one, keep distinct names distinct. -/
theorem renamedOr_inj {names : List String} {k' : String} (hnew : (entries.map Prod.snd).Nodup)
    (hfresh : ∀ e ∈ entries, e.2 ∉ names) (hk : k ∈ names) (hk' : k' ∈ names)
    (h : renamedOr entries k = renamedOr entries k') : k = k' := by
  rcases renamedOr_cases entries k with hm | ⟨_, hsame⟩
  · rcases renamedOr_cases entries k' with hm' | ⟨_, hsame'⟩
    · rw [← h] at hm'
      exact (Prod.mk.inj (List.inj_on_of_nodup_map hnew hm hm' rfl)).1
    · exact absurd (h.trans hsame' ▸ hk') (hfresh _ hm)
  · rcases renamedOr_cases entries k' with hm' | ⟨_, hsame'⟩
    · exact absurd (h.symm.trans hsame ▸ hk) (hfresh _ hm')
    · exact hsame.symm.trans (h.trans hsame')

end Maps

section Sorted
variable {α : Type} {name : α → String} {l : List α}

theorem sortedEntries_perm (name : α → String) (l : List α) : (sortedEntries name l).Perm l :=
  List.perm_insertionSort _ l

theorem mem_sortedEntries {a : α} : a ∈ sortedEntries name l ↔ a ∈ l :=
  (sortedEntries_perm name l).mem_iff

end Sorted

/-- The tables of the source. -/
def sources (source : Option Document) : List Table := (source.map Document.tables).getD []

theorem sourceTable_mem {source : Option Document} {name : String} {t : Table}
    (h : sourceTable source name = some t) : t ∈ sources source ∧ t.name = name := by
  cases source with
  | none => cases h
  | some s => exact table_mem h

theorem sourceTable_isSome_iff {source : Option Document} {name : String} :
    (sourceTable source name).isSome ↔ name ∈ (sources source).map Table.name := by
  cases source with
  | none => simp [sourceTable, sources]
  | some s => exact table_isSome_iff

theorem mem_sourceTables {source : Option Document} {t : Table} :
    t ∈ sourceTables source ↔ t ∈ sources source := mem_sortedEntries

/-- A plan that the diff accepts, from a valid source. -/
structure Accepted (R : Renderer) (source : Option Document) (p : Plan) (d : Diff) : Prop where
  valid : ∀ s, source = some s → s.Valid R.digest
  parsed : p.Parsed R.digest
  diff : planDiff source p R = .ok d

section Inversion
variable {R : Renderer} {source : Option Document} {p : Plan} {d : Diff}

theorem planDiff_errors (h : planDiff source p R = .ok d) : planErrors source p = [] := by
  unfold planDiff at h
  split at h
  · cases h
  · split at h
    · cases h
    · next hnone => exact not_not.mp hnone

theorem planDiff_eq (h : planDiff source p R = .ok d) :
    d.created = (targetTables source p).filterMap (fun x => if x.2.isNone then some x.1 else none) ∧
    d.dropped = droppedTables source p ∧
    d.matched = (matchedTables source p).map (fun x => matchOf source p R x.1 x.2) ∧
    d.renamedTables = tableRenames source p ∧ d.renamedColumns = columnRenames source p := by
  unfold planDiff at h
  split at h
  · cases h
  · split at h
    · cases h
    · cases h
      exact ⟨rfl, rfl, rfl, rfl, rfl⟩

/-- What the absence of errors says, check by check. -/
structure Checked (source : Option Document) (p : Plan) : Prop where
  tableRenames : ∀ r ∈ p.renameTables, tableRenameError source p r = none
  dropsUsed : ∀ t ∈ p.dropTables, t ∈ (droppedTables source p).map Table.name
  dropsAllowed : ∀ t ∈ (droppedTables source p).map Table.name, t ∈ p.dropTables
  columnRenames : ∀ r ∈ p.renameColumns, columnRenameError source p r = none
  columns : ∀ x ∈ matchedTables source p,
    columnErrors p x.1 x.2 ((planRenames source p).columnsOf x.2.name) = []
  order : ∀ x ∈ matchedTables source p,
    orderErrors x.1 x.2 ((planRenames source p).columnsOf x.2.name) = []

theorem checked_of_errors (h : planErrors source p = []) : Checked source p := by
  unfold planErrors at h
  simp only [List.append_eq_nil_iff, List.map_eq_nil_iff, List.filter_eq_nil_iff,
    List.filterMap_eq_nil_iff, List.flatMap_eq_nil_iff, mem_sortedEntries] at h
  obtain ⟨⟨⟨⟨⟨htables, hused⟩, hallowed⟩, hcolumns⟩, hmatched⟩, _⟩ := h
  exact {
    tableRenames := htables
    dropsUsed := fun t ht => by simpa using hused t ht
    dropsAllowed := fun t ht => by simpa using hallowed t ht
    columnRenames := hcolumns
    columns := fun x hx => (hmatched x hx).1
    order := fun x hx => (hmatched x hx).2 }

theorem tableRename_spec {r : TableRename} (h : tableRenameError source p r = none) :
    r.old ∈ (sources source).map Table.name ∧ r.new ∉ (sources source).map Table.name ∧
      r.new ∈ p.schema.tables.map Table.name := by
  unfold tableRenameError at h
  split at h
  · cases h
  · next hold =>
    split at h
    · cases h
    · next hnew =>
      split at h
      · cases h
      · next htarget =>
        refine ⟨?_, fun hm => hnew (sourceTable_isSome_iff.mpr hm), ?_⟩
        · rw [← sourceTable_isSome_iff]
          simpa [Option.isNone_iff_eq_none, Option.isSome_iff_ne_none] using hold
        · rw [← table_isSome_iff]
          simpa [Option.isNone_iff_eq_none, Option.isSome_iff_ne_none] using htarget

end Inversion

section Tables
variable {R : Renderer} {source : Option Document} {p : Plan} {d : Diff}

/-- The table renames as a map from old to new names. -/
def tableMap (source : Option Document) (p : Plan) : List (String × String) :=
  (tableRenames source p).map fun r => (r.old, r.new)

theorem Accepted.checked (h : Accepted R source p d) : Checked source p :=
  checked_of_errors (planDiff_errors h.diff)

theorem Accepted.names_nodup (h : Accepted R source p d) :
    ((sources source).map Table.name).Nodup := by
  cases hs : source with
  | none => exact List.nodup_nil
  | some s => exact (h.valid s hs).tables

theorem Accepted.tableRenames_perm (h : Accepted R source p d) :
    (tableRenames source p).Perm p.renameTables := by
  have hall : (sortedEntries TableRename.old p.renameTables).filter
      (fun r => (tableRenameError source p r).isNone) =
      sortedEntries TableRename.old p.renameTables :=
    List.filter_eq_self.mpr fun r hr => by
      rw [h.checked.tableRenames r (mem_sortedEntries.mp hr)]
      rfl
  unfold tableRenames
  rw [hall]
  exact sortedEntries_perm _ _

theorem Accepted.mem_tableMap (h : Accepted R source p d) {old new : String} :
    (old, new) ∈ tableMap source p ↔ ⟨old, new⟩ ∈ p.renameTables := by
  unfold tableMap
  rw [List.mem_map]
  constructor
  · rintro ⟨r, hr, heq⟩
    obtain ⟨rfl, rfl⟩ := Prod.mk.inj heq
    exact h.tableRenames_perm.mem_iff.mp hr
  · exact fun hr => ⟨_, h.tableRenames_perm.mem_iff.mpr hr, rfl⟩

theorem Accepted.tableMap_news (h : Accepted R source p d) :
    ((tableMap source p).map Prod.snd).Nodup := by
  unfold tableMap
  rw [List.map_map]
  exact (h.tableRenames_perm.map TableRename.new).nodup_iff.mpr h.parsed.tables

theorem Accepted.tableMap_spec (h : Accepted R source p d) {e : String × String}
    (he : e ∈ tableMap source p) :
    e.1 ∈ (sources source).map Table.name ∧ e.2 ∉ (sources source).map Table.name ∧
      e.2 ∈ p.schema.tables.map Table.name :=
  tableRename_spec (h.checked.tableRenames _ (h.mem_tableMap.mp he))

theorem Accepted.targetName_inj (h : Accepted R source p d) {s s' : Table}
    (hs : s ∈ sources source) (hs' : s' ∈ sources source)
    (heq : targetName source p s = targetName source p s') : s = s' :=
  List.inj_on_of_nodup_map h.names_nodup hs hs'
    (renamedOr_inj h.tableMap_news (fun _ he => (h.tableMap_spec he).2.1)
      (List.mem_map_of_mem hs) (List.mem_map_of_mem hs') heq)

theorem Accepted.matchedSource_eq (h : Accepted R source p d) {s t : Table} :
    matchedSource source p t = some s ↔ s ∈ sources source ∧ targetName source p s = t.name := by
  unfold matchedSource
  constructor
  · intro hs
    have hmem := List.mem_of_getLast? hs
    simpa [mem_sourceTables] using hmem
  · rintro ⟨hs, hname⟩
    have hmem : s ∈ (sourceTables source).filter fun s => targetName source p s = t.name := by
      simpa [mem_sourceTables] using And.intro hs hname
    obtain ⟨u, hu⟩ := Option.isSome_iff_exists.mp (List.getLast?_isSome.mpr (List.ne_nil_of_mem hmem))
    have humem := List.mem_of_getLast? hu
    simp only [List.mem_filter, mem_sourceTables, decide_eq_true_eq] at humem
    rw [hu, h.targetName_inj humem.1 hs (humem.2.trans hname.symm)]

theorem mem_targetTables {x : Table × Option Table} : x ∈ targetTables source p ↔
    x.1 ∈ p.schema.tables ∧ x.2 = matchedSource source p x.1 := by
  unfold targetTables
  simp only [List.mem_map, mem_sortedEntries]
  constructor
  · rintro ⟨t, ht, rfl⟩
    exact ⟨ht, rfl⟩
  · rintro ⟨ht, heq⟩
    exact ⟨x.1, ht, by rw [← heq]⟩

theorem Accepted.mem_matchedTables (h : Accepted R source p d) {s t : Table} :
    (s, t) ∈ matchedTables source p ↔
      s ∈ sources source ∧ t ∈ p.schema.tables ∧ targetName source p s = t.name := by
  unfold matchedTables
  simp only [List.mem_filterMap, mem_targetTables, Option.map_eq_some_iff, Prod.mk.injEq]
  constructor
  · rintro ⟨x, ⟨ht, hsome⟩, u, hu, rfl, rfl⟩
    obtain ⟨hs, hname⟩ := h.matchedSource_eq.mp (hsome.symm.trans hu)
    exact ⟨hs, ht, hname⟩
  · rintro ⟨hs, ht, hname⟩
    exact ⟨(t, some s), ⟨ht, (h.matchedSource_eq.mpr ⟨hs, hname⟩).symm⟩, s, rfl, rfl, rfl⟩

theorem matchedTables_targets_sublist :
    ((matchedTables source p).map Prod.snd).Sublist (sortedEntries Table.name p.schema.tables) := by
  have hmap : ((targetTables source p).map Prod.fst) = sortedEntries Table.name p.schema.tables := by
    simp [targetTables, Function.comp_def]
  rw [← hmap]
  unfold matchedTables
  induction targetTables source p with
  | nil => exact .slnil
  | cons x l ih =>
    obtain ⟨t, s⟩ := x
    cases s with
    | none => simpa using ih.cons _
    | some s => simpa using ih

theorem Accepted.targets_nodup (h : Accepted R source p d) :
    (((matchedTables source p).map Prod.snd).map Table.name).Nodup := by
  refine (matchedTables_targets_sublist.map Table.name).nodup ?_
  exact ((sortedEntries_perm Table.name _).map Table.name).nodup_iff.mpr h.parsed.target.tables

theorem Accepted.sources_nodup (h : Accepted R source p d) :
    (((matchedTables source p).map Prod.fst).map Table.name).Nodup := by
  have htargets := h.targets_nodup
  rw [List.map_map] at htargets ⊢
  rw [List.nodup_iff_pairwise_ne, List.pairwise_map] at htargets ⊢
  refine htargets.imp_of_mem fun {x y} hx hy hne heq => hne ?_
  obtain ⟨hs, _, hname⟩ := h.mem_matchedTables.mp hx
  obtain ⟨hs', _, hname'⟩ := h.mem_matchedTables.mp hy
  have hsame : x.1 = y.1 := List.inj_on_of_nodup_map h.names_nodup hs hs' heq
  exact hname.symm.trans ((congrArg _ hsame).trans hname')

theorem mem_droppedTables {s : Table} : s ∈ droppedTables source p ↔
    s ∈ sources source ∧ targetName source p s ∉ p.schema.tables.map Table.name := by
  simp only [droppedTables, List.mem_filter, mem_sourceTables, Option.isNone_iff_eq_none,
    ← table_isSome_iff, Option.isSome_iff_ne_none, ne_eq, not_not]

theorem Accepted.source_valid (h : Accepted R source p d) {s : Table} (hs : s ∈ sources source) :
    ∃ doc, source = some doc ∧ doc.Valid R.digest ∧ s.Valid doc := by
  cases hsource : source with
  | none => simp [sources, hsource] at hs
  | some doc =>
    have hdoc := h.valid doc hsource
    rw [hsource] at hs
    exact ⟨doc, rfl, hdoc, hdoc.each s hs⟩

end Tables

section Columns
variable {R : Renderer} {source : Option Document} {p : Plan} {d : Diff}

theorem Accepted.columnRename_spec (h : Accepted R source p d) {r : ColumnRename}
    (hr : r ∈ p.renameColumns) : ∃ src tgt, (src, tgt) ∈ matchedTables source p ∧
      tgt.name = r.table ∧ r.old ∈ src.columnNames ∧ r.new ∉ src.columnNames ∧
      r.new ∈ tgt.columnNames := by
  have herror := h.checked.columnRenames r hr
  unfold columnRenameError at herror
  split at herror
  · next tgt src htgt hsrc =>
    obtain ⟨tgt', htgt', hsrc⟩ := Option.bind_eq_some_iff.mp hsrc
    obtain rfl : tgt = tgt' := Option.some.inj (htgt.symm.trans htgt')
    obtain ⟨htmem, htname⟩ := table_mem htgt
    obtain ⟨hsmem, hsname⟩ := h.matchedSource_eq.mp hsrc
    refine ⟨src, tgt, h.mem_matchedTables.mpr ⟨hsmem, htmem, hsname⟩, htname, ?_⟩
    split at herror
    · cases herror
    · next hold =>
      split at herror
      · cases herror
      · next hnew =>
        split at herror
        · cases herror
        · next htarget =>
          refine ⟨?_, fun hm => hnew (column_isSome_iff.mpr hm), ?_⟩
          · rw [← column_isSome_iff]
            simpa [Option.isNone_iff_eq_none, Option.isSome_iff_ne_none] using hold
          · rw [← column_isSome_iff]
            simpa [Option.isNone_iff_eq_none, Option.isSome_iff_ne_none] using htarget
  · cases herror

theorem Accepted.columnRenames_perm (h : Accepted R source p d) :
    (columnRenames source p).Perm p.renameColumns := by
  have hall : (sortedEntries (fun r : ColumnRename => r.table ++ "." ++ r.old)
      p.renameColumns).filter (fun r => (columnRenameError source p r).isNone) =
      sortedEntries (fun r : ColumnRename => r.table ++ "." ++ r.old) p.renameColumns :=
    List.filter_eq_self.mpr fun r hr => by
      rw [h.checked.columnRenames r (mem_sortedEntries.mp hr)]
      rfl
  unfold columnRenames
  rw [hall]
  exact sortedEntries_perm _ _

/-- The column renames of a target table as a map from old to new names. -/
def columnMap (source : Option Document) (p : Plan) (tgt : Table) : List (String × String) :=
  (planRenames source p).columnsOf tgt.name

theorem Accepted.mem_columnMap (h : Accepted R source p d) {tgt : Table} {old new : String} :
    (old, new) ∈ columnMap source p tgt ↔ ⟨tgt.name, old, new⟩ ∈ p.renameColumns := by
  unfold columnMap Renames.columnsOf
  simp only [List.mem_map, List.mem_filter, decide_eq_true_eq]
  constructor
  · rintro ⟨⟨table, o, n⟩, ⟨hr, rfl⟩, heq⟩
    obtain ⟨rfl, rfl⟩ := Prod.mk.inj heq
    exact h.columnRenames_perm.mem_iff.mp hr
  · exact fun hr => ⟨_, ⟨h.columnRenames_perm.mem_iff.mpr hr, rfl⟩, rfl⟩

theorem Accepted.columnMap_news (h : Accepted R source p d) (tgt : Table) :
    ((columnMap source p tgt).map Prod.snd).Nodup := by
  have hall : ((columnRenames source p).map fun r => (r.table, r.new)).Nodup :=
    (h.columnRenames_perm.map _).nodup_iff.mpr h.parsed.columns
  have hpairs : (((columnRenames source p).filter (·.table = tgt.name)).map
      fun r => (r.table, r.new)).Nodup := (List.filter_sublist.map _).nodup hall
  unfold columnMap Renames.columnsOf
  rw [List.map_map]
  rw [List.nodup_iff_pairwise_ne, List.pairwise_map] at hpairs ⊢
  refine hpairs.imp_of_mem fun {r r'} hr hr' hne heq => hne ?_
  simp only [List.mem_filter, decide_eq_true_eq] at hr hr'
  exact Prod.ext (hr.2.trans hr'.2.symm) heq

/-- The source column of a rename is in the source table, and the new name is new. -/
theorem Accepted.columnMap_spec (h : Accepted R source p d) {src tgt : Table}
    (hx : (src, tgt) ∈ matchedTables source p) {e : String × String}
    (he : e ∈ columnMap source p tgt) :
    e.1 ∈ src.columnNames ∧ e.2 ∉ src.columnNames ∧ e.2 ∈ tgt.columnNames := by
  obtain ⟨src', tgt', hx', hname, hspec⟩ := h.columnRename_spec (h.mem_columnMap.mp he)
  have hsame := List.inj_on_of_nodup_map (f := fun x : Table × Table => x.2.name)
    (by simpa [List.map_map, Function.comp_def] using h.targets_nodup) hx' hx hname
  obtain ⟨rfl, rfl⟩ := Prod.mk.inj hsame
  exact hspec

theorem mem_columnPairs {src tgt : Table} {renames : List (String × String)} {new old : String} :
    (new, old) ∈ columnPairs src tgt renames ↔
      old ∈ src.columnNames ∧ new ∈ tgt.columnNames ∧ renamedOr renames old = new := by
  unfold columnPairs Table.columnNames
  simp only [List.mem_filterMap]
  constructor
  · rintro ⟨c, hc, heq⟩
    split at heq
    · next hsome =>
      obtain ⟨rfl, rfl⟩ := Prod.mk.inj (Option.some.inj heq)
      exact ⟨List.mem_map_of_mem hc, column_isSome_iff.mp hsome, rfl⟩
    · cases heq
  · rintro ⟨hold, hnew, rfl⟩
    obtain ⟨c, hc, rfl⟩ := List.mem_map.mp hold
    exact ⟨c, hc, if_pos (column_isSome_iff.mpr hnew)⟩

theorem columnPairs_sublist {src tgt : Table} {renames : List (String × String)} :
    ((columnPairs src tgt renames).map Prod.snd).Sublist src.columnNames := by
  unfold columnPairs Table.columnNames
  induction src.columns with
  | nil => exact .slnil
  | cons c l ih =>
    rw [List.filterMap_cons]
    dsimp only
    by_cases hsome : (tgt.column (renamedOr renames c.name)).isSome = true
    · rw [if_pos hsome]
      exact ih.cons_cons _
    · rw [if_neg hsome]
      exact ih.cons _

theorem columnPairs_sources {src tgt : Table} {renames : List (String × String)}
    (hsrc : src.columnNames.Nodup) : ((columnPairs src tgt renames).map Prod.snd).Nodup :=
  columnPairs_sublist.nodup hsrc

end Columns

end Orm.Dbspec
