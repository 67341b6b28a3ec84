import Orm.Dbspec.Alter

/-! The SQLite rebuild of a matched table through the work table. -/
namespace Orm.Dbspec

open Orm.Logic (onKey runSteps runSteps_append_of runSteps_cons_of runSteps_same)

variable {V : Type} {v : RowValues V} {w : PlanWriter} {m : Match} {r : Relation V}

section Copies

theorem lookup_of_mem {β : Type} {l : List (String × β)} {k : String} {x : β}
    (hl : (l.map Prod.fst).Nodup) (h : (k, x) ∈ l) : l.lookup k = some x := by
  cases hget : l.lookup k with
  | none =>
    have hnone := List.lookup_eq_none_iff.mp hget _ h
    simp at hnone
  | some y =>
    obtain ⟨l₁, l₂, rfl, _⟩ := List.lookup_eq_some_iff.mp hget
    have heq := List.inj_on_of_nodup_map hl h (by simp : (k, y) ∈ l₁ ++ (k, y) :: l₂) rfl
    rw [(Prod.mk.inj heq).2]

theorem lookup_of_not_mem {β : Type} {l : List (String × β)} {k : String}
    (h : k ∉ l.map Prod.fst) : l.lookup k = none := by
  rw [List.lookup_eq_none_iff]
  intro e he
  have hne : k ≠ e.1 := fun heq => h (heq ▸ List.mem_map_of_mem he)
  simpa using hne

/-- The columns of the new definition: those of the target and the hidden ones. -/
def newColumns (w : PlanWriter) (m : Match) : List Column :=
  m.target.columns ++ (w.hiddenDropped m).map hiddenColumn

theorem mem_hiddenDropped {c : Column} : c ∈ w.hiddenDropped m ↔
    ∃ n ∈ m.removed, ∃ s, m.source.column n = some s ∧
      c = { s with name := w.hold (.removed m.source.name n) } := by
  simp only [PlanWriter.hiddenDropped, List.mem_filterMap, Option.map_eq_some_iff]
  exact ⟨fun ⟨n, hn, s, hs, h⟩ => ⟨n, hn, s, hs, h.symm⟩,
    fun ⟨n, hn, s, hs, h⟩ => ⟨n, hn, s, hs, h.symm⟩⟩

theorem hiddenDropped_names (hm : m.Sound) : (w.hiddenDropped m).map Column.name =
    m.removed.map fun c => w.hold (.removed m.source.name c) := by
  unfold PlanWriter.hiddenDropped
  rw [List.map_filterMap]
  have hall : ∀ c ∈ m.removed, ((m.source.column c).map fun s =>
      ({ s with name := w.hold (.removed m.source.name c) } : Column)).map Column.name =
      some (w.hold (.removed m.source.name c)) := by
    intro c hc
    obtain ⟨s, hs⟩ := Option.isSome_iff_exists.mp (column_isSome_iff.mpr (hm.mem_removed.mp hc).1)
    rw [hs]
    rfl
  rw [List.filterMap_congr hall, List.filterMap_eq_map']

theorem newColumns_names (hm : m.Sound) : (newColumns w m).map Column.name =
    m.target.columnNames ++ m.removed.map fun c => w.hold (.removed m.source.name c) := by
  unfold newColumns
  rw [List.map_append, List.map_map, ← hiddenDropped_names hm]
  rfl

theorem newColumns_nodup (hm : m.Sound) (hw : Held w m) :
    ((newColumns w m).map Column.name).Nodup := by
  rw [newColumns_names hm]
  refine List.nodup_append.mpr ⟨hm.targetNodup, ?_, ?_⟩
  · exact (List.nodup_map_iff_inj_on hm.removed_nodup).mpr fun c hc c' hc' h =>
      hw.distinct c hc c' hc' h
  · intro a ha b hb heq
    obtain ⟨c, hc, rfl⟩ := List.mem_map.mp hb
    exact hw.unnamed c hc (heq ▸ hm.targetNamed a ha)

/-- The source column of a target column. -/
theorem kept_source (hm : m.Sound) {c s : Column} :
    (mapGet m.columnOf c.name).bind m.source.column = some s ↔
      (c.name, s.name) ∈ m.columnOf ∧ s ∈ m.source.columns := by
  constructor
  · intro h
    obtain ⟨old, hget, hold⟩ := Option.bind_eq_some_iff.mp h
    obtain ⟨hmem, rfl⟩ := column_mem hold
    exact ⟨mapGet_mem hget, hmem⟩
  · rintro ⟨hpair, hmem⟩
    rw [hm.get_columnOf hpair]
    exact (column_eq_some_iff hm.sourceNodup).mpr ⟨hmem, rfl⟩

theorem mem_copyIn (hm : m.Sound) {n : String} {x : CopyValue} : (n, x) ∈ w.copyIn m false ↔
    (∃ c ∈ m.target.columns, ∃ s ∈ m.source.columns, (c.name, s.name) ∈ m.columnOf ∧
      n = c.name ∧ x = PlanWriter.copyValue s c) ∨
    (∃ c ∈ m.removed, n = w.hold (.removed m.source.name c) ∧ x = ⟨c, ""⟩) := by
  unfold PlanWriter.copyIn
  simp only [List.mem_append, List.mem_filterMap, List.mem_map, Prod.mk.injEq, Bool.false_eq_true,
    if_false]
  refine or_congr ⟨?_, ?_⟩ ⟨?_, ?_⟩
  · rintro ⟨c, hc, h⟩
    split at h
    · next s hs =>
      obtain ⟨rfl, rfl⟩ := Prod.mk.inj (Option.some.inj h)
      obtain ⟨hpair, hsmem⟩ := (kept_source hm).mp hs
      exact ⟨c, hc, s, hsmem, hpair, rfl, rfl⟩
    · cases h
  · rintro ⟨c, hc, s, hsmem, hpair, rfl, rfl⟩
    refine ⟨c, hc, ?_⟩
    rw [(kept_source hm).mpr ⟨hpair, hsmem⟩]
  · rintro ⟨c, hc, rfl, rfl⟩
    exact ⟨c, hc, rfl, rfl⟩
  · rintro ⟨c, hc, rfl, rfl⟩
    exact ⟨c, hc, rfl, rfl⟩

theorem copyIn_nodup (hm : m.Sound) (hw : Held w m) : ((w.copyIn m false).map Prod.fst).Nodup := by
  have hnew := newColumns_nodup hm hw
  rw [newColumns_names hm] at hnew
  unfold PlanWriter.copyIn
  rw [List.map_append]
  refine List.Sublist.nodup (List.Sublist.append ?_ ?_) hnew
  · unfold Table.columnNames
    induction m.target.columns with
    | nil => exact .slnil
    | cons c l ih =>
      rw [List.filterMap_cons]
      cases (mapGet m.columnOf c.name).bind m.source.column with
      | none => exact ih.cons _
      | some s => exact ih.cons_cons _
  · rw [List.map_map]
    exact .refl _

end Copies

section Rebuilt

/-- The rows of the renamed source in the new definition. -/
def rebuiltTable (v : RowValues V) (w : PlanWriter) (m : Match) (r : Relation V) : Relation V :=
  (Relation.fresh (newColumns w m)).withRows v (w.copyIn m false) (r.renamed m.renames)

theorem rebuiltTable_columns : (rebuiltTable v w m r).columns = (newColumns w m).map fun c =>
    ⟨c, Relation.copied v (w.copyIn m false) (r.renamed m.renames) c⟩ := by
  simp [rebuiltTable, Relation.withRows]

theorem stored_nodup (hm : m.Sound) (hr : r.Of m.source) :
    (r.columns.map fun k => k.column.name).Nodup := by
  have hcolumns := hm.sourceNodup
  rw [Table.columnNames, ← hr, List.map_map] at hcolumns
  exact hcolumns

theorem renamed_nodup (hm : m.Sound) (hr : r.Of m.source) : (r.renamed m.renames).names.Nodup := by
  unfold Relation.renamed
  rw [Relation.names_map, List.nodup_iff_pairwise_ne, List.pairwise_map]
  have hstored := stored_nodup hm hr
  rw [List.nodup_iff_pairwise_ne, List.pairwise_map] at hstored
  exact hstored.imp_of_mem fun {k k'} hk hk' hne heq =>
    hne (hm.renamed_inj (hr.name_mem hk) (hr.name_mem hk') heq)

/-- The renamed column of a kept or removed source column. -/
theorem renamed_find (hm : m.Sound) (hr : r.Of m.source) {k : StoredColumn V} (hk : k ∈ r.columns)
    {n : String} (hn : renamedOr m.renames k.column.name = n) :
    (r.renamed m.renames).find n =
      some ⟨{ k.column with name := n }, k.values⟩ := by
  subst hn
  have hmem : ⟨{ k.column with name := renamedOr m.renames k.column.name }, k.values⟩ ∈
      (r.renamed m.renames).columns := mem_renamed.mpr ⟨k, hk, rfl⟩
  exact Relation.find_eq_some (renamed_nodup hm hr) hmem

theorem copied_kept (hm : m.Sound) (hw : Held w m) (hr : r.Of m.source) {c : Column}
    {k : StoredColumn V} (hc : c ∈ m.target.columns) (hk : k ∈ r.columns)
    (hpair : (c.name, k.column.name) ∈ m.columnOf) :
    Relation.copied v (w.copyIn m false) (r.renamed m.renames) c =
      k.values.map (v.widen k.column.type c.type) := by
  have hlookup : (w.copyIn m false).lookup c.name = some (PlanWriter.copyValue k.column c) :=
    lookup_of_mem (copyIn_nodup hm hw)
      ((mem_copyIn hm).mpr (.inl ⟨c, hc, k.column, hr.mem hk, hpair, rfl, rfl⟩))
  have hfind := renamed_find hm hr hk (hm.mem_columnOf.mp hpair).2.2
  unfold Relation.copied
  rw [hlookup, Option.bind_some]
  simp only [PlanWriter.copyValue, hfind, Option.map_some]
  rfl

theorem copied_added (hm : m.Sound) (hw : Held w m) {c : Column} (hc : c.name ∈ m.added) :
    Relation.copied v (w.copyIn m false) (r.renamed m.renames) c =
      List.replicate r.rows (v.initial c) := by
  have hnone : (w.copyIn m false).lookup c.name = none := by
    refine lookup_of_not_mem fun hmem => ?_
    obtain ⟨⟨n, x⟩, hx, rfl⟩ := List.mem_map.mp hmem
    obtain ⟨htarget, hnot⟩ := hm.mem_added.mp hc
    rcases (mem_copyIn hm).mp hx with ⟨c', _, s, _, hpair, hname, _⟩ | ⟨c', hc', hname, _⟩
    · exact hnot (hname ▸ List.mem_map_of_mem hpair)
    · exact hw.unnamed c' hc' (hname ▸ hm.targetNamed _ htarget)
  unfold Relation.copied
  rw [hnone]
  rfl

theorem copied_held (hm : m.Sound) (hw : Held w m) (hr : r.Of m.source) {c : Column}
    {k : StoredColumn V} (hk : k ∈ r.columns) (hrem : k.column.name ∈ m.removed)
    (hname : c.name = w.hold (.removed m.source.name k.column.name)) :
    Relation.copied v (w.copyIn m false) (r.renamed m.renames) c = k.values := by
  have hlookup : (w.copyIn m false).lookup c.name = some ⟨k.column.name, ""⟩ :=
    lookup_of_mem (copyIn_nodup hm hw) ((mem_copyIn hm).mpr (.inr ⟨_, hrem, hname, rfl⟩))
  have hfind := renamed_find hm hr hk (hm.removed_stays hrem)
  unfold Relation.copied
  rw [hlookup, Option.bind_some]
  simp only [hfind, Option.map_some]
  exact (List.map_congr_left fun x _ => if_pos rfl).trans (List.map_id _)

/-- A column of the rebuilt table: a target column or a hidden one. -/
theorem mem_rebuiltTable {k' : StoredColumn V} (hk' : k' ∈ (rebuiltTable v w m r).columns) :
    k'.values = Relation.copied v (w.copyIn m false) (r.renamed m.renames) k'.column ∧
      (k'.column ∈ m.target.columns ∨ ∃ c ∈ m.removed,
        k'.column.name = w.hold (.removed m.source.name c)) := by
  rw [rebuiltTable_columns] at hk'
  obtain ⟨c, hc, rfl⟩ := List.mem_map.mp hk'
  refine ⟨rfl, ?_⟩
  rcases List.mem_append.mp hc with hc | hc
  · exact .inl hc
  · obtain ⟨h, hh, rfl⟩ := List.mem_map.mp hc
    obtain ⟨n, hn, s, _, rfl⟩ := mem_hiddenDropped.mp hh
    exact .inr ⟨n, hn, rfl⟩

/-- A rebuilt column with a name of the target is the target column. -/
theorem rebuilt_target (hm : m.Sound) (hw : Held w m) {k' : StoredColumn V}
    (hk' : k' ∈ (rebuiltTable v w m r).columns) (hname : k'.column.name ∈ m.target.columnNames) :
    k'.column ∈ m.target.columns := by
  rcases (mem_rebuiltTable hk').2 with hmem | ⟨c, hc, hhold⟩
  · exact hmem
  · exact absurd (hm.targetNamed _ (hhold ▸ hname)) (hw.unnamed c hc)

theorem rebuiltTable_moved (hm : m.Sound) (hw : Held w m) (hr : r.Of m.source) :
    Moved v w m r (rebuiltTable v w m r) where
  rows := Nat.zero_add _
  columns := by
    rw [rebuiltTable_columns, List.map_map]
    have hid : (newColumns w m).map (StoredColumn.column ∘ fun c =>
        ⟨c, Relation.copied v (w.copyIn m false) (r.renamed m.renames) c⟩) = newColumns w m :=
      List.map_id _
    rw [hid]
    unfold newColumns
    rw [List.filter_append]
    have htarget : m.target.columns.filter (fun c => c.name ∈ m.target.columnNames) =
        m.target.columns :=
      List.filter_eq_self.mpr fun c hc => decide_eq_true (List.mem_map_of_mem hc)
    have hhidden : ((w.hiddenDropped m).map hiddenColumn).filter
        (fun c => c.name ∈ m.target.columnNames) = [] := by
      refine List.filter_eq_nil_iff.mpr fun c hc hmem => ?_
      obtain ⟨h, hh, rfl⟩ := List.mem_map.mp hc
      obtain ⟨n, hn, s, _, rfl⟩ := mem_hiddenDropped.mp hh
      exact hw.unnamed n hn (hm.targetNamed _ (of_decide_eq_true hmem))
    rw [htarget, hhidden, List.append_nil]
  kept := by
    intro k hk k' hk' hpair
    have hmem := rebuilt_target hm hw hk' (hm.mem_columnOf.mp hpair).2.1
    rw [(mem_rebuiltTable hk').1]
    exact copied_kept hm hw hr hmem hk hpair
  added := by
    intro k' hk' hadded
    rw [(mem_rebuiltTable hk').1]
    exact copied_added hm hw hadded
  held := by
    intro k hk hrem
    have hcol : m.source.column k.column.name = some k.column :=
      (column_eq_some_iff hm.sourceNodup).mpr ⟨hr.mem hk, rfl⟩
    have hmem : hiddenColumn { k.column with
        name := w.hold (.removed m.source.name k.column.name) } ∈ newColumns w m :=
      List.mem_append_right _ (List.mem_map_of_mem
        (mem_hiddenDropped.mpr ⟨_, hrem, _, hcol, rfl⟩))
    have hstored := List.mem_map_of_mem (f := fun c => (⟨c, Relation.copied v (w.copyIn m false)
      (r.renamed m.renames) c⟩ : StoredColumn V)) hmem
    rw [← rebuiltTable_columns] at hstored
    exact ⟨_, hstored, rfl, rfl, copied_held hm hw hr hk hrem rfl⟩
  others := by
    intro k' hk'
    rcases (mem_rebuiltTable hk').2 with hmem | hhold
    · exact .inl (List.mem_map_of_mem hmem)
    · exact .inr hhold

end Rebuilt

section Run

theorem step_statement {s : Statement} {back : Option Statement} {e : Effect} :
    (step s back e).statement = s := rfl

variable {c : Catalog V} {own work own' work' : Option (Relation V)}

/-- The catalog during a rebuild: the table and the work table change. -/
def during (c : Catalog V) (m : Match) (own work : Option (Relation V)) : Catalog V :=
  Function.update (Function.update c rebuildTable work) m.name own

theorem during_own : during c m own work m.name = own := Function.update_self ..

theorem during_work (hne : m.name ≠ rebuildTable) : during c m own work rebuildTable = work := by
  unfold during
  rw [Function.update_of_ne hne.symm, Function.update_self]

theorem update_own : Function.update (during c m own work) m.name own' = during c m own' work :=
  Function.update_idem ..

theorem update_work (hne : m.name ≠ rebuildTable) :
    Function.update (during c m own work) rebuildTable work' = during c m own work' := by
  unfold during
  rw [Function.update_comm hne, Function.update_idem]

theorem exec_newCreate_own {doc : Document} (ht : m.target.Valid doc) :
    exec v (w.newCreate m m.name) (during c m none work) =
      some (during c m (some (.fresh (newColumns w m))) work) := by
  refine (if_pos ?_).trans (congrArg some update_own)
  rw [during_own, namedColumns_valid ht]
  rfl

theorem exec_newCreate_work {doc : Document} (ht : m.target.Valid doc)
    (hne : m.name ≠ rebuildTable) :
    exec v (w.newCreate m rebuildTable) (during c m own none) =
      some (during c m own (some (.fresh (newColumns w m)))) := by
  refine (if_pos ?_).trans (congrArg some (update_work hne))
  rw [during_work hne, namedColumns_valid ht]
  rfl

/-- The copied columns are in the work table, and their values in the renamed source. -/
theorem copyIn_found (hm : m.Sound) (hr : r.Of m.source) :
    ((w.copyIn m false).all fun x => x.1 ∈ (Relation.fresh (newColumns w m) : Relation V).names &&
      x.2.column ∈ (r.renamed m.renames).names) = true := by
  rw [List.all_eq_true]
  rintro ⟨n, x⟩ hx
  rw [Relation.names_fresh, newColumns_names hm]
  have hstored : ∀ {s : String}, s ∈ m.source.columnNames →
      renamedOr m.renames s ∈ (r.renamed m.renames).names := by
    intro s hs
    rw [Table.columnNames, ← hr, List.map_map] at hs
    obtain ⟨k, hk, rfl⟩ := List.mem_map.mp hs
    exact Relation.mem_names (mem_renamed.mpr ⟨k, hk, rfl⟩)
  simp only [Bool.and_eq_true, decide_eq_true_eq]
  rcases (mem_copyIn hm).mp hx with ⟨c, hc, s, _, hpair, rfl, rfl⟩ | ⟨c, hc, rfl, rfl⟩
  · obtain ⟨hs, _, heq⟩ := hm.mem_columnOf.mp hpair
    refine ⟨List.mem_append_left _ (List.mem_map_of_mem hc), ?_⟩
    have hname := hstored hs
    rw [heq] at hname
    exact hname
  · refine ⟨List.mem_append_right _ (List.mem_map_of_mem hc), ?_⟩
    have hname := hstored (hm.mem_removed.mp hc).1
    rw [hm.removed_stays hc] at hname
    exact hname

theorem exec_copyRows (hm : m.Sound) (hr : r.Of m.source) (hne : m.name ≠ rebuildTable) :
    exec v (w.copyRows m).statement (during c m (some (r.renamed m.renames))
        (some (.fresh (newColumns w m)))) =
      some (during c m (some (r.renamed m.renames)) (some (rebuiltTable v w m r))) := by
  change ((during c m _ _ m.name).bind fun s => onKey rebuildTable _ _) = _
  rw [during_own, Option.bind_some, onKey, during_work hne, Option.bind_some, Relation.insertFrom,
    if_pos (copyIn_found hm hr), Option.map_some, update_work hne]
  rfl

theorem rebuiltTable_names : (rebuiltTable v w m r).names =
    (newColumns w m).map Column.name := by
  unfold Relation.names
  rw [rebuiltTable_columns, List.map_map]
  rfl

theorem newList_names : (w.newList m).map Prod.fst = (newColumns w m).map Column.name := by
  simp [PlanWriter.newList, newColumns, hiddenColumn, Function.comp_def]

theorem mem_newList {x : String × CopyValue} : x ∈ w.newList m ↔
    ∃ n ∈ (newColumns w m).map Column.name, x = (n, ⟨n, ""⟩) := by
  rw [← newList_names]
  unfold PlanWriter.newList
  rw [List.map_map]
  constructor
  · intro h
    obtain ⟨c, hc, rfl⟩ := List.mem_map.mp h
    exact ⟨c.name, List.mem_map.mpr ⟨c, hc, rfl⟩, rfl⟩
  · rintro ⟨n, hn, rfl⟩
    obtain ⟨c, hc, rfl⟩ := List.mem_map.mp hn
    exact List.mem_map.mpr ⟨c, hc, rfl⟩

/-- The columns of the new definition, copied as they are, are those of the work table. -/
theorem newList_copies (hm : m.Sound) (hw : Held w m) :
    (Relation.fresh (newColumns w m)).withRows v (w.newList m) (rebuiltTable v w m r) =
      rebuiltTable v w m r := by
  have hnodup : (rebuiltTable v w m r).names.Nodup := by
    rw [rebuiltTable_names]
    exact newColumns_nodup hm hw
  refine Relation.ext ?_ (Nat.zero_add _)
  rw [rebuiltTable_columns]
  simp only [Relation.withRows, Relation.fresh_columns, List.map_map]
  refine List.map_congr_left fun c hc => StoredColumn.ext rfl ?_
  have hname : c.name ∈ (newColumns w m).map Column.name := List.mem_map_of_mem hc
  have hlookup : (w.newList m).lookup c.name = some ⟨c.name, ""⟩ :=
    lookup_of_mem (newList_names ▸ newColumns_nodup hm hw) (mem_newList.mpr ⟨c.name, hname, rfl⟩)
  have hstored := List.mem_map_of_mem (f := fun c => (⟨c, Relation.copied v (w.copyIn m false)
    (r.renamed m.renames) c⟩ : StoredColumn V)) hc
  rw [← rebuiltTable_columns] at hstored
  have hfind := Relation.find_eq_some hnodup hstored
  simp only [Function.comp_apply, List.nil_append]
  conv_lhs => unfold Relation.copied
  rw [hlookup, Option.bind_some]
  simp only [hfind, Option.map_some]
  exact (List.map_congr_left fun x _ => if_pos rfl).trans (List.map_id _)

theorem exec_newList (hm : m.Sound) (hw : Held w m) (hne : m.name ≠ rebuildTable) :
    exec v (.insertSelect m.name (w.newList m) rebuildTable)
        (during c m (some (.fresh (newColumns w m))) (some (rebuiltTable v w m r))) =
      some (during c m (some (rebuiltTable v w m r)) (some (rebuiltTable v w m r))) := by
  have hfound : ((w.newList m).all fun x =>
      x.1 ∈ (Relation.fresh (newColumns w m) : Relation V).names &&
        x.2.column ∈ (rebuiltTable v w m r).names) = true := by
    rw [List.all_eq_true, Relation.names_fresh, rebuiltTable_names]
    intro x hx
    obtain ⟨n, hn, rfl⟩ := mem_newList.mp hx
    simp [hn]
  change ((during c m _ _ rebuildTable).bind fun s => onKey m.name _ _) = _
  rw [during_work hne, Option.bind_some, onKey, during_own, Option.bind_some, Relation.insertFrom,
    if_pos hfound, Option.map_some, update_own, newList_copies hm hw]

theorem exec_deleteRows_own :
    exec v (.deleteRows m.name) (during c m (some r) work) =
      some (during c m (some r.cleared) work) := by
  change onKey m.name _ _ = _
  rw [onKey, during_own, Option.bind_some, Option.map_some, update_own]

theorem exec_deleteRows_work (hne : m.name ≠ rebuildTable) :
    exec v (.deleteRows rebuildTable) (during c m own (some r)) =
      some (during c m own (some r.cleared)) := by
  change onKey rebuildTable _ _ = _
  rw [onKey, during_work hne, Option.bind_some, Option.map_some, update_work hne]

theorem exec_dropTable_own :
    exec v (.dropTable m.name) (during c m (some r) work) = some (during c m none work) := by
  refine (if_pos ?_).trans (congrArg some update_own)
  rw [during_own]
  rfl

theorem exec_dropTable_work (hne : m.name ≠ rebuildTable) :
    exec v (.dropTable rebuildTable) (during c m own (some r)) = some (during c m own none) := by
  refine (if_pos ?_).trans (congrArg some (update_work hne))
  rw [during_work hne]
  rfl

theorem emptyRows_statement : (w.emptyRows m).statement = .deleteRows m.name := by
  unfold PlanWriter.emptyRows
  split <;> rfl

/-- The key counters are no part of the catalog. -/
theorem run_whenIdentity {s : Step Statement}
    (hs : ∀ c : Catalog V, exec v s.statement c = some c) :
    runSteps (exec v) ((PlanWriter.whenIdentity m s).map Step.statement) c = some c := by
  refine runSteps_same fun a ha => ?_
  unfold PlanWriter.whenIdentity at ha
  split at ha
  · obtain rfl := List.mem_singleton.mp ha
    exact hs c
  · cases ha

theorem run_dropIndexes (hc : (c m.name).isSome) :
    runSteps (exec v) (((w.indexes (w.renamedSource m)).flatMap
      (w.dropObject (w.renamedSource m))).map Step.statement) c = some c := by
  refine runSteps_same fun a ha => ?_
  obtain ⟨_, hstep, rfl⟩ := List.mem_map.mp ha
  obtain ⟨o, _, hstep⟩ := List.mem_flatMap.mp hstep
  obtain ⟨x, _, rfl⟩ := List.mem_map.mp hstep
  exact if_pos hc

/-- The rebuild leaves the rebuilt table in the place of the renamed source, and no work table. -/
theorem rebuild_run {doc : Document} (hd : ∀ t ∈ doc.tables, t.Valid doc) (ht : m.target ∈ doc.tables)
    (hm : m.Sound) (hw : Held w m) (hr : r.Of m.source) (hne : m.name ≠ rebuildTable)
    (hc : c m.name = some (r.renamed m.renames)) (hwork : c rebuildTable = none) :
    runSteps (exec v) ((w.rebuild m).map Step.statement) c =
      some (Function.update c m.name (some (rebuiltTable v w m r))) := by
  have hvalid := hd m.target ht
  have hstart : c = during c m (some (r.renamed m.renames)) none := by
    unfold during
    rw [← hwork, Function.update_eq_self, ← hc, Function.update_eq_self]
  have hend : Function.update c m.name (some (rebuiltTable v w m r)) =
      during c m (some (rebuiltTable v w m r)) none := by
    unfold during
    rw [← hwork, Function.update_eq_self]
  have hprovides : (during c m (some (rebuiltTable v w m r)) none).Provides m.target := by
    refine ⟨_, during_own, fun n hn => ?_⟩
    rw [rebuiltTable_names, newColumns_names hm]
    exact List.mem_append_left _ hn
  rw [hend]
  conv_lhs => rw [hstart]
  unfold PlanWriter.rebuild
  simp only [List.map_append, List.append_assoc, List.map_cons, List.cons_append, List.nil_append,
    step_statement, emptyRows_statement]
  rw [runSteps_cons_of (exec_newCreate_work hvalid hne),
    runSteps_append_of (run_whenIdentity fun _ => rfl),
    runSteps_cons_of (exec_copyRows hm hr hne),
    runSteps_append_of (run_dropIndexes (by rw [during_own]; rfl)),
    runSteps_cons_of exec_deleteRows_own,
    runSteps_append_of (run_whenIdentity fun _ => rfl),
    runSteps_cons_of exec_dropTable_own,
    runSteps_cons_of (exec_newCreate_own hvalid),
    runSteps_append_of (run_whenIdentity fun _ => rfl),
    runSteps_cons_of (exec_newList hm hw hne),
    runSteps_cons_of (exec_deleteRows_work hne),
    runSteps_append_of (run_whenIdentity fun _ => rfl),
    runSteps_cons_of (exec_dropTable_work hne)]
  exact run_createIndexes hd ht hprovides

end Run

end Orm.Dbspec
