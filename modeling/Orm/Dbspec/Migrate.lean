import Orm.Dbspec.Apply
import Orm.Dbspec.Moves

/-! The forward steps of a plan turn a catalog of the source into one of the target. -/
namespace Orm.Dbspec

open Orm.Logic (moveKey run_moves runSteps runSteps_append_eq_some runSteps_append_of
  runSteps_cons_of runSteps_each runSteps_map runSteps_same)

variable {V : Type} {v : RowValues V} {w : PlanWriter} {source : Option Document} {p : Plan}
  {c now : Catalog V}

/-- What a catalog holds between two groups of steps: the matched tables under their target names
as `table` makes them, the dropped ones under the names `gone`, and the new ones. -/
structure Stage (w : PlanWriter) (c now : Catalog V) (table : Match → Relation V → Relation V)
    (gone : Table → String) (new : List Table) : Prop where
  matched : ∀ m ∈ w.d.matched, now m.name = (c m.source.name).map (table m)
  dropped : ∀ t ∈ w.d.dropped, now (gone t) = c t.name
  created : ∀ t ∈ new, now t.name = some (.fresh t.columns)
  others : ∀ name, name ∉ w.d.matched.map Match.name → name ∉ w.d.dropped.map gone →
    name ∉ new.map Table.name → now name = none

section Renames

/-- After the rename group the columns of the matched tables have their target names. -/
theorem Accepted.rename_stage (h : Accepted w.r source p w.d) (honce : RenamesOnce p)
    (hc : Starts source c) :
    ∃ now, runSteps (exec v) (w.renameGroup.map Step.statement) c = some now ∧
      Stage w c now (fun m => Relation.renamed m.renames) Table.name [] := by
  obtain ⟨c₁, hrun₁, hnamed, hnone⟩ := h.renameTables_run honce.1 fun _ => hc.isSome
  have hperm := h.columnSteps_perm.trans h.columnRenames_perm
  have holds : ((columnRenameSteps w).map fun r => (r.table, r.old)).Nodup :=
    (hperm.map _).nodup_iff.mpr honce.2
  obtain ⟨c₂, hrun₂, hc₂⟩ := columnMoves_run (v := v) (c := c₁) holds
    ((hperm.map _).nodup_iff.mpr h.parsed.columns) fun e he => by
      obtain ⟨src, tgt, hx, hname, hold, hnew, _⟩ := h.columnRename_spec (h.mem_columnSteps.mp he)
      obtain ⟨hs, _, htarget⟩ := h.mem_matchedTables.mp hx
      obtain ⟨r, hr, hof⟩ := hc.stored src hs
      refine ⟨r, ?_, ?_, ?_⟩
      · rw [← hname, ← htarget, hnamed src hs, hr]
      · rwa [hof.names]
      · rwa [hof.names]
  refine ⟨c₂, ?_, ?_, ?_, by simp, ?_⟩
  · unfold PlanWriter.renameGroup
    rw [List.map_append, runSteps_append_of (run_renameTables.trans hrun₁), List.map_map]
    exact hrun₂
  · intro m hm
    obtain ⟨hs, _, htarget⟩ := h.matched_spec hm
    rw [hc₂, ← htarget, hnamed _ hs, htarget]
    obtain ⟨x, _, rfl⟩ := h.mem_matched.mp hm
    -- the steps order the renames of all tables together
    have horder : (renamesOf (columnRenameSteps w) (matchOf source p w.r x.1 x.2).name).Perm
        (matchOf source p w.r x.1 x.2).renames := (h.columnSteps_perm.filter _).map _
    have hsame : ∀ r : Relation V, r.renamed (renamesOf (columnRenameSteps w)
        (matchOf source p w.r x.1 x.2).name) =
        r.renamed (matchOf source p w.r x.1 x.2).renames := fun r => by
      refine Relation.map_congr (fun k _ => ?_) fun _ _ _ => rfl
      rw [renamedOr_perm horder (renamesOf_nodup holds)]
    exact congrArg (Option.map · _) (funext hsame)
  · intro t ht
    obtain ⟨hs, htarget, hnot⟩ := h.dropped_spec ht
    have hnil : renamesOf (columnRenameSteps w) t.name = [] := by
      refine List.eq_nil_iff_forall_not_mem.mpr fun e he => hnot ?_
      obtain ⟨src, tgt, hx, hname, _⟩ :=
        h.columnRename_spec (h.mem_columnSteps.mp (mem_renamesOf.mp he))
      exact List.mem_map.mpr ⟨tgt, (h.mem_matchedTables.mp hx).2.1, hname⟩
    have hid : (fun r : Relation V => r.renamed []) = id :=
      funext fun r => Relation.map_eq_self (fun _ _ => rfl) fun _ _ _ => rfl
    rw [hc₂, hnil, ← htarget, hnamed t hs, htarget]
    exact (congrFun (congrArg Option.map hid) _).trans (congrFun Option.map_id _)
  · intro name hmatched hdropped _
    rw [hc₂, hnone name, Option.map_none]
    rintro s hs rfl
    rcases h.source_cases hs with hd | ⟨m, hm, rfl⟩
    · exact hdropped ((h.dropped_spec hd).2.1 ▸ List.mem_map_of_mem hd)
    · exact hmatched ((h.matched_spec hm).2.2 ▸ List.mem_map_of_mem hm)

/-- A run of the rename group takes no table and no column twice. -/
theorem Accepted.renames_once (h : Accepted w.r source p w.d)
    (hrun : runSteps (exec v) (w.renameGroup.map Step.statement) c = some now) :
    RenamesOnce p := by
  unfold PlanWriter.renameGroup at hrun
  rw [List.map_append, runSteps_append_eq_some] at hrun
  obtain ⟨c₁, htables, hcolumns⟩ := hrun
  rw [run_renameTables] at htables
  rw [List.map_map] at hcolumns
  have hperm := h.columnSteps_perm.trans h.columnRenames_perm
  refine ⟨h.renameTables_once htables, (hperm.map _).nodup_iff.mp
    (columnMoves_once (l := columnRenameSteps w) hcolumns fun e he e' he' =>
      h.columnSteps_apart he he')⟩

end Renames

section Stages
variable {table table' : Match → Relation V → Relation V} {gone : Table → String}
  {new : List Table} {hash : String}

/-- Programs that each change their own matched table. -/
theorem Stage.each (hs : Stage w c now table gone new) (h : Accepted w.r source p w.d)
    {prog : Match → List Statement} {P : Catalog V → Prop}
    (hrun : ∀ m ∈ w.d.matched, ∀ s, s m.name = (c m.source.name).map (table m) → P s →
      runSteps (exec v) (prog m) s =
        some (Function.update s m.name ((c m.source.name).map (table' m))))
    (hstay : ∀ m ∈ w.d.matched, ∀ s x, P s → P (Function.update s m.name x)) (hnow : P now)
    (hgone : ∀ t ∈ w.d.dropped, gone t ∉ w.d.matched.map Match.name)
    (hcreated : ∀ t ∈ new, t.name ∉ w.d.matched.map Match.name) :
    ∃ now', runSteps (exec v) (w.d.matched.flatMap prog) now = some now' ∧
      Stage w c now' table' gone new := by
  obtain ⟨now', hnow', hout, hframe⟩ := runSteps_each (f := Match.name)
    (o := fun m => (c m.source.name).map (table' m))
    (P := fun m s => s m.name = (c m.source.name).map (table m) ∧ P s) h.matched_names
    (fun m _ m' hm' hne s hready =>
      ⟨by rw [Function.update_of_ne hne]; exact hready.1, hstay m' hm' s _ hready.2⟩)
    (fun m hm s hready => hrun m hm s hready.1 hready.2) fun m hm => ⟨hs.matched m hm, hnow⟩
  refine ⟨now', hnow', hout, fun t ht => ?_, fun t ht => ?_, fun name hmatched hd hn => ?_⟩
  · rw [hframe _ (hgone t ht)]
    exact hs.dropped t ht
  · rw [hframe _ (hcreated t ht)]
    exact hs.created t ht
  · rw [hframe _ hmatched]
    exact hs.others name hmatched hd hn

/-- A matched table as it is after the hide group. -/
def hiddenTable (w : PlanWriter) (m : Match) (r : Relation V) : Relation V :=
  if w.sqlite then r.renamed m.renames
  else (hideChanges w m).foldl Relation.change (r.renamed m.renames)

/-- A matched table as the plan leaves it. -/
def finalTable (v : RowValues V) (w : PlanWriter) (m : Match) (r : Relation V) : Relation V :=
  if w.sqlite then if w.rebuilt m then rebuiltTable v w m r else r.renamed m.renames
  else alteredTable v w m r

/-- The name under which a plan holds a dropped table. -/
def heldName (w : PlanWriter) (t : Table) : String := w.hold (.dropped t.name)

theorem Accepted.dropped_unmatched (h : Accepted w.r source p w.d) {t : Table}
    (ht : t ∈ w.d.dropped) : t.name ∉ w.d.matched.map Match.name := fun hmem =>
  (h.dropped_spec ht).2.2 (h.matched_target hmem)

theorem Accepted.held_unmatched (h : Accepted w.r source p w.d) (hh : w.holds = holdPrefix hash)
    (t : Table) : heldName w t ∉ p.schema.tables.map Table.name := fun hmem =>
  hold_unnamed hh _ (h.target_named hmem)

/-- The stored table of a matched source. -/
theorem Accepted.stored (h : Accepted w.r source p w.d) (hc : Starts source c) {m : Match}
    (hm : m ∈ w.d.matched) : ∃ r, c m.source.name = some r ∧ r.Of m.source :=
  hc.stored _ (h.matched_spec hm).1

theorem Accepted.hide_columns (h : Accepted w.r source p w.d) (hh : w.holds = holdPrefix hash)
    (hc : Starts source c)
    (hs : Stage w c now (fun m => Relation.renamed m.renames) Table.name []) :
    ∃ now', runSteps (exec v) ((if w.sqlite then [] else w.d.matched.flatMap w.hideColumns).map
        Step.statement) now = some now' ∧ Stage w c now' (hiddenTable w) Table.name [] := by
  unfold hiddenTable
  cases w.sqlite with
  | true => exact ⟨now, rfl, hs⟩
  | false =>
    simp only [Bool.false_eq_true, if_false, List.map_flatMap]
    refine hs.each h (P := fun _ => True) (fun m hm s hs' _ => ?_) (fun _ _ _ _ _ => trivial)
      trivial (fun t ht => h.dropped_unmatched ht) (by simp)
    obtain ⟨r, hr, hof⟩ := h.stored hc hm
    rw [hr, Option.map_some] at hs' ⊢
    exact hideColumns_turns (h.sound hm) (held_of_mem hh hm) hof s hs'

theorem Accepted.hide_tables (h : Accepted w.r source p w.d) (hh : w.holds = holdPrefix hash)
    (hc : Starts source c) (hs : Stage w c now table Table.name []) :
    ∃ now', runSteps (exec v) ((w.d.dropped.map fun t =>
        PlanWriter.renameTableStep t.name (heldName w t)).map Step.statement) now = some now' ∧
      Stage w c now' table (heldName w) [] := by
  have hnames : ((w.d.dropped.map fun t => (t.name, heldName w t)).map Prod.fst).Nodup := by
    rw [List.map_map]
    exact h.dropped_names
  have hheld : ((w.d.dropped.map fun t => (t.name, heldName w t)).map Prod.snd).Nodup := by
    rw [List.map_map]
    have hdropped := h.dropped_names
    rw [List.nodup_iff_pairwise_ne, List.pairwise_map] at hdropped ⊢
    exact hdropped.imp_of_mem fun {t t'} ht _ hne heq =>
      hne (HoldKey.dropped.inj (hold_inj (mem_holdKeys_dropped ht) heq))
  have hfree : ∀ t ∈ w.d.dropped, now (heldName w t) = none := by
    intro t _
    refine hs.others _ (fun hm => h.held_unmatched hh t (h.matched_target hm)) (fun hm => ?_) (by simp)
    obtain ⟨t', ht', heq⟩ := List.mem_map.mp hm
    have hform := h.source_named (h.dropped_spec ht').1
    rw [heq] at hform
    exact hold_unnamed hh _ hform
  have hthere : ∀ t ∈ w.d.dropped, (now t.name).isSome := by
    intro t ht
    obtain ⟨r, hr, _⟩ := hc.stored t (h.dropped_spec ht).1
    rw [hs.dropped t ht, hr]
    rfl
  obtain ⟨now', hrun, hnew, hold, hframe⟩ := run_moves (s := now) hnames hheld
    (List.forall_mem_map.mpr hthere) (List.forall_mem_map.mpr hfree)
  rw [runSteps_map] at hrun
  simp only [List.map_map] at hframe
  rw [List.map_map, runSteps_map]
  refine ⟨now', hrun, fun m hm => ?_, fun t ht => ?_, by simp, fun name hm hd hn => ?_⟩
  · have hname : m.name ∈ w.d.matched.map Match.name := List.mem_map_of_mem hm
    rw [hframe m.name (fun hmem => ?_) fun hmem => ?_, hs.matched m hm]
    · obtain ⟨t, ht, heq⟩ := List.mem_map.mp hmem
      rw [← heq] at hname
      exact h.dropped_unmatched ht hname
    · obtain ⟨t, _, heq⟩ := List.mem_map.mp hmem
      rw [← heq] at hname
      exact h.held_unmatched hh t (h.matched_target hname)
  · have hmoved : now' (heldName w t) = now t.name :=
      hnew (t.name, heldName w t) (List.mem_map_of_mem ht)
    rw [hmoved, hs.dropped t ht]
  · by_cases hdrop : name ∈ w.d.dropped.map Table.name
    · obtain ⟨t, ht, rfl⟩ := List.mem_map.mp hdrop
      exact hold (t.name, heldName w t) (List.mem_map_of_mem ht)
    · rw [hframe name hdrop hd]
      exact hs.others name hm hdrop hn

theorem Accepted.hide_stage (h : Accepted w.r source p w.d) (hh : w.holds = holdPrefix hash)
    (hc : Starts source c)
    (hs : Stage w c now (fun m => Relation.renamed m.renames) Table.name []) :
    ∃ now', runSteps (exec v) (w.hideGroup.map Step.statement) now = some now' ∧
      Stage w c now' (hiddenTable w) (heldName w) [] := by
  obtain ⟨c₁, hrun₁, hs₁⟩ := h.hide_columns (v := v) hh hc hs
  obtain ⟨c₂, hrun₂, hs₂⟩ := h.hide_tables (v := v) hh hc hs₁
  refine ⟨c₂, ?_, hs₂⟩
  unfold PlanWriter.hideGroup
  rw [List.map_append]
  exact (runSteps_append_of hrun₁).trans hrun₂

theorem fresh_provides {t : Table} (hnow : now t.name = some (.fresh t.columns)) :
    now.Provides t := by
  refine ⟨_, hnow, fun n hn => ?_⟩
  rwa [Relation.names_fresh]

theorem Accepted.create_tables (h : Accepted w.r source p w.d) (hh : w.holds = holdPrefix hash)
    (hs : Stage w c now table (heldName w) []) :
    ∃ now', runSteps (exec v) (w.createGroup.map Step.statement) now = some now' ∧
      Stage w c now' table (heldName w) w.d.created := by
  unfold PlanWriter.createGroup
  rw [List.map_flatMap]
  have hd := h.parsed.target.each
  have hprog : ∀ t ∈ w.d.created, ∀ s : Catalog V, s t.name = none →
      runSteps (exec v) ((w.createTable t :: w.createIndexes t).map Step.statement) s =
        some (Function.update s t.name (some (.fresh t.columns))) := by
    intro t ht s hnone
    have htarget := (h.mem_created.mp ht).1
    have hcreate : exec v (w.createTable t).statement s =
        some (Function.update s t.name (some (.fresh t.columns))) := by
      refine (if_pos ?_).trans (by rw [List.map_nil, List.append_nil])
      rw [hnone, namedColumns_valid (hd t htarget)]
      rfl
    rw [List.map_cons, runSteps_cons_of hcreate]
    exact run_createIndexes hd htarget (fresh_provides (Function.update_self ..))
  have hfree : ∀ t ∈ w.d.created, now t.name = none := by
    intro t ht
    refine hs.others _ (h.created_unmatched ht) (fun hmem => ?_) (by simp)
    obtain ⟨t', _, heq⟩ := List.mem_map.mp hmem
    have hname := h.created_target (List.mem_map_of_mem ht)
    rw [← heq] at hname
    exact h.held_unmatched hh t' hname
  obtain ⟨now', hrun, hout, hframe⟩ := runSteps_each (P := fun t s => s t.name = none)
    h.created_names (fun t _ t' _ hne s hs => by rwa [Function.update_of_ne hne]) hprog hfree
  refine ⟨now', hrun, fun m hm => ?_, fun t ht => ?_, hout, fun name hm hdrop hn => ?_⟩
  · rw [hframe, hs.matched m hm]
    intro hmem
    obtain ⟨t, ht, heq⟩ := List.mem_map.mp hmem
    exact h.created_unmatched ht (heq ▸ List.mem_map_of_mem hm)
  · rw [hframe, hs.dropped t ht]
    exact fun hmem => h.held_unmatched hh t (h.created_target hmem)
  · rw [hframe name hn]
    exact hs.others name hm hdrop (by simp)

theorem Accepted.change_columns (h : Accepted w.r source p w.d) (hh : w.holds = holdPrefix hash)
    (hc : Starts source c) (hs : Stage w c now (hiddenTable w) (heldName w) w.d.created) :
    ∃ now', runSteps (exec v) (w.columnGroup.map Step.statement) now = some now' ∧
      Stage w c now' (finalTable v w) (heldName w) w.d.created := by
  have hwork : now rebuildTable = none := by
    refine hs.others _ (fun hm => ?_) (fun hm => ?_) fun hm => ?_
    · exact rebuildTable_unnamed (h.target_named (h.matched_target hm))
    · obtain ⟨t, _, heq⟩ := List.mem_map.mp hm
      exact hold_ne_rebuild hh _ heq
    · exact rebuildTable_unnamed (h.target_named (h.created_target hm))
  have hne : ∀ m ∈ w.d.matched, m.name ≠ rebuildTable := fun m hm heq =>
    rebuildTable_unnamed (heq ▸ h.target_named (h.matched_target (List.mem_map_of_mem hm)))
  unfold PlanWriter.columnGroup
  rw [List.map_flatMap]
  refine hs.each h (P := fun s => s rebuildTable = none) (fun m hm s hstate hnone => ?_)
    (fun m hm s x hnone => ?_) hwork
    (fun t _ hmem => h.held_unmatched hh t (h.matched_target hmem))
    fun t ht => h.created_unmatched ht
  · obtain ⟨r, hr, hof⟩ := h.stored hc hm
    have hsound := h.sound hm
    have hheld := held_of_mem hh hm
    rw [hr, Option.map_some] at hstate ⊢
    unfold hiddenTable at hstate
    unfold finalTable
    cases hsqlite : w.sqlite with
    | false =>
      simp only [hsqlite, Bool.false_eq_true, if_false] at hstate ⊢
      exact columns_turns hsound hheld hof s hstate
    | true =>
      simp only [hsqlite, if_true] at hstate ⊢
      by_cases hrebuilt : w.rebuilt m = true
      · simp only [hrebuilt, if_true]
        exact rebuild_run h.parsed.target.each (h.matched_spec hm).2.1 hsound hheld hof (hne m hm)
          hstate hnone
      · simp only [hrebuilt, Bool.false_eq_true, if_false]
        rw [← hstate, Function.update_eq_self]
        rfl
  · rwa [Function.update_of_ne (hne m hm).symm]

/-- A table that is not rebuilt keeps its columns. -/
theorem finalTable_moved {m : Match} {r : Relation V} (hm : m.Sound) (hw : Held w m)
    (hr : r.Of m.source) : Moved v w m r (finalTable v w m r) := by
  unfold finalTable
  split
  · next hsqlite =>
    split
    · exact rebuiltTable_moved hm hw hr
    · next hkept =>
      have hsame : r.renamed m.renames = alteredTable v w m r := by
        unfold PlanWriter.rebuilt PlanWriter.sqliteRebuilds at hkept
        simp only [hsqlite, Bool.true_and, Bool.or_eq_true, decide_eq_true_eq, not_or,
          ne_eq, not_not] at hkept
        obtain ⟨⟨⟨⟨⟨⟨_, hadded⟩, hremoved⟩, haltered⟩, _⟩, _⟩, _⟩ := hkept
        unfold alteredTable widenedTable alterChanges hideChanges Match.addedColumns
        rw [hadded, hremoved, haltered]
        rfl
      rw [hsame]
      exact alteredTable_moved hm hw hr
  · exact alteredTable_moved hm hw hr

end Stages

section Objects
variable {names : List String} {t : Table}

/-- The statement concerns an object of one of the tables that a drop or a creation needs there. -/
def Statement.Touches (names : List String) : Statement → Prop
  | .dropObject table _ _ | .createTrigger table _ | .dropTrigger table _ => table ∈ names
  | .createFunction _ | .dropFunction _ => True
  | _ => False

theorem exec_touches {s : Statement} (hs : s.Touches names) (hc : ∀ n ∈ names, (c n).isSome) :
    exec v s c = some c := by
  cases s with
  | dropObject table _ _ => exact if_pos (hc table hs)
  | createTrigger table _ => exact if_pos (hc table hs)
  | dropTrigger table _ => exact if_pos (hc table hs)
  | createFunction _ => rfl
  | dropFunction _ => rfl
  | _ => cases hs

theorem dropTriggers_touches (ht : t.name ∈ names) {s : Step Statement} (hs : s ∈ w.dropTriggers t) :
    s.statement.Touches names := by
  obtain ⟨part, _, hs⟩ := List.mem_flatMap.mp hs
  rcases List.mem_cons.mp hs with rfl | hs
  · exact ht
  · split at hs
    · rw [List.mem_singleton.mp hs]
      exact trivial
    · cases hs

theorem createTriggers_touches (ht : t.name ∈ names) {s : Step Statement}
    (hs : s ∈ w.createTriggers t) : s.statement.Touches names := by
  obtain ⟨part, _, hs⟩ := List.mem_flatMap.mp hs
  rcases List.mem_append.mp hs with hs | hs
  · split at hs
    · rw [List.mem_singleton.mp hs]
      exact trivial
    · cases hs
  · rw [List.mem_singleton.mp hs]
    exact ht

theorem dropObject_touches (ht : t.name ∈ names) {o : ObjectRef} {s : Step Statement}
    (hs : s ∈ w.dropObject t o) : s.statement.Touches names := by
  obtain ⟨x, _, rfl⟩ := List.mem_map.mp hs
  exact ht

/-- The sources of the matched and the dropped tables. -/
def changedSources (w : PlanWriter) : List String :=
  w.d.matched.map (fun m => m.source.name) ++ w.d.dropped.map Table.name

theorem matched_changed {m : Match} (hm : m ∈ w.d.matched) : m.source.name ∈ changedSources w :=
  List.mem_append_left _ (List.mem_map.mpr ⟨m, hm, rfl⟩)

theorem dropped_changed (ht : t ∈ w.d.dropped) : t.name ∈ changedSources w :=
  List.mem_append_right _ (List.mem_map_of_mem ht)

/-- The groups before the renames drop objects and triggers of the source tables. -/
theorem drops_touch {s : Step Statement} (hs : s ∈ w.dropTriggersGroup ++ w.dropForeignKeysGroup ++
      w.dropObjectsGroup ++ w.dropRendererChecksGroup) : s.statement.Touches (changedSources w) := by
  rcases List.mem_append.mp hs with hs | hs
  rcases List.mem_append.mp hs with hs | hs
  rcases List.mem_append.mp hs with hs | hs
  · rcases List.mem_append.mp hs with hs | hs
    · obtain ⟨m, hm, hs⟩ := List.mem_flatMap.mp hs
      split at hs
      · exact dropTriggers_touches (matched_changed hm) hs
      · cases hs
    · obtain ⟨t, ht, hs⟩ := List.mem_flatMap.mp hs
      split at hs
      · exact dropTriggers_touches (dropped_changed ht) hs
      · cases hs
  · unfold PlanWriter.dropForeignKeysGroup at hs
    split at hs
    · cases hs
    · obtain ⟨x, hx, hs⟩ := List.mem_flatMap.mp hs
      obtain ⟨o, _, hs⟩ := List.mem_flatMap.mp hs
      refine dropObject_touches ?_ hs
      rcases List.mem_append.mp (mem_sortedEntries.mp hx) with hx | hx
      · obtain ⟨m, hm, rfl⟩ := List.mem_map.mp hx
        exact matched_changed hm
      · obtain ⟨t, ht, rfl⟩ := List.mem_map.mp hx
        exact dropped_changed ht
  · obtain ⟨x, hx, hs⟩ := List.mem_flatMap.mp hs
    obtain ⟨o, _, hs⟩ := List.mem_flatMap.mp hs
    refine dropObject_touches ?_ hs
    rcases List.mem_append.mp (mem_sortedEntries.mp hx) with hx | hx
    · obtain ⟨m, hm, rfl⟩ := List.mem_map.mp hx
      exact matched_changed (List.mem_of_mem_filter hm)
    · obtain ⟨t, ht, rfl⟩ := List.mem_map.mp hx
      exact dropped_changed ht
  · unfold PlanWriter.dropRendererChecksGroup at hs
    split at hs
    · cases hs
    · rcases List.mem_append.mp hs with hs | hs
      · obtain ⟨m, hm, hs⟩ := List.mem_flatMap.mp hs
        obtain ⟨k, _, rfl⟩ := List.mem_map.mp hs
        exact matched_changed hm
      · obtain ⟨t, ht, hs⟩ := List.mem_flatMap.mp hs
        obtain ⟨k, _, rfl⟩ := List.mem_map.mp hs
        exact dropped_changed ht

theorem Accepted.run_drops (h : Accepted w.r source p w.d) (hc : Starts source c) :
    runSteps (exec v) ((w.dropTriggersGroup ++ w.dropForeignKeysGroup ++ w.dropObjectsGroup ++
      w.dropRendererChecksGroup).map Step.statement) c = some c := by
  refine runSteps_same fun a ha => ?_
  obtain ⟨s, hs, rfl⟩ := List.mem_map.mp ha
  refine exec_touches (drops_touch hs) fun n hn => ?_
  rcases List.mem_append.mp hn with hn | hn
  · obtain ⟨m, hm, rfl⟩ := List.mem_map.mp hn
    exact hc.isSome.mpr (List.mem_map_of_mem (h.matched_spec hm).1)
  · obtain ⟨t, ht, rfl⟩ := List.mem_map.mp hn
    exact hc.isSome.mpr (List.mem_map_of_mem (h.dropped_spec ht).1)

/-- The groups after the column changes find the columns of the target tables. -/
theorem Accepted.adds_same (h : Accepted w.r source p w.d)
    (hnow : ∀ t ∈ p.schema.tables, now.Provides t) {s : Step Statement}
    (hs : s ∈ w.addObjectsGroup ++ w.addForeignKeysGroup ++ w.createTriggersGroup) :
    exec v s.statement now = some now := by
  have hd := h.parsed.target.each
  have hmatched : ∀ m ∈ w.d.matched, m.target ∈ p.schema.tables := fun m hm =>
    (h.matched_spec hm).2.1
  have hcreated : ∀ t ∈ w.d.created, t ∈ p.schema.tables := fun t ht => (h.mem_created.mp ht).1
  have hsome : ∀ n ∈ p.schema.tables.map Table.name, (now n).isSome := by
    intro n hn
    obtain ⟨t, ht, rfl⟩ := List.mem_map.mp hn
    obtain ⟨r, hr, _⟩ := hnow t ht
    rw [hr]
    rfl
  have hadd : ∀ t ∈ p.schema.tables, ∀ o, s ∈ w.addObject t o → exec v s.statement now = some now :=
    fun t ht o hs => exec_addObject hd ht (hnow t ht) (fun _ => hnow) hs
  rcases List.mem_append.mp hs with hs | hs
  rcases List.mem_append.mp hs with hs | hs
  · rcases List.mem_append.mp hs with hs | hs
    · obtain ⟨m, hm, hs⟩ := List.mem_flatMap.mp hs
      split at hs
      · cases hs
      · obtain ⟨o, _, hs⟩ := List.mem_flatMap.mp hs
        exact hadd _ (hmatched m hm) o hs
    · split at hs
      · cases hs
      · obtain ⟨m, hm, hs⟩ := List.mem_flatMap.mp hs
        obtain ⟨k, hk, rfl⟩ := List.mem_map.mp hs
        obtain ⟨col, hcol, hk⟩ := List.mem_filterMap.mp
          (List.mem_of_mem_filter (mem_sortedEntries.mp hk))
        obtain ⟨x, hx, rfl⟩ := Option.map_eq_some_iff.mp hk
        have hthere : now.has m.target.name [x.column] := by
          refine (hnow _ (hmatched m hm)).has fun n hn => ?_
          rw [List.mem_singleton.mp hn, typeCheck_column hx]
          exact List.mem_map_of_mem hcol
        exact if_pos (Bool.and_eq_true_iff.mpr ⟨hthere, rfl⟩)
  · unfold PlanWriter.addForeignKeysGroup at hs
    split at hs
    · cases hs
    · rcases List.mem_append.mp hs with hs | hs
      · obtain ⟨t, ht, hs⟩ := List.mem_flatMap.mp hs
        obtain ⟨f, _, hs⟩ := List.mem_flatMap.mp hs
        exact hadd t (hcreated t ht) _ hs
      · obtain ⟨m, hm, hs⟩ := List.mem_flatMap.mp hs
        obtain ⟨o, _, hs⟩ := List.mem_flatMap.mp hs
        exact hadd _ (hmatched m hm) o hs
  · refine exec_touches ?_ hsome
    rcases List.mem_append.mp hs with hs | hs
    · obtain ⟨t, ht, hs⟩ := List.mem_flatMap.mp hs
      exact createTriggers_touches (List.mem_map_of_mem (hcreated t ht)) hs
    · obtain ⟨m, hm, hs⟩ := List.mem_flatMap.mp hs
      split at hs
      · exact createTriggers_touches (List.mem_map_of_mem (hmatched m hm)) hs
      · cases hs

end Objects

section Run
variable {hash : String}

/-- What a plan makes of a catalog of the source. -/
structure Migrated (v : RowValues V) (w : PlanWriter) (source : Option Document) (p : Plan)
    (c c' : Catalog V) : Prop where
  targets : ∀ t ∈ p.schema.tables, t ∈ w.d.created ∨ ∃ m ∈ w.d.matched, m.target = t
  sources : ∀ s ∈ sources source, s ∈ w.d.dropped ∨ ∃ m ∈ w.d.matched, m.source = s
  created : ∀ t ∈ w.d.created, c' t.name = some (.fresh t.columns)
  matched : ∀ m ∈ w.d.matched, ∃ r r', c m.source.name = some r ∧ c' m.name = some r' ∧
    Moved v w m r r'
  dropped : ∀ t ∈ w.d.dropped, c' (heldName w t) = c t.name
  others : ∀ name, (c' name).isSome → name ∈ p.schema.tables.map Table.name ∨
    ∃ t ∈ w.d.dropped, name = heldName w t

theorem Moved.names {m : Match} {r r' : Relation V} (h : Moved v w m r r') :
    ∀ n ∈ m.target.columnNames, n ∈ r'.names := by
  intro n hn
  obtain ⟨col, hcol, rfl⟩ := List.mem_map.mp hn
  rw [← h.columns] at hcol
  obtain ⟨k, hk, rfl⟩ := List.mem_map.mp (List.mem_of_mem_filter hcol)
  exact Relation.mem_names hk

theorem Stage.migrated (h : Accepted w.r source p w.d) (hh : w.holds = holdPrefix hash)
    (hc : Starts source c) (hs : Stage w c now (finalTable v w) (heldName w) w.d.created) :
    Migrated v w source p c now where
  targets := fun t ht => h.target_cases ht
  sources := fun s hs => h.source_cases hs
  created := hs.created
  matched := by
    intro m hm
    obtain ⟨r, hr, hof⟩ := h.stored hc hm
    refine ⟨r, finalTable v w m r, hr, ?_, finalTable_moved (h.sound hm) (held_of_mem hh hm) hof⟩
    rw [hs.matched m hm, hr, Option.map_some]
  dropped := hs.dropped
  others := by
    intro name hsome
    by_cases htarget : name ∈ p.schema.tables.map Table.name
    · exact .inl htarget
    · refine .inr ?_
      by_contra hnot
      rw [hs.others name (fun hm => htarget (h.matched_target hm)) (fun hm => ?_)
        fun hm => htarget (h.created_target hm)] at hsome
      · cases hsome
      · obtain ⟨t, ht, heq⟩ := List.mem_map.mp hm
        exact hnot ⟨t, ht, heq.symm⟩

theorem Migrated.provides (h : Migrated v w source p c now) :
    ∀ t ∈ p.schema.tables, now.Provides t := by
  intro t ht
  rcases h.targets t ht with hcreated | ⟨m, hm, rfl⟩
  · exact fresh_provides (h.created t hcreated)
  · obtain ⟨r, r', _, hr', hmoved⟩ := h.matched m hm
    exact ⟨r', hr', hmoved.names⟩

theorem forwardSteps_eq : w.forwardSteps =
    (w.dropTriggersGroup ++ w.dropForeignKeysGroup ++ w.dropObjectsGroup ++
      w.dropRendererChecksGroup) ++ (w.renameGroup ++ (w.hideGroup ++ (w.createGroup ++
      (w.columnGroup ++ (w.addObjectsGroup ++ w.addForeignKeysGroup ++ w.createTriggersGroup))))) := by
  simp only [PlanWriter.forwardSteps, List.append_assoc]

/-- A plan whose renames take each name once runs, group after group. -/
theorem Accepted.migrates (h : Accepted w.r source p w.d) (hh : w.holds = holdPrefix hash)
    (honce : RenamesOnce p) (hc : Starts source c) :
    ∃ c', runStatements v w.forwardSteps c = some c' ∧ Migrated v w source p c c' := by
  obtain ⟨c₁, hrun₁, hs₁⟩ := h.rename_stage (v := v) honce hc
  obtain ⟨c₂, hrun₂, hs₂⟩ := h.hide_stage (v := v) hh hc hs₁
  obtain ⟨c₃, hrun₃, hs₃⟩ := h.create_tables (v := v) hh hs₂
  obtain ⟨c₄, hrun₄, hs₄⟩ := h.change_columns (v := v) hh hc hs₃
  have hmigrated := hs₄.migrated h hh hc
  refine ⟨c₄, ?_, hmigrated⟩
  unfold runStatements
  rw [forwardSteps_eq, List.map_append, runSteps_append_of (h.run_drops hc), List.map_append,
    runSteps_append_of hrun₁, List.map_append, runSteps_append_of hrun₂, List.map_append,
    runSteps_append_of hrun₃, List.map_append, runSteps_append_of hrun₄]
  refine runSteps_same fun a ha => ?_
  obtain ⟨s, hs, rfl⟩ := List.mem_map.mp ha
  exact h.adds_same hmigrated.provides hs

/-- A plan that runs takes each name once. -/
theorem Accepted.once_of_run (h : Accepted w.r source p w.d) (hc : Starts source c)
    (hrun : runStatements v w.forwardSteps c = some now) : RenamesOnce p := by
  unfold runStatements at hrun
  rw [forwardSteps_eq, List.map_append, runSteps_append_of (h.run_drops hc), List.map_append,
    runSteps_append_eq_some] at hrun
  obtain ⟨c₁, hrename, _⟩ := hrun
  exact h.renames_once hrename

/-- The source without rows. -/
def emptyCatalog (source : Option Document) : Catalog V := fun name =>
  (sourceTable source name).map fun t => .fresh t.columns

theorem emptyCatalog_starts (hs : ((sources source).map Table.name).Nodup) :
    Starts source (emptyCatalog source : Catalog V) where
  stored := by
    intro t ht
    obtain ⟨t', ht'⟩ := Option.isSome_iff_exists.mp
      (sourceTable_isSome_iff.mpr (List.mem_map_of_mem ht))
    obtain ⟨hmem, hname⟩ := sourceTable_mem ht'
    obtain rfl : t' = t := List.inj_on_of_nodup_map hs hmem ht hname
    refine ⟨.fresh t'.columns, ?_, ?_⟩
    · unfold emptyCatalog
      rw [ht', Option.map_some]
    · simp [Relation.Of, Function.comp_def]
  others := by
    intro name hname
    unfold emptyCatalog
    rw [← sourceTable_isSome_iff, Option.not_isSome_iff_eq_none] at hname
    rw [hname, Option.map_none]

end Run

section Final
open PlanWriter

/-- None of the steps runs only when the plan is finalized. -/
def Forward (l : List (Step Statement)) : Prop := ∀ s ∈ l, s.finalize = false

variable {l l' : List (Step Statement)} {α : Type} {items : List α}

@[simp] theorem forward_nil : Forward [] := by simp [Forward]

@[simp] theorem forward_cons {s : Step Statement} :
    Forward (s :: l) ↔ s.finalize = false ∧ Forward l := by simp [Forward]

@[simp] theorem forward_append : Forward (l ++ l') ↔ Forward l ∧ Forward l' := by
  simp [Forward, or_imp, forall_and]

@[simp] theorem forward_map {f : α → Step Statement} :
    Forward (items.map f) ↔ ∀ a ∈ items, (f a).finalize = false := by simp [Forward]

@[simp] theorem forward_flatMap {f : α → List (Step Statement)} :
    Forward (items.flatMap f) ↔ ∀ a ∈ items, Forward (f a) := by
  simp only [Forward, List.mem_flatMap]
  exact ⟨fun h a ha s hs => h s ⟨a, ha, hs⟩, fun h s ⟨a, ha, hs⟩ => h a ha s hs⟩

@[simp] theorem forward_ite {P : Prop} [Decidable P] :
    Forward (if P then l else l') ↔ (P → Forward l) ∧ (¬ P → Forward l') := by
  split <;> simp [*]

@[simp] theorem step_finalize {s : Statement} {back : Option Statement} {e : Effect} :
    (step s back e).finalize = false := rfl

theorem forward_dropObject {t : Table} {o : ObjectRef} : Forward (w.dropObject t o) := by
  simp [dropObject]

theorem forward_addObject {t : Table} {o : ObjectRef} : Forward (w.addObject t o) := by
  simp [addObject]

theorem forward_alterColumn {table : String} {old new : Column} :
    Forward (w.alterColumn table old new) := by
  simp [alterColumn, modifySteps, typeSteps, nullSteps, defaultSteps]

theorem forward_rebuild {m : Match} : Forward (w.rebuild m) := by
  have hempty : (w.emptyRows m).finalize = false := by
    unfold emptyRows
    split <;> rfl
  simp [rebuild, whenIdentity, createIndexes, copyRows, PlanWriter.sequence, unsequence, hempty,
    forward_dropObject, forward_addObject]

theorem forward_columnGroup : Forward w.columnGroup := by
  have halter : ∀ m, Forward (w.alterColumns m) := by
    intro m
    unfold alterColumns
    rw [forward_flatMap]
    intro n _
    split
    · exact forward_alterColumn
    · exact forward_nil
  simp [columnGroup, addColumns, addColumn, forward_rebuild, halter]

theorem forward_steps : Forward w.forwardSteps := by
  have hdrops : Forward (w.dropTriggersGroup ++ w.dropForeignKeysGroup ++ w.dropObjectsGroup ++
      w.dropRendererChecksGroup) := by
    simp [dropTriggersGroup, dropForeignKeysGroup, dropObjectsGroup, dropRendererChecksGroup,
      dropTriggers, dropRendererCheck, forward_dropObject]
  have hmoves : Forward w.renameGroup ∧ Forward w.hideGroup ∧ Forward w.createGroup := by
    simp [renameGroup, renameTableStep, renameColumnStep, hideGroup, hideColumns, hideColumn,
      loosenColumn, createGroup, createTable, createIndexes, forward_addObject]
  have hadds : Forward (w.addObjectsGroup ++ w.addForeignKeysGroup ++ w.createTriggersGroup) := by
    simp [addObjectsGroup, addForeignKeysGroup, createTriggersGroup, createTriggers,
      addRendererCheck, forward_addObject]
  rw [forwardSteps_eq]
  simp only [forward_append (l := _ ++ w.dropRendererChecksGroup), hdrops, hmoves,
    forward_columnGroup, forward_append, true_and]
  simpa only [forward_append] using hadds

/-- The finalize steps start after the forward steps. -/
theorem take_finalizeStart : w.steps.take (finalizeStart w.steps) = w.forwardSteps := by
  have hfinal : ∀ s ∈ w.finalizeGroup, s.finalize = true := by
    intro s hs
    rcases List.mem_append.mp hs with hs | hs
    · obtain ⟨m, _, hs⟩ := List.mem_flatMap.mp hs
      obtain ⟨n, _, rfl⟩ := List.mem_map.mp hs
      rfl
    · obtain ⟨t, _, rfl⟩ := List.mem_map.mp hs
      rfl
  have htake : w.steps.take (finalizeStart w.steps) = w.steps.takeWhile fun s => !s.finalize := by
    rw [List.takeWhile_eq_take_findIdx_not]
    simp [finalizeStart]
  rw [htake, steps, List.takeWhile_append_of_pos fun s hs => by simp [forward_steps s hs]]
  cases hgroup : w.finalizeGroup with
  | nil => simp
  | cons s l => simp [hfinal s (hgroup ▸ List.mem_cons_self)]

end Final

/-- The writer of the steps of a plan. -/
def writer (R : Renderer) (p : Plan) (d : Diff) (dialect : Orm.Engine.Dialect) : PlanWriter :=
  ⟨R, dialect, d, holdPrefix p.to⟩

theorem planSteps_eq {R : Renderer} {d : Diff} (h : planDiff source p R = .ok d)
    (dialect : Orm.Engine.Dialect) :
    planSteps R source p dialect = .ok (writer R p d dialect).steps := by
  unfold planSteps
  rw [h]
  rfl

/-- The steps before the finalize steps turn every catalog of the source into one of the target with
its rows, in every dialect, exactly when no rename takes a name that another one takes. -/
theorem planSteps_migrate_iff {R : Renderer} {d : Diff} (h : Accepted R source p d)
    (dialect : Orm.Engine.Dialect) :
    ∃ steps, planSteps R source p dialect = .ok steps ∧
      ((∀ (V : Type) (v : RowValues V) (c : Catalog V), Starts source c →
        ∃ c', runStatements v (steps.take (finalizeStart steps)) c = some c' ∧
          Migrated v (writer R p d dialect) source p c c') ↔ RenamesOnce p) := by
  refine ⟨_, planSteps_eq h.diff dialect, fun hall => ?_, fun honce V v c hc => ?_⟩
  · obtain ⟨c', hrun, _⟩ := hall Unit ⟨fun _ => (), fun _ _ => ()⟩ _
      (emptyCatalog_starts h.names_nodup)
    rw [take_finalizeStart] at hrun
    exact Accepted.once_of_run (w := writer R p d dialect) h (emptyCatalog_starts h.names_nodup) hrun
  · rw [take_finalizeStart]
    exact Accepted.migrates (w := writer R p d dialect) h rfl honce hc

section Examples

/-- A table with one key column. -/
def keyTable (name : String) : Table :=
  ⟨name, [⟨"id", .i64, false, false, none⟩], ["id"], [], [], [], [], []⟩

def keyDocument (names : List String) : Document := ⟨names.map keyTable, String.join names⟩

/-- A renderer without triggers. -/
def plainRenderer : Renderer := ⟨fun _ _ => [], id⟩

/-- A plan from table `a` that renames it to each of the names. -/
def renamePlan (names : List String) : Plan :=
  ⟨"rename", some "a", names.map (⟨"a", ·⟩), [], [], [], keyDocument names⟩

theorem keyDocument_constraints {names : List String} :
    (keyDocument names).constraintNames = [] :=
  List.flatMap_eq_nil_iff.mpr fun t ht => by
    obtain ⟨n, _, rfl⟩ := List.mem_map.mp ht
    rfl

theorem keyDocument_valid {names : List String} (hnames : names.Nodup)
    (hvalid : ∀ n ∈ names, validName n)
    (hgenerated : ((keyDocument names).generatedNames id).Nodup) : (keyDocument names).Valid id where
  tables := by
    simpa [keyDocument, keyTable, Function.comp_def] using hnames
  each := by
    intro t ht
    obtain ⟨n, hn, rfl⟩ := List.mem_map.mp ht
    exact {
      named := hvalid n hn
      columnsNamed := (by decide : ∀ c ∈ ["id"], validName c)
      columns := (by decide : ["id"].Nodup)
      keys := (by decide : ∀ k ∈ [["id"]], k ≠ [] ∧ k.Nodup ∧ ∀ c ∈ k, c ∈ ["id"])
      foreignKeys := by simp [keyTable]
      checks := by simp [keyTable] }
  constraintsNamed := by simp [keyDocument_constraints]
  constraints := by simp [keyDocument_constraints]
  apart := by simp [keyDocument_constraints]
  generated := hgenerated

theorem planDiff_ok {R : Renderer} (hfrom : source.map Document.schemaHash = p.from_)
    (herrors : planErrors source p = []) : ∃ d, planDiff source p R = .ok d := by
  unfold planDiff
  rw [if_neg (not_not.mpr hfrom), if_neg (not_not.mpr herrors)]
  exact ⟨_, rfl⟩

theorem renamePlan_accepted {names : List String} (hnames : names.Nodup)
    (hvalid : ∀ n ∈ names, validName n)
    (hgenerated : ((keyDocument names).generatedNames id).Nodup)
    (herrors : planErrors (some (keyDocument ["a"])) (renamePlan names) = []) :
    ∃ d, Accepted plainRenderer (some (keyDocument ["a"])) (renamePlan names) d := by
  obtain ⟨d, hd⟩ := planDiff_ok (R := plainRenderer) rfl herrors
  refine ⟨d, ?_, ⟨keyDocument_valid hnames hvalid hgenerated, ?_, List.nodup_nil⟩, hd⟩
  · rintro s hs
    cases hs
    exact keyDocument_valid (by decide) (by decide) (by decide)
  · simpa [renamePlan, Function.comp_def] using hnames

/-- One rename of a table migrates. -/
theorem planSteps_migrate_rename : ∃ d,
    Accepted plainRenderer (some (keyDocument ["a"])) (renamePlan ["b"]) d ∧
      RenamesOnce (renamePlan ["b"]) ∧ ∀ dialect, ∃ steps,
        planSteps plainRenderer (some (keyDocument ["a"])) (renamePlan ["b"]) dialect = .ok steps ∧
        ((∀ (V : Type) (v : RowValues V) (c : Catalog V), Starts (some (keyDocument ["a"])) c →
          ∃ c', runStatements v (steps.take (finalizeStart steps)) c = some c' ∧
            Migrated v (writer plainRenderer (renamePlan ["b"]) d dialect)
              (some (keyDocument ["a"])) (renamePlan ["b"]) c c') ↔ RenamesOnce (renamePlan ["b"])) := by
  have haccepted : ∃ d, Accepted plainRenderer (some (keyDocument ["a"])) (renamePlan ["b"]) d :=
    renamePlan_accepted (by decide) (by decide) (by decide) (by decide +kernel)
  obtain ⟨d, hd⟩ := haccepted
  exact ⟨d, hd, by decide, planSteps_migrate_iff hd⟩

/-- Two renames of one table are accepted, and the second finds no table. -/
theorem planSteps_migrate_fails : ∃ d,
    Accepted plainRenderer (some (keyDocument ["a"])) (renamePlan ["b", "c"]) d ∧
      ∀ dialect steps, planSteps plainRenderer (some (keyDocument ["a"]))
          (renamePlan ["b", "c"]) dialect = .ok steps →
        ¬ ∀ (V : Type) (v : RowValues V) (c : Catalog V), Starts (some (keyDocument ["a"])) c →
          ∃ c', runStatements v (steps.take (finalizeStart steps)) c = some c' := by
  have haccepted : ∃ d, Accepted plainRenderer (some (keyDocument ["a"])) (renamePlan ["b", "c"]) d :=
    renamePlan_accepted (by decide) (by decide) (by decide) (by decide +kernel)
  obtain ⟨d, hd⟩ := haccepted
  refine ⟨d, hd, fun dialect steps hsteps hall => ?_⟩
  rw [planSteps_eq hd.diff dialect] at hsteps
  obtain rfl := Except.ok.inj hsteps
  obtain ⟨c', hrun⟩ := hall Unit ⟨fun _ => (), fun _ _ => ()⟩ _ (emptyCatalog_starts hd.names_nodup)
  rw [take_finalizeStart] at hrun
  have honce : RenamesOnce (renamePlan ["b", "c"]) := Accepted.once_of_run
    (w := writer plainRenderer (renamePlan ["b", "c"]) d dialect) hd
    (emptyCatalog_starts hd.names_nodup) hrun
  exact absurd honce (by decide)

end Examples

end Orm.Dbspec
