import Orm.Dbspec.Migrate
import Orm.Dbspec.PlanText

/-! The renames of an accepted plan text pair source names with target names. -/
namespace Orm.Dbspec

open Orm.Engine (Dialect)
open Orm.Logic (runSteps runSteps_append_eq_some)

variable {R : Renderer} {source : Option Document} {p : Plan} {d : Diff}

/-- The statement renames a table or a column. -/
def Statement.renames : Statement → Bool
  | .renameTable _ _ | .renameColumn _ _ _ => true
  | _ => false

/-- The renames are a partial injection from source to target names, every table has one role, and
every rename step finds its old name. -/
structure Paired (R : Renderer) (source : Option Document) (p : Plan) (d : Diff) : Prop where
  oldTables : (p.renameTables.map TableRename.old).Nodup
  oldColumns : (p.renameColumns.map fun r => (r.table, r.old)).Nodup
  newTables : (p.renameTables.map TableRename.new).Nodup
  newColumns : (p.renameColumns.map fun r => (r.table, r.new)).Nodup
  tables : ∀ r ∈ p.renameTables, ∃ m ∈ d.matched, m.source.name = r.old ∧ m.name = r.new
  columns : ∀ r ∈ p.renameColumns, ∃ m ∈ d.matched, m.name = r.table ∧ (r.new, r.old) ∈ m.columnOf
  tableOf : (d.matched.map Match.name).Nodup ∧ (d.matched.map fun m => m.source.name).Nodup
  columnOf : ∀ m ∈ d.matched, (m.columnOf.map Prod.fst).Nodup ∧ (m.columnOf.map Prod.snd).Nodup
  targets : ∀ t ∈ p.schema.tables, Xor (t ∈ d.created) (∃ m ∈ d.matched, m.target = t)
  sources : ∀ s ∈ sources source, Xor (s ∈ d.dropped ∧ s.name ∈ p.dropTables)
    (∃ m ∈ d.matched, m.source = s)
  found : ∀ (dialect : Dialect) (V : Type) (v : RowValues V) (c : Catalog V), Starts source c →
    ∀ before step after, (writer R p d dialect).forwardSteps = before ++ step :: after →
      step.statement.renames →
      ∃ c', runStatements v before c = some c' ∧ (exec v step.statement c').isSome

/-- Every step of a program that runs finds what it needs. -/
theorem runStatements_found {V : Type} {v : RowValues V} {c c' : Catalog V}
    {before after : List (Step Statement)} {step : Step Statement}
    (h : runStatements v (before ++ step :: after) c = some c') :
    ∃ c₁, runStatements v before c = some c₁ ∧ (exec v step.statement c₁).isSome := by
  unfold runStatements at h ⊢
  rw [List.map_append, runSteps_append_eq_some] at h
  obtain ⟨c₁, hbefore, hstep⟩ := h
  obtain ⟨c₂, hexec, _⟩ := Option.bind_eq_some_iff.mp hstep
  exact ⟨c₁, hbefore, Option.isSome_iff_exists.mpr ⟨c₂, hexec⟩⟩

section Accepted
variable (h : Accepted R source p d)
include h

theorem Accepted.rename_matched (honce : (p.renameTables.map TableRename.old).Nodup)
    {r : TableRename} (hr : r ∈ p.renameTables) :
    ∃ m ∈ d.matched, m.source.name = r.old ∧ m.name = r.new := by
  have hmem : (r.old, r.new) ∈ tableMap source p := h.mem_tableMap.mpr hr
  obtain ⟨hold, _, hnew⟩ := h.tableMap_spec hmem
  obtain ⟨s, hs, hsname⟩ := List.mem_map.mp hold
  obtain ⟨t, ht, htname⟩ := List.mem_map.mp hnew
  have htarget := Accepted.targetName_of_mem (w := writer R p d .mysql) h honce hmem hsname
  exact ⟨_, h.mem_matched.mpr ⟨(s, t), h.mem_matchedTables.mpr ⟨hs, ht, htarget.trans htname.symm⟩,
    rfl⟩, hsname, htname⟩

theorem Accepted.rename_columnOf (honce : (p.renameColumns.map fun r => (r.table, r.old)).Nodup)
    {r : ColumnRename} (hr : r ∈ p.renameColumns) :
    ∃ m ∈ d.matched, m.name = r.table ∧ (r.new, r.old) ∈ m.columnOf := by
  obtain ⟨src, tgt, hx, hname, hold, _, hnew⟩ := h.columnRename_spec hr
  refine ⟨_, h.mem_matched.mpr ⟨(src, tgt), hx, rfl⟩, hname, mem_columnPairs.mpr ⟨hold, hnew, ?_⟩⟩
  have hcolumns : (((columnRenames source p).map fun r => (r.table, r.old))).Nodup :=
    (h.columnRenames_perm.map _).nodup_iff.mpr honce
  have hmem : (r.old, r.new) ∈ columnMap source p tgt := h.mem_columnMap.mpr (hname ▸ hr)
  have hnodup : ((columnMap source p tgt).map Prod.fst).Nodup := renamesOf_nodup hcolumns
  have hget := mapGet_eq_some hnodup hmem
  rw [renamedOr]
  exact congrArg (Option.getD · r.old) hget

theorem Accepted.paired (honce : RenamesOnce p) : Paired R source p d where
  oldTables := honce.1
  oldColumns := honce.2
  newTables := h.parsed.tables
  newColumns := h.parsed.columns
  tables := fun _ hr => h.rename_matched honce.1 hr
  columns := fun _ hr => h.rename_columnOf honce.2 hr
  tableOf := by
    refine ⟨Accepted.matched_names (w := writer R p d .mysql) h, ?_⟩
    have hsources := h.sources_nodup
    rw [(planDiff_eq h.diff).2.2.1, List.map_map]
    rw [List.map_map] at hsources
    exact hsources
  columnOf := by
    intro m hm
    have hsound := h.sound hm
    refine ⟨hsound.columnOf_targets, ?_⟩
    rw [hsound.columnOf]
    exact columnPairs_sources hsound.sourceNodup
  targets := by
    intro t ht
    rcases Accepted.target_cases (w := writer R p d .mysql) h ht with hcreated | hmatched
    · refine .inl ⟨hcreated, ?_⟩
      rintro ⟨m, hm, rfl⟩
      exact Accepted.created_unmatched (w := writer R p d .mysql) h hcreated (List.mem_map_of_mem hm)
    · refine .inr ⟨hmatched, fun hcreated => ?_⟩
      obtain ⟨m, hm, rfl⟩ := hmatched
      exact Accepted.created_unmatched (w := writer R p d .mysql) h hcreated (List.mem_map_of_mem hm)
  sources := by
    intro s hs
    have hapart : s ∈ d.dropped → ¬ ∃ m ∈ d.matched, m.source = s := by
      rintro hd ⟨m, hm, rfl⟩
      obtain ⟨_, hname, hnot⟩ := Accepted.dropped_spec (w := writer R p d .mysql) h hd
      obtain ⟨_, ht, htarget⟩ := Accepted.matched_spec (w := writer R p d .mysql) h hm
      rw [← hname, htarget] at hnot
      exact hnot (List.mem_map_of_mem ht)
    rcases Accepted.source_cases (w := writer R p d .mysql) h hs with hd | hm
    · have hallowed : s.name ∈ p.dropTables := by
        have hdropped : d.dropped = droppedTables source p := (planDiff_eq h.diff).2.1
        exact h.checked.dropsAllowed _ (hdropped ▸ List.mem_map_of_mem hd)
      exact .inl ⟨⟨hd, hallowed⟩, hapart hd⟩
    · exact .inr ⟨hm, fun hd => hapart hd.1 hm⟩
  found := by
    intro dialect V v c hc before step after hsplit _
    obtain ⟨c', hrun, _⟩ := Accepted.migrates (v := v) (w := writer R p d dialect) h rfl honce hc
    rw [hsplit] at hrun
    exact runStatements_found hrun

end Accepted

/-- The renames of an accepted plan text pair the names exactly when none takes a name that another
one takes; the reader of headers looks at the new names only. -/
theorem parsePlan_paired_iff {r : SchemaReader R.digest} {text : String}
    (hparse : parsePlan r text = .ok p) (hsource : ∀ s, source = some s → s.Valid R.digest)
    (hdiff : planDiff source p R = .ok d) : Paired R source p d ↔ RenamesOnce p :=
  ⟨fun h => ⟨h.oldTables, h.oldColumns⟩,
    Accepted.paired ⟨hsource, parsePlan_parsed hparse, hdiff⟩⟩

section Examples

def zeroHash : String := "sha256:" ++ String.ofList (List.replicate 64 '0')

/-- The schema text of tables with a key. -/
def keySchema (names : List String) : String :=
  "dbspec 1 schema\n" ++ String.join (names.map fun n =>
    "\ntable " ++ n ++ " \x7b\n  id i64\n  primary key (id)\n\x7d\n")

/-- The text of a plan that renames table `a`. -/
def renameText (names : List String) : String :=
  "dbplan 1 rename\nfrom " ++ zeroHash ++ "\n" ++
    String.join (names.map fun n => "rename table a " ++ n ++ "\n") ++ "\n" ++ keySchema names

/-- The reader on the schema text of the tables. -/
def keyReader (names : List String) (h : (keyDocument names).Valid plainRenderer.digest) :
    SchemaReader plainRenderer.digest :=
  ⟨fun text => if text = keySchema names then .ok ⟨keyDocument names, h⟩
    else .error [⟨1, "another text"⟩], fun _ => true, fun d => keySchema (d.tables.map Table.name)⟩

def zeroSource : Document := { keyDocument ["a"] with schemaHash := zeroHash }

theorem zeroSource_valid : zeroSource.Valid plainRenderer.digest :=
  let h : (keyDocument ["a"]).Valid id := keyDocument_valid (by decide) (by decide) (by decide)
  ⟨h.tables, fun t ht => ⟨(h.each t ht).named, (h.each t ht).columnsNamed, (h.each t ht).columns,
    (h.each t ht).keys, (h.each t ht).foreignKeys, (h.each t ht).checks⟩, h.constraintsNamed,
    h.constraints, h.apart, h.generated⟩

/-- The plan of the text. -/
def zeroPlan (names : List String) : Plan := { renamePlan names with from_ := some zeroHash }

/-- One rename pairs the names. -/
theorem parsePlan_paired_rename : ∃ (r : SchemaReader plainRenderer.digest) (d : Diff),
    parsePlan r (renameText ["b"]) = .ok (zeroPlan ["b"]) ∧
    planDiff (some zeroSource) (zeroPlan ["b"]) plainRenderer = .ok d ∧ RenamesOnce (zeroPlan ["b"]) ∧
      (Paired plainRenderer (some zeroSource) (zeroPlan ["b"]) d ↔ RenamesOnce (zeroPlan ["b"])) := by
  have hparse : parsePlan (keyReader ["b"] (keyDocument_valid (by decide) (by decide) (by decide)))
      (renameText ["b"]) = .ok (zeroPlan ["b"]) := by decide +kernel
  have hdiff : ∃ d, planDiff (some zeroSource) (zeroPlan ["b"]) plainRenderer = .ok d :=
    planDiff_ok rfl (by decide +kernel)
  obtain ⟨d, hd⟩ := hdiff
  refine ⟨_, d, hparse, hd, by decide, parsePlan_paired_iff hparse (fun s hs => ?_) hd⟩
  cases hs
  exact zeroSource_valid

/-- A text that renames one table twice is accepted. -/
theorem parsePlan_paired_fails : ∃ (r : SchemaReader plainRenderer.digest) (d : Diff),
    parsePlan r (renameText ["b", "c"]) = .ok (zeroPlan ["b", "c"]) ∧
    zeroSource.Valid plainRenderer.digest ∧
    planDiff (some zeroSource) (zeroPlan ["b", "c"]) plainRenderer = .ok d ∧
      ¬ Paired plainRenderer (some zeroSource) (zeroPlan ["b", "c"]) d := by
  have hparse : parsePlan (keyReader ["b", "c"]
      (keyDocument_valid (by decide) (by decide) (by decide)))
      (renameText ["b", "c"]) = .ok (zeroPlan ["b", "c"]) := by decide +kernel
  have hdiff : ∃ d, planDiff (some zeroSource) (zeroPlan ["b", "c"]) plainRenderer = .ok d :=
    planDiff_ok rfl (by decide +kernel)
  obtain ⟨d, hd⟩ := hdiff
  refine ⟨_, d, hparse, zeroSource_valid, hd, fun h => ?_⟩
  have hold : ((zeroPlan ["b", "c"]).renameTables.map TableRename.old).Nodup := h.oldTables
  exact absurd hold (by decide)

end Examples

end Orm.Dbspec
