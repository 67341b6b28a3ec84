import Orm.Logic.Frames
import Orm.Dbspec.Rebuild

/-! The renames of a plan: which tables and columns they take, and what a run of them leaves. -/
namespace Orm.Dbspec

open Orm.Engine (sortedEntries)
open Orm.Logic (moveKey moves_once onKey run_moves runSteps runSteps_append_eq_some
  runSteps_append_of runSteps_cons_of runSteps_each runSteps_map
  runSteps_same runSteps_takes)

section Holds
variable {w : PlanWriter} {hash : String}

theorem hold_toList (key : HoldKey) : (w.hold key).toList =
    w.holds.toList ++ Orm.Logic.digits ((holdKeys w.d).idxOf key + 1) := by
  unfold PlanWriter.hold holdName
  rw [String.toList_append]
  congr 1
  exact String.toList_ofList

/-- Two keys of a plan have two holding names. -/
theorem hold_inj {key key' : HoldKey} (hmem : key ∈ holdKeys w.d) (h : w.hold key = w.hold key') :
    key = key' := by
  have hchars := congrArg String.toList h
  rw [hold_toList, hold_toList] at hchars
  have hnumber := Orm.Logic.digits_injective (List.append_cancel_left hchars)
  exact (List.idxOf_inj hmem).mp (Nat.succ.inj hnumber)

theorem hold_chars (hh : w.holds = holdPrefix hash) (key : HoldKey) :
    ∃ rest, (w.hold key).toList = "dbspec$hold$".toList ++ rest := by
  rw [hold_toList, hh]
  unfold holdPrefix
  rw [String.toList_append, String.toList_append, List.append_assoc, List.append_assoc]
  exact ⟨_, rfl⟩

/-- A holding name is no name of a schema. -/
theorem hold_unnamed (hh : w.holds = holdPrefix hash) (key : HoldKey) : ¬ nameForm (w.hold key) := by
  intro hform
  obtain ⟨rest, hchars⟩ := hold_chars hh key
  have hmem : '$' ∈ (w.hold key).toList := by
    rw [hchars]
    exact List.mem_append_left _ (by decide)
  exact absurd (nameForm_chars hform _ hmem) (by decide)

theorem hold_ne_rebuild (hh : w.holds = holdPrefix hash) (key : HoldKey) :
    w.hold key ≠ rebuildTable := by
  intro h
  obtain ⟨rest, hchars⟩ := hold_chars hh key
  rw [h] at hchars
  have hhead := congrArg (List.take 8) hchars
  rw [List.take_append_of_le_length (by decide)] at hhead
  exact absurd hhead (by decide)

theorem rebuildTable_unnamed : ¬ nameForm rebuildTable := by decide

theorem mem_holdKeys_removed {m : Match} (hm : m ∈ w.d.matched) {c : String} (hc : c ∈ m.removed) :
    .removed m.source.name c ∈ holdKeys w.d :=
  List.mem_append_left _ (List.mem_append_left _
    (List.mem_flatMap.mpr ⟨m, hm, List.mem_map_of_mem hc⟩))

theorem mem_holdKeys_dropped {t : Table} (ht : t ∈ w.d.dropped) :
    .dropped t.name ∈ holdKeys w.d :=
  List.mem_append_left _ (List.mem_append_right _ (List.mem_map.mpr ⟨t, ht, rfl⟩))

theorem held_of_mem (hh : w.holds = holdPrefix hash) {m : Match} (hm : m ∈ w.d.matched) :
    Held w m where
  unnamed := fun _ _ => hold_unnamed hh _
  distinct := by
    intro c hc c' _ h
    have hkey := hold_inj (mem_holdKeys_removed hm hc) h
    cases hkey
    rfl

end Holds

variable {V : Type} {v : RowValues V} {w : PlanWriter} {source : Option Document} {p : Plan}
  {c c' : Catalog V}

/-- The catalog holds the tables of the source and nothing else. -/
structure Starts (source : Option Document) (c : Catalog V) : Prop where
  stored : ∀ t ∈ sources source, ∃ r, c t.name = some r ∧ r.Of t
  others : ∀ name, name ∉ (sources source).map Table.name → c name = none

/-- No rename of the plan takes a table or a column that another one takes. -/
def RenamesOnce (p : Plan) : Prop :=
  (p.renameTables.map TableRename.old).Nodup ∧
    (p.renameColumns.map fun r => (r.table, r.old)).Nodup

instance : Decidable (RenamesOnce p) := inferInstanceAs (Decidable (_ ∧ _))

section Tables

theorem Starts.isSome (hc : Starts source c) {name : String} :
    (c name).isSome ↔ name ∈ (sources source).map Table.name := by
  constructor
  · intro hsome
    by_contra hnot
    rw [hc.others name hnot] at hsome
    cases hsome
  · intro hmem
    obtain ⟨t, ht, rfl⟩ := List.mem_map.mp hmem
    obtain ⟨r, hr, _⟩ := hc.stored t ht
    rw [hr]
    rfl

/-- The table renames in the order of the steps. -/
def tableMoves (w : PlanWriter) : List (String × String) :=
  (sortedEntries TableRename.old w.d.renamedTables).map fun r => (r.old, r.new)

theorem run_renameTables : runSteps (exec v) (((sortedEntries TableRename.old
      w.d.renamedTables).map fun r => PlanWriter.renameTableStep r.old r.new).map
      Step.statement) c = runSteps (fun e => moveKey e.1 e.2) (tableMoves w) c := by
  unfold tableMoves
  rw [List.map_map, runSteps_map, runSteps_map]
  rfl

theorem Accepted.tableMoves_perm (h : Accepted w.r source p w.d) :
    (tableMoves w).Perm (tableMap source p) := by
  unfold tableMoves tableMap
  rw [(planDiff_eq h.diff).2.2.2.1]
  exact (sortedEntries_perm _ _).map _

theorem Accepted.tableMoves_olds (h : Accepted w.r source p w.d) :
    ((tableMoves w).map Prod.fst).Perm (p.renameTables.map TableRename.old) := by
  refine (h.tableMoves_perm.map _).trans ?_
  unfold tableMap
  rw [List.map_map]
  exact h.tableRenames_perm.map TableRename.old

theorem Accepted.tableMap_olds (h : Accepted w.r source p w.d)
    (honce : (p.renameTables.map TableRename.old).Nodup) :
    ((tableMap source p).map Prod.fst).Nodup :=
  ((h.tableMoves_perm.map _).symm.trans h.tableMoves_olds).nodup_iff.mpr honce

/-- A renamed table has its new name. -/
theorem Accepted.targetName_of_mem (h : Accepted w.r source p w.d)
    (honce : (p.renameTables.map TableRename.old).Nodup) {e : String × String}
    (he : e ∈ tableMap source p) {s : Table} (hs : s.name = e.1) : targetName source p s = e.2 := by
  change renamedOr (tableMap source p) s.name = e.2
  rw [hs, renamedOr, mapGet_eq_some (h.tableMap_olds honce) he, Option.getD_some]

section Stores
variable {ρ : Type} {s s' : String → Option ρ}

/-- After the table renames each source table stands under its target name. -/
theorem Accepted.renameTables_run (h : Accepted w.r source p w.d)
    (honce : (p.renameTables.map TableRename.old).Nodup)
    (hs : ∀ name, (s name).isSome ↔ name ∈ (sources source).map Table.name) :
    ∃ s', runSteps (fun e => moveKey e.1 e.2) (tableMoves w) s = some s' ∧
      (∀ t ∈ sources source, s' (targetName source p t) = s t.name) ∧
      ∀ name, (∀ t ∈ sources source, targetName source p t ≠ name) → s' name = none := by
  have hnone : ∀ name, name ∉ (sources source).map Table.name → s name = none := fun name hname =>
    Option.not_isSome_iff_eq_none.mp fun hsome => hname ((hs name).mp hsome)
  have hmem : ∀ {e}, e ∈ tableMoves w ↔ e ∈ tableMap source p := h.tableMoves_perm.mem_iff
  have hspec : ∀ e ∈ tableMoves w, _ := fun e he => h.tableMap_spec (hmem.mp he)
  obtain ⟨s', hrun, hnew, hold, hframe⟩ := run_moves (s := s)
    (h.tableMoves_olds.nodup_iff.mpr honce)
    ((h.tableMoves_perm.map Prod.snd).nodup_iff.mpr h.tableMap_news)
    (fun e he => (hs _).mpr (hspec e he).1) fun e he => hnone _ (hspec e he).2.1
  refine ⟨s', hrun, fun t ht => ?_, fun name hname => ?_⟩
  · rcases renamedOr_cases (tableMap source p) t.name with hrenamed | ⟨hnot, hsame⟩
    · exact hnew _ (hmem.mpr hrenamed)
    · change s' (renamedOr (tableMap source p) t.name) = _
      rw [hsame]
      refine hframe _ (fun hm => ?_) fun hm => ?_
      · exact hnot ((h.tableMoves_perm.map Prod.fst).mem_iff.mp hm)
      · obtain ⟨e, he, heq⟩ := List.mem_map.mp hm
        exact (hspec e he).2.1 (heq ▸ List.mem_map_of_mem ht)
  · by_cases hto : name ∈ (tableMoves w).map Prod.snd
    · obtain ⟨e, he, rfl⟩ := List.mem_map.mp hto
      obtain ⟨t, ht, hname'⟩ := List.mem_map.mp (hspec e he).1
      exact absurd (h.targetName_of_mem honce (hmem.mp he) hname') (hname t ht)
    · by_cases hfrom : name ∈ (tableMoves w).map Prod.fst
      · obtain ⟨e, he, rfl⟩ := List.mem_map.mp hfrom
        exact hold e he
      · rw [hframe name hfrom hto]
        refine hnone name fun hm => ?_
        obtain ⟨t, ht, rfl⟩ := List.mem_map.mp hm
        refine hname t ht ?_
        rcases renamedOr_cases (tableMap source p) t.name with hrenamed | ⟨_, hsame⟩
        · exact absurd (List.mem_map_of_mem (hmem.mpr hrenamed)) hfrom
        · exact hsame

/-- Table renames that run take no table twice. -/
theorem Accepted.renameTables_once (h : Accepted w.r source p w.d)
    (hrun : runSteps (fun e => moveKey e.1 e.2) (tableMoves w) s = some s') :
    (p.renameTables.map TableRename.old).Nodup := by
  refine h.tableMoves_olds.nodup_iff.mp (moves_once hrun fun e he e' he' heq => ?_)
  have hold := (h.tableMap_spec (h.tableMoves_perm.mem_iff.mp he)).1
  exact (h.tableMap_spec (h.tableMoves_perm.mem_iff.mp he')).2.1 (heq ▸ hold)

end Stores

end Tables

section Columns

/-- The table with one column renamed. -/
def Relation.renameOne (old new : String) (r : Relation V) : Relation V :=
  r.map (Relation.only old fun c => { c with name := new }) fun _ x => x

/-- The renames of one table among column renames. -/
def renamesOf (l : List ColumnRename) (table : String) : List (String × String) :=
  (l.filter (·.table = table)).map fun r => (r.old, r.new)

theorem mem_renamesOf {l : List ColumnRename} {table : String} {e : String × String} :
    e ∈ renamesOf l table ↔ ⟨table, e.1, e.2⟩ ∈ l := by
  simp only [renamesOf, List.mem_map, List.mem_filter, decide_eq_true_eq]
  constructor
  · rintro ⟨r, ⟨hr, rfl⟩, rfl⟩
    exact hr
  · intro he
    exact ⟨_, ⟨he, rfl⟩, rfl⟩

theorem mem_renameOne {r : Relation V} {old new name : String} (hold : old ∈ r.names) :
    name ∈ (r.renameOne old new).names ↔ name = new ∨ name ∈ r.names ∧ name ≠ old := by
  unfold Relation.renameOne
  rw [Relation.names_map, List.mem_map]
  constructor
  · rintro ⟨k, hk, rfl⟩
    by_cases hname : k.column.name = old
    · rw [Relation.only_of_eq hname]
      exact .inl rfl
    · rw [Relation.only_of_ne hname]
      exact .inr ⟨Relation.mem_names hk, hname⟩
  · rintro (rfl | ⟨hmem, hne⟩)
    · obtain ⟨k, hk, hname⟩ := Relation.mem_names_iff.mp hold
      exact ⟨k, hk, by rw [Relation.only_of_eq hname]⟩
    · obtain ⟨k, hk, rfl⟩ := Relation.mem_names_iff.mp hmem
      exact ⟨k, hk, by rw [Relation.only_of_ne hne]⟩

/-- A rename before others that concern neither of its names. -/
theorem renamedOr_cons {old new : String} {l : List (String × String)} (hold : old ∉ l.map Prod.fst)
    (hnew : new ∉ l.map Prod.fst) (name : String) :
    renamedOr ((old, new) :: l) name = renamedOr l (Function.update id old new name) := by
  have hget : mapGet ((old, new) :: l) name =
      (mapGet l name).or (if name = old then some new else none) := by
    unfold mapGet
    rw [List.reverse_cons, List.lookup_append]
    by_cases hname : name = old
    · simp [hname]
    · simp [hname, List.lookup, beq_false_of_ne hname]
  unfold renamedOr
  rw [hget]
  by_cases hname : name = old
  · rw [hname, Function.update_self, mapGet_eq_none.mpr hold, mapGet_eq_none.mpr hnew]
    simp
  · rw [Function.update_of_ne hname, if_neg hname, Option.or_none]
    rfl

theorem renameOne_renamed {r : Relation V} {old new : String} {l : List (String × String)}
    (hold : old ∉ l.map Prod.fst) (hnew : new ∉ l.map Prod.fst) :
    (r.renameOne old new).renamed l = r.renamed ((old, new) :: l) := by
  refine Relation.ext ?_ rfl
  simp only [Relation.renamed, Relation.renameOne, Relation.map_columns, List.map_map]
  refine List.map_congr_left fun k _ => StoredColumn.ext ?_ (by simp)
  simp only [Function.comp_apply, renamedOr_cons hold hnew]
  by_cases hname : k.column.name = old
  · rw [Relation.only_of_eq hname, hname, Function.update_self]
  · rw [Relation.only_of_ne hname, Function.update_of_ne hname]
    rfl

theorem exec_renameColumn {table old new : String} {r : Relation V} (hr : c table = some r)
    (hold : old ∈ r.names) (hnew : new ∉ r.names) :
    exec v (.renameColumn table old new) c =
      some (Function.update c table (some (r.renameOne old new))) := by
  have hrun := turns_rename (v := v) hold hnew c hr
  obtain ⟨_, hstep, hlast⟩ := Option.bind_eq_some_iff.mp hrun
  exact hstep.trans hlast

/-- A column rename that runs finds the old name and not the new one. -/
theorem renameColumn_found {table old new : String}
    (h : exec v (.renameColumn table old new) c = some c') :
    ∃ r, c table = some r ∧ old ∈ r.names ∧ new ∉ r.names ∧
      c' = Function.update c table (some (r.renameOne old new)) := by
  obtain ⟨r, hr, hrename⟩ := Option.bind_eq_some_iff.mp h
  obtain ⟨r', hr', _⟩ := Option.map_eq_some_iff.mp hrename
  unfold Relation.rename at hr'
  split at hr'
  · cases hr'
  · next hnew =>
    have hold : old ∈ r.names := by
      by_contra hold
      rw [Relation.alter, if_neg hold] at hr'
      cases hr'
    rw [exec_renameColumn hr hold hnew] at h
    exact ⟨r, hr, hold, hnew, (Option.some.inj h).symm⟩

/-- The statements of column renames. -/
def columnMoves (l : List ColumnRename) : List Statement :=
  l.map fun r => .renameColumn r.table r.old r.new

/-- Renames of distinct columns to distinct new names. -/
theorem columnMoves_run {l : List ColumnRename} (hold : (l.map fun r => (r.table, r.old)).Nodup)
    (hnew : (l.map fun r => (r.table, r.new)).Nodup)
    (hready : ∀ e ∈ l, ∃ r, c e.table = some r ∧ e.old ∈ r.names ∧ e.new ∉ r.names) :
    ∃ c', runSteps (exec v) (columnMoves l) c = some c' ∧
      ∀ name, c' name = (c name).map (Relation.renamed (renamesOf l name)) := by
  induction l generalizing c with
  | nil =>
    refine ⟨c, rfl, fun name => ?_⟩
    have hid : ∀ r : Relation V, r.renamed (renamesOf [] name) = r := fun r =>
      Relation.map_eq_self (fun _ _ => rfl) fun _ _ _ => rfl
    cases hc : c name with
    | none => rfl
    | some r => rw [Option.map_some, hid]
  | cons e l ih =>
    obtain ⟨holdHead, holdTail⟩ := List.nodup_cons.mp hold
    obtain ⟨hnewHead, hnewTail⟩ := List.nodup_cons.mp hnew
    obtain ⟨r, hr, hin, hout⟩ := hready e List.mem_cons_self
    have hapart : ∀ e' ∈ l, e'.table = e.table → e'.old ≠ e.old ∧ e'.new ≠ e.new := by
      intro e' he' htable
      refine ⟨fun h => holdHead ?_, fun h => hnewHead ?_⟩
      · exact List.mem_map.mpr ⟨e', he', by rw [htable, h]⟩
      · exact List.mem_map.mpr ⟨e', he', by rw [htable, h]⟩
    obtain ⟨c', hrun, hc'⟩ := ih (c := Function.update c e.table (some (r.renameOne e.old e.new)))
      holdTail hnewTail fun e' he' => by
        obtain ⟨r', hr', hin', hout'⟩ := hready e' (List.mem_cons_of_mem _ he')
        by_cases htable : e'.table = e.table
        · obtain ⟨hneOld, hneNew⟩ := hapart e' he' htable
          rw [htable, hr] at hr'
          obtain rfl := Option.some.inj hr'
          refine ⟨_, by rw [htable, Function.update_self], (mem_renameOne hin).mpr
            (.inr ⟨hin', hneOld⟩), fun hmem => ?_⟩
          exact ((mem_renameOne hin).mp hmem).elim hneNew fun hmem => hout' hmem.1
        · exact ⟨r', by rw [Function.update_of_ne htable, hr'], hin', hout'⟩
    refine ⟨c', (runSteps_cons_of (exec_renameColumn hr hin hout)).trans hrun, fun name => ?_⟩
    rw [hc' name]
    by_cases hname : name = e.table
    · subst hname
      have hsplit : renamesOf (e :: l) e.table = (e.old, e.new) :: renamesOf l e.table := by
        simp [renamesOf]
      rw [Function.update_self, hr, hsplit, Option.map_some, Option.map_some, renameOne_renamed]
      · intro hmem
        obtain ⟨x, hx, heq⟩ := List.mem_map.mp hmem
        exact (hapart _ (mem_renamesOf.mp hx) rfl).1 heq
      · intro hmem
        obtain ⟨x, hx, heq⟩ := List.mem_map.mp hmem
        obtain ⟨r', hr', hin', _⟩ := hready _ (List.mem_cons_of_mem _ (mem_renamesOf.mp hx))
        obtain rfl := Option.some.inj (hr.symm.trans hr')
        exact hout (heq ▸ hin')
    · have hskip : renamesOf (e :: l) name = renamesOf l name := by
        simp [renamesOf, Ne.symm hname]
      rw [Function.update_of_ne hname, hskip]

/-- Column renames that run take no column twice. -/
theorem columnMoves_once {l : List ColumnRename}
    (hrun : runSteps (exec v) (columnMoves l) c = some c')
    (hnew : ∀ e ∈ l, ∀ e' ∈ l, (e.table, e.old) ≠ (e'.table, e'.new)) :
    (l.map fun r => (r.table, r.old)).Nodup := by
  unfold columnMoves at hrun
  rw [runSteps_map] at hrun
  refine runSteps_takes (g := fun r => (r.table, r.new)) (P := fun k (c : Catalog V) =>
    ∃ r, c k.1 = some r ∧ k.2 ∈ r.names) (fun e _ s s' hstep => ?_) hrun ?_
  · obtain ⟨r, hr, hin, hout, rfl⟩ := renameColumn_found hstep
    refine ⟨⟨r, hr, hin⟩, ?_, ?_⟩
    · rintro ⟨r', hr', hmem⟩
      rw [Function.update_self] at hr'
      obtain rfl := Option.some.inj hr'
      rcases (mem_renameOne hin).mp hmem with heq | ⟨_, hne⟩
      · exact hout (heq ▸ hin)
      · exact hne rfl
    · rintro ⟨table, name⟩ ⟨r', hr', hmem⟩
      by_cases htable : table = e.table
      · subst htable
        rw [Function.update_self] at hr'
        obtain rfl := Option.some.inj hr'
        rcases (mem_renameOne hin).mp hmem with rfl | ⟨hmem, _⟩
        · exact .inr rfl
        · exact .inl ⟨r, hr, hmem⟩
      · rw [Function.update_of_ne htable] at hr'
        exact .inl ⟨r', hr', hmem⟩
  · intro k hk hk'
    obtain ⟨e, he, rfl⟩ := List.mem_map.mp hk
    obtain ⟨e', he', heq⟩ := List.mem_map.mp hk'
    exact hnew e he e' he' heq.symm

end Columns

section Matching
variable {m : Match}

theorem Relation.Of.names {r : Relation V} {t : Table} (h : r.Of t) : r.names = t.columnNames := by
  unfold Relation.names Table.columnNames
  rw [← h, List.map_map]
  rfl

theorem Accepted.matched_spec (h : Accepted w.r source p w.d) (hm : m ∈ w.d.matched) :
    m.source ∈ sources source ∧ m.target ∈ p.schema.tables ∧ targetName source p m.source = m.name := by
  obtain ⟨⟨src, tgt⟩, hx, rfl⟩ := h.mem_matched.mp hm
  exact h.mem_matchedTables.mp hx

theorem Accepted.matched_names (h : Accepted w.r source p w.d) :
    (w.d.matched.map Match.name).Nodup := by
  rw [(planDiff_eq h.diff).2.2.1, List.map_map]
  have hnodup := h.targets_nodup
  rw [List.map_map] at hnodup
  exact hnodup

theorem Accepted.mem_created (h : Accepted w.r source p w.d) {t : Table} :
    t ∈ w.d.created ↔ t ∈ p.schema.tables ∧ ∀ s ∈ sources source, targetName source p s ≠ t.name := by
  rw [(planDiff_eq h.diff).1]
  simp only [List.mem_filterMap, Option.isNone_iff_eq_none, Option.ite_none_right_eq_some,
    Option.some.injEq, Prod.exists, mem_targetTables]
  have hnone : matchedSource source p t = none ↔
      ∀ s ∈ sources source, targetName source p s ≠ t.name := by
    rw [Option.eq_none_iff_forall_not_mem]
    exact ⟨fun hall s hs heq => hall s (h.matchedSource_eq.mpr ⟨hs, heq⟩), fun hall s hs =>
      hall s (h.matchedSource_eq.mp hs).1 (h.matchedSource_eq.mp hs).2⟩
  constructor
  · rintro ⟨t', x, ⟨ht, rfl⟩, hx, rfl⟩
    exact ⟨ht, hnone.mp hx⟩
  · rintro ⟨ht, hall⟩
    exact ⟨t, _, ⟨ht, rfl⟩, hnone.mpr hall, rfl⟩

theorem Accepted.created_names (h : Accepted w.r source p w.d) :
    (w.d.created.map Table.name).Nodup := by
  have hsub : w.d.created.Sublist (sortedEntries Table.name p.schema.tables) := by
    rw [(planDiff_eq h.diff).1]
    unfold targetTables
    generalize sortedEntries Table.name p.schema.tables = l
    induction l with
    | nil => exact .slnil
    | cons t l ih =>
      rw [List.map_cons, List.filterMap_cons]
      cases matchedSource source p t with
      | none => exact ih.cons_cons _
      | some _ => exact ih.cons _
  refine (hsub.map Table.name).nodup ?_
  exact ((sortedEntries_perm Table.name _).map Table.name).nodup_iff.mpr h.parsed.target.tables

theorem Accepted.dropped_spec (h : Accepted w.r source p w.d) {t : Table} (ht : t ∈ w.d.dropped) :
    t ∈ sources source ∧ targetName source p t = t.name ∧ t.name ∉ p.schema.tables.map Table.name := by
  rw [(planDiff_eq h.diff).2.1] at ht
  obtain ⟨hs, hnot⟩ := mem_droppedTables.mp ht
  rcases renamedOr_cases (tableMap source p) t.name with hrenamed | ⟨_, hsame⟩
  · exact absurd (h.tableMap_spec hrenamed).2.2 hnot
  · have hname : targetName source p t = t.name := hsame
    exact ⟨hs, hname, hname ▸ hnot⟩

theorem Accepted.dropped_names (h : Accepted w.r source p w.d) :
    (w.d.dropped.map Table.name).Nodup := by
  rw [(planDiff_eq h.diff).2.1]
  refine (List.filter_sublist.map Table.name).nodup ?_
  exact ((sortedEntries_perm Table.name _).map Table.name).nodup_iff.mpr h.names_nodup

/-- A source table is matched or dropped. -/
theorem Accepted.source_cases (h : Accepted w.r source p w.d) {s : Table}
    (hs : s ∈ sources source) : s ∈ w.d.dropped ∨ ∃ m ∈ w.d.matched, m.source = s := by
  by_cases htarget : targetName source p s ∈ p.schema.tables.map Table.name
  · obtain ⟨t, ht, hname⟩ := List.mem_map.mp htarget
    exact .inr ⟨_, h.mem_matched.mpr ⟨(s, t), h.mem_matchedTables.mpr ⟨hs, ht, hname.symm⟩, rfl⟩, rfl⟩
  · rw [(planDiff_eq h.diff).2.1]
    exact .inl (mem_droppedTables.mpr ⟨hs, htarget⟩)

/-- A target table is matched or created. -/
theorem Accepted.target_cases (h : Accepted w.r source p w.d) {t : Table}
    (ht : t ∈ p.schema.tables) : t ∈ w.d.created ∨ ∃ m ∈ w.d.matched, m.target = t := by
  by_cases hall : ∀ s ∈ sources source, targetName source p s ≠ t.name
  · exact .inl (h.mem_created.mpr ⟨ht, hall⟩)
  · push Not at hall
    obtain ⟨s, hs, hname⟩ := hall
    exact .inr ⟨_, h.mem_matched.mpr ⟨(s, t), h.mem_matchedTables.mpr ⟨hs, ht, hname⟩, rfl⟩, rfl⟩

theorem Accepted.created_unmatched (h : Accepted w.r source p w.d) {t : Table}
    (ht : t ∈ w.d.created) : t.name ∉ w.d.matched.map Match.name := by
  intro hmem
  obtain ⟨m, hm, hname⟩ := List.mem_map.mp hmem
  obtain ⟨hs, _, htarget⟩ := h.matched_spec hm
  exact (h.mem_created.mp ht).2 _ hs (htarget.trans hname)

theorem Accepted.target_named (h : Accepted w.r source p w.d) {name : String}
    (hname : name ∈ p.schema.tables.map Table.name) : nameForm name := by
  obtain ⟨t, ht, rfl⟩ := List.mem_map.mp hname
  exact validName_form (h.parsed.target.each t ht).named

theorem Accepted.source_named (h : Accepted w.r source p w.d) {s : Table}
    (hs : s ∈ sources source) : nameForm s.name := by
  obtain ⟨doc, _, _, hvalid⟩ := h.source_valid hs
  exact validName_form hvalid.named

theorem Accepted.matched_target (h : Accepted w.r source p w.d) {name : String}
    (hname : name ∈ w.d.matched.map Match.name) : name ∈ p.schema.tables.map Table.name := by
  obtain ⟨m, hm, rfl⟩ := List.mem_map.mp hname
  exact List.mem_map_of_mem (h.matched_spec hm).2.1

theorem Accepted.created_target (h : Accepted w.r source p w.d) {name : String}
    (hname : name ∈ w.d.created.map Table.name) : name ∈ p.schema.tables.map Table.name := by
  obtain ⟨t, ht, rfl⟩ := List.mem_map.mp hname
  exact List.mem_map_of_mem (h.mem_created.mp ht).1

/-- The column renames in the order of the steps. -/
def columnRenameSteps (w : PlanWriter) : List ColumnRename :=
  sortedEntries (fun r : ColumnRename => r.table ++ "." ++ r.old) w.d.renamedColumns

theorem Accepted.columnSteps_perm (h : Accepted w.r source p w.d) :
    (columnRenameSteps w).Perm (columnRenames source p) := by
  unfold columnRenameSteps
  rw [(planDiff_eq h.diff).2.2.2.2]
  exact sortedEntries_perm _ _

theorem Accepted.mem_columnSteps (h : Accepted w.r source p w.d) {r : ColumnRename} :
    r ∈ columnRenameSteps w ↔ r ∈ p.renameColumns :=
  (h.columnSteps_perm.trans h.columnRenames_perm).mem_iff

/-- No column rename leaves a column that another one takes. -/
theorem Accepted.columnSteps_apart (h : Accepted w.r source p w.d) {e e' : ColumnRename}
    (he : e ∈ columnRenameSteps w) (he' : e' ∈ columnRenameSteps w) :
    (e.table, e.old) ≠ (e'.table, e'.new) := by
  intro heq
  obtain ⟨htable, hname⟩ := Prod.mk.inj heq
  obtain ⟨src, tgt, hx, htgt, hold, _⟩ := h.columnRename_spec (h.mem_columnSteps.mp he)
  have hmem : (e'.old, e'.new) ∈ columnMap source p tgt := h.mem_columnMap.mpr (by
    rw [htgt, htable]
    exact h.mem_columnSteps.mp he')
  exact (h.columnMap_spec hx hmem).2.1 (hname ▸ hold)

theorem renamedOr_perm {l l' : List (String × String)} (hperm : l.Perm l')
    (hl : (l.map Prod.fst).Nodup) (name : String) : renamedOr l name = renamedOr l' name := by
  unfold renamedOr
  cases hget : mapGet l name with
  | none =>
    have hnot := mapGet_eq_none.mp hget
    rw [(hperm.map Prod.fst).mem_iff] at hnot
    rw [mapGet_eq_none.mpr hnot]
  | some new =>
    rw [mapGet_eq_some ((hperm.map Prod.fst).nodup_iff.mp hl) (hperm.mem_iff.mp (mapGet_mem hget))]

theorem renamesOf_nodup {l : List ColumnRename} {table : String}
    (hl : (l.map fun r => (r.table, r.old)).Nodup) : ((renamesOf l table).map Prod.fst).Nodup := by
  unfold renamesOf
  rw [List.map_map]
  have hsub := (List.filter_sublist (p := fun r : ColumnRename => r.table = table) (l := l)).map
    fun r => (r.table, r.old)
  have hnodup := hsub.nodup hl
  rw [List.nodup_iff_pairwise_ne, List.pairwise_map] at hnodup ⊢
  refine hnodup.imp_of_mem fun {a b} ha hb hne heq => hne ?_
  have hta := of_decide_eq_true (List.mem_filter.mp ha).2
  have htb := of_decide_eq_true (List.mem_filter.mp hb).2
  rw [hta, htb]
  exact congrArg (Prod.mk table) heq

end Matching

end Orm.Dbspec
