import Orm.Dbspec.Catalog
import Orm.Dbspec.Matches

/-! The programs that change the columns of a matched table in place. -/
namespace Orm.Dbspec

open Orm.Logic (onKey Turns)

variable {V : Type} {v : RowValues V} {w : PlanWriter} {table : String} {r : Relation V}

/-- A removed column is nullable under its holding name. -/
def hideChange (c : Column) (h : String) : Change V := ⟨c, { c with name := h, nullable := true }, id⟩

/-- A column of another definition; its values follow its type. -/
def alterChange (v : RowValues V) (old new : Column) : Change V := ⟨old, new, v.widen old.type new.type⟩

section Replace
variable {old mid new : Column}

theorem change_eq (x : Change V) (f : Column → Column) (g : Column → V → V)
    (hf : ∀ k ∈ r.columns, f k.column = Relation.only x.old.name (fun _ => x.new) k.column)
    (hg : ∀ k ∈ r.columns, ∀ a, g k.column a =
      if k.column.name = x.old.name then x.value a else a) : r.map f g = r.change x :=
  Relation.map_congr hf hg

theorem change_self (hc : r.Defines old) : r.change (alterChange v old old) = r := by
  refine Relation.map_eq_self (fun k hk => ?_) fun k _ x => ?_
  · by_cases hk' : k.column.name = old.name
    · exact (Relation.only_of_eq hk').trans (hc k hk hk').symm
    · exact Relation.only_of_ne hk'
  · simp [alterChange]

theorem change_defines (hname : old.name = new.name) :
    (r.change (alterChange v old new)).Defines new := by
  intro k hk hk'
  rcases mem_change.mp hk with ⟨_, _, _, rfl⟩ | ⟨_, hne⟩
  · rfl
  · exact absurd (hk'.trans hname.symm) hne

theorem change_names (hname : old.name = new.name) :
    (r.change (alterChange v old new)).names = r.names :=
  Relation.names_map_keep fun k _ => by
    by_cases hk' : k.column.name = old.name
    · exact (congrArg Column.name (if_pos hk')).trans (hname.symm.trans hk'.symm)
    · exact congrArg Column.name (if_neg hk')

/-- Two changes of one column as one. -/
theorem change_change {x y : Change V} (hx : x.new.name = x.old.name)
    (hy : y.old.name = x.old.name) :
    (r.change x).change y = r.change ⟨x.old, y.new, fun a => y.value (x.value a)⟩ := by
  unfold Relation.change
  rw [Relation.map_map]
  refine Relation.map_congr (fun k _ => ?_) fun k _ a => ?_
  · by_cases hk' : k.column.name = x.old.name
    · simp [Relation.only, hk', hx, hy]
    · simp [Relation.only, hk', hy]
  · by_cases hk' : k.column.name = x.old.name
    · simp [Relation.only, hk', hx, hy]
    · simp [Relation.only, hk', hy]

/-- A second definition of the same type replaces the first. -/
theorem alterChange_alterChange (hold : old.name = mid.name) (htype : mid.type = new.type) :
    (r.change (alterChange v old mid)).change (alterChange v mid new) =
      r.change (alterChange v old new) := by
  rw [change_change hold.symm hold.symm]
  simp [alterChange, htype]

theorem turns_alterChange {s : Statement} {f : Column → Column}
    (hs : ∀ c, exec v s c = onKey table (Relation.alter v old.name f) c) (hmem : old.name ∈ r.names)
    (hc : r.Defines old) (hf : f old = new) :
    Turns (exec v) table [s] r (r.change (alterChange v old new)) := by
  rw [← change_eq (alterChange v old new) (Relation.only old.name f)
    (fun c => v.widen c.type (Relation.only old.name f c).type) (fun k hk => ?_) fun k hk x => ?_]
  · exact turns_alter hs hmem
  · by_cases hk' : k.column.name = old.name
    · rw [Relation.only_of_eq hk', hc k hk hk', hf]
      exact (if_pos rfl).symm
    · rw [Relation.only_of_ne hk']
      exact (if_neg hk').symm
  · by_cases hk' : k.column.name = old.name
    · rw [Relation.only_of_eq hk', hc k hk hk', hf]
      exact (if_pos rfl).symm
    · rw [Relation.only_of_ne hk', widen_self]
      exact (if_neg hk').symm

end Replace

section Hide
variable {c : Column} {h : String}

theorem loosenColumn_turns (hmem : c.name ∈ r.names) (hc : r.Defines c) :
    Turns (exec v) table [(w.loosenColumn table c h).statement] r
      (r.change (alterChange v c { c with nullable := true })) := by
  dsimp only [PlanWriter.loosenColumn, step]
  split
  · exact turns_alterChange (fun _ => rfl) hmem hc rfl
  · exact turns_alterChange (fun _ => rfl) hmem hc rfl

/-- A rename of a nullable column hides it. -/
theorem renameColumn_turns_hide (hmem : c.name ∈ r.names) (hc : r.Defines c) (hh : h ∉ r.names)
    (hnull : c.nullable = true) :
    Turns (exec v) table [(PlanWriter.renameColumnStep table c.name h).statement] r
      (r.change (hideChange c h)) := by
  rw [← change_eq (hideChange c h) (Relation.only c.name fun k => { k with name := h })
    (fun _ x => x) (fun k hk => ?_) fun _ _ _ => (ite_self _).symm]
  · exact turns_rename hmem hh
  · by_cases hk' : k.column.name = c.name
    · rw [Relation.only_of_eq hk', hc k hk hk']
      simp [Relation.only, hideChange, ← hnull]
    · rw [Relation.only_of_ne hk']
      exact (if_neg hk').symm

theorem hideColumn_turns (hready : (hideChange c h : Change V).Ready r) (hne : h ≠ c.name) :
    Turns (exec v) table ((w.hideColumn table c h).map Step.statement) r
      (r.change (hideChange c h)) := by
  have hmem : c.name ∈ r.names := hready.there
  have hc : r.Defines c := hready.defined
  have hh : h ∉ r.names := hready.free.resolve_left hne
  unfold PlanWriter.hideColumn
  rw [List.map_append]
  by_cases hnull : c.nullable = true
  · rw [if_pos hnull]
    exact renameColumn_turns_hide hmem hc hh hnull
  · rw [if_neg hnull]
    -- first the nullable definition, then the name
    have hnames : (r.change (alterChange v c { c with nullable := true })).names = r.names :=
      change_names rfl
    have hhide : r.change (hideChange c h) = (r.change (alterChange v c
        { c with nullable := true })).change (hideChange { c with nullable := true } h) := by
      rw [change_change (by rfl) (by rfl)]
      simp [alterChange, hideChange, Function.id_def]
    rw [hhide]
    refine (loosenColumn_turns hmem hc).append
      (renameColumn_turns_hide (c := { c with nullable := true }) ?_ (change_defines rfl) ?_ rfl)
    · rwa [hnames]
    · rwa [hnames]

end Hide

section Alter
variable {old new : Column}

theorem typeSteps_turns (hmem : new.name ∈ r.names) (hc : r.Defines { old with name := new.name }) :
    Turns (exec v) table ((PlanWriter.typeSteps table old new).map Step.statement) r
      (r.change (alterChange v { old with name := new.name }
        { old with name := new.name, type := new.type })) := by
  unfold PlanWriter.typeSteps
  by_cases htype : old.type = new.type
  · rw [if_pos htype, ← htype, change_self hc]
    exact Turns.nil
  · rw [if_neg htype]
    exact turns_alterChange (fun _ => rfl) hmem hc rfl

theorem nullSteps_turns (hmem : new.name ∈ r.names)
    (hc : r.Defines { old with name := new.name, type := new.type }) :
    Turns (exec v) table ((PlanWriter.nullSteps table old new).map Step.statement) r
      (r.change (alterChange v { old with name := new.name, type := new.type }
        { old with name := new.name, type := new.type, nullable := new.nullable })) := by
  unfold PlanWriter.nullSteps
  by_cases hnull : old.nullable = new.nullable
  · rw [if_pos hnull, ← hnull, change_self hc]
    exact Turns.nil
  · rw [if_neg hnull]
    by_cases hnew : new.nullable = true
    · rw [if_pos hnew, hnew]
      exact turns_alterChange (fun _ => rfl) hmem hc rfl
    · rw [if_neg hnew, Bool.eq_false_of_not_eq_true hnew]
      exact turns_alterChange (fun _ => rfl) hmem hc rfl

theorem defaultSteps_turns (hmem : new.name ∈ r.names) (hidentity : old.identity = new.identity)
    (hc : r.Defines { old with name := new.name, type := new.type, nullable := new.nullable }) :
    Turns (exec v) table ((PlanWriter.defaultSteps table old new).map Step.statement) r
      (r.change (alterChange v
        { old with name := new.name, type := new.type, nullable := new.nullable } new)) := by
  have hnew : (⟨new.name, new.type, new.nullable, old.identity, new.default⟩ : Column) = new := by
    rw [hidentity]
  unfold PlanWriter.defaultSteps
  split
  · cases hdefault : new.default with
    | none =>
      refine turns_alterChange (f := fun k => { k with default := none }) (fun _ => rfl) hmem hc ?_
      rw [← hdefault]
      exact hnew
    | some value =>
      refine turns_alterChange (f := fun k => { k with default := some value }) (fun _ => rfl) hmem
        hc ?_
      rw [← hdefault]
      exact hnew
  · next hsame =>
    have hdefault : old.default = new.default := not_not.mp fun h => hsame (.inl h)
    rw [hdefault, hnew] at hc ⊢
    rw [change_self hc]
    exact Turns.nil

/-- A changed column has its target definition, and its values are widened. -/
theorem alterColumn_turns (hmem : new.name ∈ r.names) (hidentity : old.identity = new.identity)
    (hc : r.Defines { old with name := new.name }) :
    Turns (exec v) table ((w.alterColumn table old new).map Step.statement) r
      (r.change (alterChange v { old with name := new.name } new)) := by
  unfold PlanWriter.alterColumn
  split
  · exact turns_alterChange (fun _ => rfl) hmem hc rfl
  · rw [List.map_append, List.map_append]
    have hthrough : r.change (alterChange v { old with name := new.name } new) =
        ((r.change (alterChange v { old with name := new.name }
          { old with name := new.name, type := new.type })).change
          (alterChange v { old with name := new.name, type := new.type }
          { old with name := new.name, type := new.type, nullable := new.nullable })).change
          (alterChange v { old with name := new.name, type := new.type, nullable := new.nullable }
            new) := by
      refine ((congrArg (Relation.change · _) (alterChange_alterChange ?_ ?_)).trans
        (alterChange_alterChange ?_ ?_)).symm
      all_goals rfl
    rw [hthrough]
    refine ((typeSteps_turns hmem hc).append (nullSteps_turns ?_ (change_defines rfl))).append
      (defaultSteps_turns ?_ hidentity (change_defines rfl))
    · rwa [change_names (by rfl)]
    · rwa [change_names (by rfl), change_names (by rfl)]

end Alter

/-- The table under the new names of its columns. -/
def Relation.renamed (renames : List (String × String)) (r : Relation V) : Relation V :=
  r.map (fun c => { c with name := renamedOr renames c.name }) fun _ x => x

/-- The added columns of a match. -/
def Match.addedColumns (m : Match) : List Column := m.added.flatMap fun c => (m.target.column c).toList

/-- The changes that hide the removed columns. -/
def hideChanges (w : PlanWriter) (m : Match) : List (Change V) :=
  m.removed.flatMap fun c => (m.source.column c).toList.map fun s =>
    hideChange s (w.hold (.removed m.source.name c))

/-- The changes of the altered columns. -/
def alterChanges (v : RowValues V) (m : Match) : List (Change V) :=
  m.altered.flatMap fun c => ((mapGet m.columnOf c).bind m.source.column).toList.flatMap fun s =>
    (m.target.column c).toList.map fun t => alterChange v { s with name := t.name } t

/-- The holding names of the removed columns are not names of a schema, and they are distinct. -/
structure Held (w : PlanWriter) (m : Match) : Prop where
  unnamed : ∀ c ∈ m.removed, ¬ nameForm (w.hold (.removed m.source.name c))
  distinct : ∀ c ∈ m.removed, ∀ c' ∈ m.removed,
    w.hold (.removed m.source.name c) = w.hold (.removed m.source.name c') → c = c'

section Plain
variable {m : Match}

/-- The stored columns are those of the source. -/
def Relation.Of (r : Relation V) (t : Table) : Prop := r.columns.map StoredColumn.column = t.columns

theorem Relation.Of.mem {t : Table} (h : r.Of t) {k : StoredColumn V} (hk : k ∈ r.columns) :
    k.column ∈ t.columns := h ▸ List.mem_map_of_mem hk

theorem Relation.Of.name_mem {t : Table} (h : r.Of t) {k : StoredColumn V} (hk : k ∈ r.columns) :
    k.column.name ∈ t.columnNames := List.mem_map_of_mem (h.mem hk)

theorem Relation.Of.exists {t : Table} (h : r.Of t) {c : Column} (hc : c ∈ t.columns) :
    ∃ k ∈ r.columns, k.column = c := by
  rw [← h] at hc
  exact List.mem_map.mp hc

theorem mem_renamed {renames : List (String × String)} {k : StoredColumn V} :
    k ∈ (r.renamed renames).columns ↔ ∃ k₀ ∈ r.columns,
      k = ⟨{ k₀.column with name := renamedOr renames k₀.column.name }, k₀.values⟩ := by
  simp only [Relation.renamed, Relation.map_columns, List.mem_map, List.map_id']
  exact ⟨fun ⟨k₀, hk, h⟩ => ⟨k₀, hk, h.symm⟩, fun ⟨k₀, hk, h⟩ => ⟨k₀, hk, h.symm⟩⟩

theorem Match.Sound.renamed_form (hm : m.Sound) {c : String} (hc : c ∈ m.source.columnNames) :
    nameForm (renamedOr m.renames c) := by
  rcases renamedOr_cases m.renames c with hmem | ⟨_, hsame⟩
  · exact hm.targetNamed _ (hm.renameSpec _ hmem).2.2
  · rw [hsame]
    exact hm.sourceNamed c hc

theorem Match.Sound.renamed_names (hm : m.Sound) (hr : r.Of m.source) {name : String}
    (hname : name ∈ (r.renamed m.renames).names) : nameForm name := by
  obtain ⟨k, hk, rfl⟩ := Relation.mem_names_iff.mp hname
  obtain ⟨k₀, hk₀, rfl⟩ := mem_renamed.mp hk
  exact hm.renamed_form (hr.name_mem hk₀)

theorem mem_hideChanges {x : Change V} : x ∈ hideChanges w m ↔
    ∃ c ∈ m.removed, ∃ s, m.source.column c = some s ∧
      x = hideChange s (w.hold (.removed m.source.name c)) := by
  simp only [hideChanges, List.mem_flatMap, List.mem_map, Option.mem_toList]
  exact ⟨fun ⟨c, hc, s, hs, h⟩ => ⟨c, hc, s, hs, h.symm⟩,
    fun ⟨c, hc, s, hs, h⟩ => ⟨c, hc, s, hs, h.symm⟩⟩

theorem hideChanges_apart (hm : m.Sound) (hw : Held w m) :
    (hideChanges w m : List (Change V)).Pairwise Change.Apart := by
  have hnodup := hm.removed_nodup
  unfold hideChanges
  have hform : ∀ c ∈ m.removed, nameForm c := fun c hc =>
    hm.sourceNamed c (hm.mem_removed.mp hc).1
  rw [List.pairwise_flatMap]
  refine ⟨fun c _ => ?_, ?_⟩
  · cases m.source.column c with
    | none => exact List.Pairwise.nil
    | some s => exact List.pairwise_singleton _ _
  · refine hnodup.imp_of_mem fun {c c'} hc hc' hne x hx y hy => ?_
    obtain ⟨s, hs, rfl⟩ := List.mem_map.mp hx
    obtain ⟨s', hs', rfl⟩ := List.mem_map.mp hy
    obtain ⟨_, rfl⟩ := column_mem (Option.mem_toList.mp hs)
    obtain ⟨_, rfl⟩ := column_mem (Option.mem_toList.mp hs')
    refine ⟨hne.symm, fun h => hw.unnamed _ hc ?_, fun h => hne (hw.distinct _ hc _ hc' h)⟩
    rw [show w.hold (.removed m.source.name s.name) = s'.name from h]
    exact hform _ hc'

theorem hideChanges_ready (hm : m.Sound) (hw : Held w m) (hr : r.Of m.source) {x : Change V}
    (hx : x ∈ hideChanges w m) : x.Ready (r.renamed m.renames) := by
  obtain ⟨c, hc, s, hs, rfl⟩ := mem_hideChanges.mp hx
  obtain ⟨hsmem, rfl⟩ := column_mem hs
  obtain ⟨k, hk, hks⟩ := hr.exists hsmem
  refine ⟨Relation.mem_names_iff.mpr ⟨_, mem_renamed.mpr ⟨k, hk, rfl⟩, ?_⟩, ?_, .inr fun hname =>
    hw.unnamed _ hc (hm.renamed_names hr hname)⟩
  · rw [hks]
    exact hm.removed_stays hc
  · intro k' hk' hname
    obtain ⟨k₀, hk₀, rfl⟩ := mem_renamed.mp hk'
    have hstays := hm.removed_stays hc
    have hsame : k₀.column.name = s.name :=
      hm.renamed_inj (hr.name_mem hk₀) (List.mem_map_of_mem hsmem)
        (hname.trans hstays.symm)
    have hcol : k₀.column = s :=
      List.inj_on_of_nodup_map hm.sourceNodup (hr.mem hk₀) hsmem hsame
    dsimp only
    rw [hcol, hstays]
    rfl

theorem hideColumns_turns (hm : m.Sound) (hw : Held w m) (hr : r.Of m.source) :
    Turns (exec v) m.name ((w.hideColumns m).map Step.statement) (r.renamed m.renames)
      ((hideChanges w m).foldl Relation.change (r.renamed m.renames)) := by
  have hprog : (w.hideColumns m).map Step.statement = (hideChanges w m : List (Change V)).flatMap
      fun x => (w.hideColumn m.name x.old x.new.name).map Step.statement := by
    simp only [PlanWriter.hideColumns, hideChanges, List.map_flatMap, List.flatMap_assoc]
    refine List.flatMap_congr fun c _ => ?_
    cases m.source.column c with
    | none => rfl
    | some s => simp [hideChange]
  rw [hprog]
  refine turns_changes (fun x hx r' hready => ?_) (hideChanges_apart hm hw)
    fun x hx => hideChanges_ready hm hw hr hx
  obtain ⟨c, hc, s, hs, rfl⟩ := mem_hideChanges.mp hx
  obtain ⟨hsmem, rfl⟩ := column_mem hs
  refine hideColumn_turns hready fun h => hw.unnamed _ hc ?_
  rw [show w.hold (.removed m.source.name s.name) = s.name from h]
  exact hm.sourceNamed _ (List.mem_map_of_mem hsmem)

/-- A stored column of the source after the renames and the hides. -/
def hiddenOrRenamed (w : PlanWriter) (m : Match) (k : StoredColumn V) : StoredColumn V :=
  if k.column.name ∈ m.removed then
    ⟨{ k.column with name := w.hold (.removed m.source.name k.column.name), nullable := true },
      k.values⟩
  else ⟨{ k.column with name := renamedOr m.renames k.column.name }, k.values⟩

theorem hidden_columns (hm : m.Sound) (hw : Held w m) (hr : r.Of m.source) :
    ((hideChanges w m).foldl Relation.change (r.renamed m.renames)).columns =
      r.columns.map (hiddenOrRenamed w m) := by
  rw [foldl_change_columns (hideChanges_apart hm hw)]
  simp only [Relation.renamed, Relation.map_columns, List.map_map]
  refine List.map_congr_left fun k hk => ?_
  simp only [Function.comp_apply, hiddenOrRenamed, List.map_id']
  by_cases hrem : k.column.name ∈ m.removed
  · rw [if_pos hrem, hm.removed_stays hrem]
    have hcol : m.source.column k.column.name = some k.column :=
      (column_eq_some_iff hm.sourceNodup).mpr ⟨hr.mem hk, rfl⟩
    have hmem : (hideChange k.column (w.hold (.removed m.source.name k.column.name)) : Change V) ∈
        hideChanges w m := mem_hideChanges.mpr ⟨_, hrem, _, hcol, rfl⟩
    unfold changed
    split
    · next x hx =>
      obtain ⟨c, hc, s, hs, rfl⟩ := mem_hideChanges.mp (List.mem_of_find?_eq_some hx)
      obtain ⟨hsmem, rfl⟩ := column_mem hs
      have hname : s.name = k.column.name := by
        have hfound := List.find?_some hx
        exact of_decide_eq_true hfound
      obtain rfl : s = k.column := List.inj_on_of_nodup_map hm.sourceNodup hsmem (hr.mem hk) hname
      simp [hideChange]
    · next hnone =>
      have := List.find?_eq_none.mp hnone _ hmem
      simp [hideChange] at this
  · rw [if_neg hrem]
    unfold changed
    split
    · next x hx =>
      obtain ⟨c, hc, s, hs, rfl⟩ := mem_hideChanges.mp (List.mem_of_find?_eq_some hx)
      obtain ⟨hsmem, rfl⟩ := column_mem hs
      have hname : s.name = renamedOr m.renames k.column.name := by
        have hfound := List.find?_some hx
        exact of_decide_eq_true hfound
      have hsame : s.name = k.column.name := hm.renamed_inj (List.mem_map_of_mem hsmem)
        (hr.name_mem hk) ((hm.removed_stays hc).trans hname)
      exact absurd (hsame ▸ hc) hrem
    · rfl

/-- The table with more columns of initial values. -/
def Relation.withColumns (v : RowValues V) (columns : List Column) (r : Relation V) : Relation V :=
  columns.foldl (fun r c => r.withColumn v c) r

theorem withColumns_rows {columns : List Column} : (r.withColumns v columns).rows = r.rows := by
  induction columns generalizing r with
  | nil => rfl
  | cons c columns ih => exact ih

theorem withColumns_columns {columns : List Column} : (r.withColumns v columns).columns =
    r.columns ++ columns.map fun c => ⟨c, List.replicate r.rows (v.initial c)⟩ := by
  induction columns generalizing r with
  | nil => simp [Relation.withColumns]
  | cons c columns ih =>
    refine (ih (r := r.withColumn v c)).trans ?_
    simp [Relation.withColumn]

theorem turns_withColumns {columns : List Column} (hnodup : (columns.map Column.name).Nodup)
    (hnew : ∀ c ∈ columns, c.name ∉ r.names) :
    Turns (exec v) table (columns.map (Statement.addColumn table)) r (r.withColumns v columns) := by
  induction columns generalizing r with
  | nil => exact Turns.nil
  | cons c columns ih =>
    obtain ⟨hhead, htail⟩ := List.nodup_cons.mp hnodup
    have hadd : Turns (exec v) table [.addColumn table c] r (r.withColumn v c) :=
      Turns.onKey (fun _ => rfl) (if_neg (hnew c List.mem_cons_self))
    refine hadd.cons (ih htail fun c' hc' hmem => ?_)
    obtain ⟨k, hk, hname⟩ := Relation.mem_names_iff.mp hmem
    rcases List.mem_append.mp hk with hk | hk
    · exact hnew c' (List.mem_cons_of_mem _ hc') (Relation.mem_names_iff.mpr ⟨k, hk, hname⟩)
    · rw [List.mem_singleton.mp hk] at hname
      exact hhead (hname ▸ List.mem_map_of_mem hc')

theorem mem_addedColumns (hm : m.Sound) {c : Column} :
    c ∈ m.addedColumns ↔ c ∈ m.target.columns ∧ c.name ∈ m.added := by
  simp only [Match.addedColumns, List.mem_flatMap, Option.mem_toList]
  constructor
  · rintro ⟨n, hn, hc⟩
    obtain ⟨hmem, rfl⟩ := column_mem hc
    exact ⟨hmem, hn⟩
  · rintro ⟨hmem, hn⟩
    exact ⟨c.name, hn, (column_eq_some_iff hm.targetNodup).mpr ⟨hmem, rfl⟩⟩

theorem addedColumns_names (hm : m.Sound) : m.addedColumns.map Column.name = m.added := by
  have hall : ∀ c ∈ m.added, (m.target.column c).toList.map Column.name = [c] := by
    intro c hc
    obtain ⟨t, ht⟩ := Option.isSome_iff_exists.mp (column_isSome_iff.mpr (hm.mem_added.mp hc).1)
    rw [ht]
    simpa using (column_mem ht).2
  unfold Match.addedColumns
  rw [List.map_flatMap, List.flatMap_congr hall]
  simp

/-- The table after the hides and the added columns. -/
def widenedTable (v : RowValues V) (w : PlanWriter) (m : Match) (r : Relation V) : Relation V :=
  ((hideChanges w m).foldl Relation.change (r.renamed m.renames)).withColumns v m.addedColumns

theorem widenedTable_columns (hm : m.Sound) (hw : Held w m) (hr : r.Of m.source) :
    (widenedTable v w m r).columns = r.columns.map (hiddenOrRenamed w m) ++
      m.addedColumns.map fun c => ⟨c, List.replicate r.rows (v.initial c)⟩ := by
  unfold widenedTable
  rw [withColumns_columns, hidden_columns hm hw hr, foldl_change_rows]
  rfl

theorem hidden_name (hm : m.Sound) (hr : r.Of m.source) {k : StoredColumn V} (hk : k ∈ r.columns) :
    (hiddenOrRenamed w m k).column.name = w.hold (.removed m.source.name k.column.name) ∧
        k.column.name ∈ m.removed ∨
      (hiddenOrRenamed w m k).column = { k.column with name := renamedOr m.renames k.column.name } ∧
        (renamedOr m.renames k.column.name, k.column.name) ∈ m.columnOf := by
  rcases hm.kept_or_removed (hr.name_mem hk) with hkept | hrem
  · refine .inr ⟨?_, hkept⟩
    have hnot : k.column.name ∉ m.removed := fun h =>
      (hm.mem_removed.mp h).2 (hm.mem_columnOf.mp hkept).2.1
    simp [hiddenOrRenamed, hnot]
  · exact .inl ⟨by simp [hiddenOrRenamed, hrem], hrem⟩

theorem addColumns_turns (hm : m.Sound) (hw : Held w m) (hr : r.Of m.source) :
    Turns (exec v) m.name ((w.addColumns m).map Step.statement)
      ((hideChanges w m).foldl Relation.change (r.renamed m.renames)) (widenedTable v w m r) := by
  have hprog : (w.addColumns m).map Step.statement =
      m.addedColumns.map (Statement.addColumn m.name) := by
    simp only [PlanWriter.addColumns, Match.addedColumns, List.map_flatMap]
    refine List.flatMap_congr fun c _ => ?_
    cases m.target.column c with
    | none => rfl
    | some t => rfl
  rw [hprog]
  refine turns_withColumns ?_ fun c hc hmem => ?_
  · rw [addedColumns_names hm]
    exact hm.added_nodup
  · obtain ⟨htarget, hadded⟩ := (mem_addedColumns hm).mp hc
    obtain ⟨_, hnot⟩ := hm.mem_added.mp hadded
    obtain ⟨k, hk, hname⟩ := Relation.mem_names_iff.mp hmem
    rw [hidden_columns hm hw hr] at hk
    obtain ⟨k₀, hk₀, rfl⟩ := List.mem_map.mp hk
    rcases hidden_name hm hr hk₀ with ⟨hhold, hrem⟩ | ⟨hcol, hkept⟩
    · refine hw.unnamed _ hrem ?_
      rw [← hhold, hname]
      exact hm.targetNamed _ (List.mem_map_of_mem htarget)
    · rw [hcol] at hname
      exact hnot (hname ▸ List.mem_map_of_mem hkept)

theorem mem_alterChanges {x : Change V} : x ∈ alterChanges v m ↔
    ∃ c ∈ m.altered, ∃ s t, (mapGet m.columnOf c).bind m.source.column = some s ∧
      m.target.column c = some t ∧ x = alterChange v { s with name := t.name } t := by
  simp only [alterChanges, List.mem_flatMap, List.mem_map, Option.mem_toList]
  constructor
  · rintro ⟨c, hc, s, hs, t, ht, rfl⟩
    exact ⟨c, hc, s, t, hs, ht, rfl⟩
  · rintro ⟨c, hc, s, t, hs, ht, rfl⟩
    exact ⟨c, hc, s, hs, t, ht, rfl⟩

theorem alterChanges_apart (hm : m.Sound) : (alterChanges v m).Pairwise Change.Apart := by
  unfold alterChanges
  rw [List.pairwise_flatMap]
  refine ⟨fun c _ => ?_, ?_⟩
  · cases (mapGet m.columnOf c).bind m.source.column with
    | none => exact List.Pairwise.nil
    | some s =>
      cases m.target.column c with
      | none => exact List.Pairwise.nil
      | some t => exact List.pairwise_singleton _ _
  · refine hm.altered_nodup.imp_of_mem fun {c c'} _ _ hne x hx y hy => ?_
    simp only [List.mem_flatMap, List.mem_map, Option.mem_toList] at hx hy
    obtain ⟨s, _, t, ht, rfl⟩ := hx
    obtain ⟨s', _, t', ht', rfl⟩ := hy
    obtain ⟨_, rfl⟩ := column_mem ht
    obtain ⟨_, rfl⟩ := column_mem ht'
    exact ⟨hne.symm, hne, hne⟩

/-- An altered column is a kept column of the table under its target name. -/
theorem alterChanges_ready (hm : m.Sound) (hw : Held w m) (hr : r.Of m.source) {x : Change V}
    (hx : x ∈ alterChanges v m) : x.Ready (widenedTable v w m r) := by
  obtain ⟨c, hc, s, t, hs, ht, rfl⟩ := mem_alterChanges.mp hx
  obtain ⟨htmem, rfl⟩ := column_mem ht
  obtain ⟨old, hget, hold⟩ := Option.bind_eq_some_iff.mp hs
  obtain ⟨hsmem, rfl⟩ := column_mem hold
  have hkept := mapGet_mem hget
  obtain ⟨_, _, hren⟩ := hm.mem_columnOf.mp hkept
  obtain ⟨k, hk, hks⟩ := hr.exists hsmem
  refine ⟨?_, ?_, .inl rfl⟩
  · refine Relation.mem_names_iff.mpr ⟨hiddenOrRenamed w m k, ?_, ?_⟩
    · rw [widenedTable_columns hm hw hr]
      exact List.mem_append_left _ (List.mem_map_of_mem hk)
    · rcases hidden_name hm hr hk with ⟨_, hrem⟩ | ⟨hcol, _⟩
      · rw [hks] at hrem
        exact absurd (hm.mem_columnOf.mp hkept).2.1 (hren ▸ (hm.mem_removed.mp hrem).2)
      · rw [hcol, hks]
        exact hren
  · intro k' hk' hname
    rw [widenedTable_columns hm hw hr] at hk'
    rcases List.mem_append.mp hk' with hk' | hk'
    · obtain ⟨k₀, hk₀, rfl⟩ := List.mem_map.mp hk'
      rcases hidden_name hm hr hk₀ with ⟨hhold, hrem⟩ | ⟨hcol, _⟩
      · refine absurd ?_ (hw.unnamed _ hrem)
        rw [← hhold, show (hiddenOrRenamed w m k₀).column.name = t.name from hname]
        exact hm.targetNamed _ (List.mem_map_of_mem htmem)
      · rw [hcol] at hname ⊢
        have hsame : k₀.column.name = s.name :=
          hm.renamed_inj (hr.name_mem hk₀) (List.mem_map_of_mem hsmem) (hname.trans hren.symm)
        have hcol₀ : k₀.column = s :=
          List.inj_on_of_nodup_map hm.sourceNodup (hr.mem hk₀) hsmem hsame
        rw [hcol₀, hren]
        rfl
    · obtain ⟨c, hc, rfl⟩ := List.mem_map.mp hk'
      have hadded := ((mem_addedColumns hm).mp hc).2
      rw [show c.name = t.name from hname] at hadded
      have hmem : t.name ∈ m.columnOf.map Prod.fst := List.mem_map_of_mem hkept
      exact absurd hmem (hm.mem_added.mp hadded).2

theorem alterColumns_turns (hm : m.Sound) (hw : Held w m) (hr : r.Of m.source) :
    Turns (exec v) m.name ((w.alterColumns m).map Step.statement) (widenedTable v w m r)
      ((alterChanges v m).foldl Relation.change (widenedTable v w m r)) := by
  have hprog : (w.alterColumns m).map Step.statement = (alterChanges v m).flatMap
      fun x => (w.alterColumn m.name x.old x.new).map Step.statement := by
    simp only [PlanWriter.alterColumns, alterChanges, List.map_flatMap, List.flatMap_assoc]
    refine List.flatMap_congr fun c _ => ?_
    cases (mapGet m.columnOf c).bind m.source.column with
    | none => rfl
    | some s =>
      cases m.target.column c with
      | none => rfl
      | some t => simp [alterChange]; rfl
  rw [hprog]
  refine turns_changes (fun x hx r' hready => ?_) (alterChanges_apart hm)
    fun x hx => alterChanges_ready hm hw hr hx
  obtain ⟨c, hc, s, t, hs, ht, rfl⟩ := mem_alterChanges.mp hx
  obtain ⟨old, hget, hold⟩ := Option.bind_eq_some_iff.mp hs
  obtain ⟨s', t', hs', ht', hidentity, _⟩ := hm.kept_column (mapGet_mem hget)
  obtain rfl : s = s' := Option.some.inj (hold.symm.trans hs')
  obtain rfl : t = t' := Option.some.inj (ht.symm.trans ht')
  exact alterColumn_turns hready.there hidentity hready.defined

/-- The table that the in-place program leaves. -/
def alteredTable (v : RowValues V) (w : PlanWriter) (m : Match) (r : Relation V) : Relation V :=
  (alterChanges v m).foldl Relation.change (widenedTable v w m r)

/-- The target column of a kept column. -/
theorem alteredTable_kept (hm : m.Sound) (hr : r.Of m.source) {k : StoredColumn V}
    (hk : k ∈ r.columns) (hkept : (renamedOr m.renames k.column.name, k.column.name) ∈ m.columnOf) :
    ∃ t, m.target.column (renamedOr m.renames k.column.name) = some t ∧
      changed (alterChanges v m) (hiddenOrRenamed w m k) =
        ⟨t, k.values.map (v.widen k.column.type t.type)⟩ := by
  obtain ⟨s, t, hs, ht, hidentity, hsame⟩ := hm.kept_column hkept
  obtain ⟨htmem, htname⟩ := column_mem ht
  obtain ⟨hsmem, hsname⟩ := column_mem hs
  obtain rfl : s = k.column := List.inj_on_of_nodup_map hm.sourceNodup hsmem (hr.mem hk) hsname
  have hnot : k.column.name ∉ m.removed := fun h =>
    (hm.mem_removed.mp h).2 (hm.mem_columnOf.mp hkept).2.1
  refine ⟨t, ht, ?_⟩
  unfold hiddenOrRenamed
  rw [if_neg hnot]
  unfold changed
  split
  · next x hx =>
    obtain ⟨c, hc, s', t', hs', ht', rfl⟩ := mem_alterChanges.mp (List.mem_of_find?_eq_some hx)
    obtain ⟨ht'mem, rfl⟩ := column_mem ht'
    have hfound := List.find?_some hx
    have hname : t'.name = renamedOr m.renames k.column.name := of_decide_eq_true hfound
    obtain rfl : t' = t := List.inj_on_of_nodup_map hm.targetNodup ht'mem htmem
      (hname.trans htname.symm)
    rw [htname, hm.get_columnOf hkept, Option.bind_some, hs] at hs'
    obtain rfl := Option.some.inj hs'
    rfl
  · next hnone =>
    have haltered : renamedOr m.renames k.column.name ∉ m.altered := by
      intro hmem
      have hx : alterChange v { k.column with name := t.name } t ∈ alterChanges v m :=
        mem_alterChanges.mpr ⟨_, hmem, k.column, t, by rw [hm.get_columnOf hkept]; exact hs, ht, rfl⟩
      exact List.find?_eq_none.mp hnone _ hx (decide_eq_true htname)
    have heq := hsame haltered
    have hvalues : k.values.map (v.widen k.column.type t.type) = k.values := by
      rw [heq]
      exact (List.map_congr_left fun x _ => widen_self _ x).trans (List.map_id _)
    rw [hvalues, heq]

/-- What a plan makes of a matched table: the target columns in their order with the kept and the
initial values, and the removed columns under their holding names. -/
structure Moved (v : RowValues V) (w : PlanWriter) (m : Match) (r r' : Relation V) : Prop where
  rows : r'.rows = r.rows
  columns : (r'.columns.map StoredColumn.column).filter (fun c => c.name ∈ m.target.columnNames) =
    m.target.columns
  kept : ∀ k ∈ r.columns, ∀ k' ∈ r'.columns, (k'.column.name, k.column.name) ∈ m.columnOf →
    k'.values = k.values.map (v.widen k.column.type k'.column.type)
  added : ∀ k' ∈ r'.columns, k'.column.name ∈ m.added →
    k'.values = List.replicate r.rows (v.initial k'.column)
  held : ∀ k ∈ r.columns, k.column.name ∈ m.removed → ∃ k' ∈ r'.columns,
    k'.column.name = w.hold (.removed m.source.name k.column.name) ∧
      k'.column.type = k.column.type ∧ k'.values = k.values
  others : ∀ k' ∈ r'.columns, k'.column.name ∈ m.target.columnNames ∨
    ∃ c ∈ m.removed, k'.column.name = w.hold (.removed m.source.name c)

theorem eq_of_map_eq {α β : Type} {f : α → β} {l l' : List α} (h : l.map f = l'.map f)
    (hinj : ∀ a ∈ l, ∀ b ∈ l', f a = f b → a = b) : l = l' := by
  induction l generalizing l' with
  | nil =>
    cases l' with
    | nil => rfl
    | cons b l' => cases h
  | cons a l ih =>
    cases l' with
    | nil => cases h
    | cons b l' =>
      obtain ⟨hhead, htail⟩ := List.cons.inj h
      rw [hinj a List.mem_cons_self b List.mem_cons_self hhead, ih htail fun a' ha' b' hb' =>
        hinj a' (List.mem_cons_of_mem _ ha') b' (List.mem_cons_of_mem _ hb')]

/-- The kept source columns in order have the kept target names in order. -/
theorem kept_names (hm : m.Sound) (hr : r.Of m.source) :
    (r.columns.filter fun k => k.column.name ∉ m.removed).map
      (fun k => renamedOr m.renames k.column.name) = m.columnOf.map Prod.fst := by
  have hsource : r.columns.map (fun k => k.column.name) = m.source.columnNames := by
    rw [Table.columnNames, ← hr, List.map_map]
    rfl
  have hkept : (r.columns.filter fun k => k.column.name ∉ m.removed).map
      (fun k => renamedOr m.renames k.column.name) =
      (m.source.columnNames.filter fun c => c ∉ m.removed).map (renamedOr m.renames) := by
    rw [← hsource, List.filter_map, List.map_map]
    rfl
  rw [hkept, hm.columnOf]
  unfold columnPairs
  rw [Table.columnNames, List.filter_map, List.map_map, List.map_filterMap]
  have hall : ∀ c ∈ m.source.columns, (decide (c.name ∉ m.removed) = true ↔
      (m.target.column (renamedOr m.renames c.name)).isSome = true) := by
    intro c hc
    rw [decide_eq_true_iff, column_isSome_iff, hm.mem_removed, not_and, not_not]
    exact ⟨fun h => h (List.mem_map_of_mem hc), fun h _ => h⟩
  generalize m.source.columns = l at hall ⊢
  induction l with
  | nil => rfl
  | cons c l ih =>
    have ih := ih fun c' hc' => hall c' (List.mem_cons_of_mem _ hc')
    have hc := hall c List.mem_cons_self
    by_cases hsome : (m.target.column (renamedOr m.renames c.name)).isSome = true
    · have hkeep := hc.mpr hsome
      simp only [List.filter_cons, Function.comp_apply, hkeep, if_true, List.map_cons,
        List.filterMap_cons, hsome, Option.map_some] at ih ⊢
      rw [← ih]
    · have hdrop : ¬ decide (c.name ∉ m.removed) = true := fun h => hsome (hc.mp h)
      simp only [List.filter_cons, Function.comp_apply, hdrop, List.filterMap_cons, hsome] at ih ⊢
      simpa using ih

theorem changed_alter_other {k : StoredColumn V} (hk : k.column.name ∉ m.altered) :
    changed (alterChanges v m) k = k := by
  unfold changed
  split
  · next x hx =>
    obtain ⟨c, hc, s, t, _, ht, rfl⟩ := mem_alterChanges.mp (List.mem_of_find?_eq_some hx)
    obtain ⟨_, rfl⟩ := column_mem ht
    have hfound := List.find?_some hx
    have hname : t.name = k.column.name := of_decide_eq_true hfound
    exact absurd (hname ▸ hc) hk
  · rfl

theorem alteredTable_columns (hm : m.Sound) (hw : Held w m) (hr : r.Of m.source) :
    (alteredTable v w m r).columns =
      r.columns.map (fun k => changed (alterChanges v m) (hiddenOrRenamed w m k)) ++
      m.addedColumns.map fun c => ⟨c, List.replicate r.rows (v.initial c)⟩ := by
  unfold alteredTable
  rw [foldl_change_columns (alterChanges_apart hm), widenedTable_columns hm hw hr, List.map_append,
    List.map_map, List.map_map]
  congr 1
  refine List.map_congr_left fun c hc => changed_alter_other fun halt => ?_
  obtain ⟨old, hold⟩ := hm.mem_altered halt
  exact (hm.mem_added.mp ((mem_addedColumns hm).mp hc).2).2 (List.mem_map_of_mem hold)

theorem hidden_stays (hm : m.Sound) (hw : Held w m) {k : StoredColumn V}
    (hk : k.column.name ∈ m.removed) : changed (alterChanges v m) (hiddenOrRenamed w m k) =
      ⟨{ k.column with name := w.hold (.removed m.source.name k.column.name), nullable := true },
        k.values⟩ := by
  have hhide : hiddenOrRenamed w m k = ⟨{ k.column with
      name := w.hold (.removed m.source.name k.column.name), nullable := true }, k.values⟩ :=
    if_pos hk
  rw [hhide]
  refine changed_alter_other fun halt => ?_
  obtain ⟨old, hold⟩ := hm.mem_altered halt
  exact hw.unnamed _ hk (hm.targetNamed _ (hm.mem_columnOf.mp hold).2.1)

/-- A column of the altered table: a hidden one, a kept one or an added one. -/
theorem mem_alteredTable (hm : m.Sound) (hw : Held w m) (hr : r.Of m.source) {k' : StoredColumn V}
    (hk' : k' ∈ (alteredTable v w m r).columns) :
    (∃ k ∈ r.columns, k.column.name ∈ m.removed ∧
      k'.column.name = w.hold (.removed m.source.name k.column.name)) ∨
    (∃ k ∈ r.columns, (k'.column.name, k.column.name) ∈ m.columnOf ∧ k'.column ∈ m.target.columns ∧
      k'.values = k.values.map (v.widen k.column.type k'.column.type)) ∨
    (k'.column ∈ m.addedColumns ∧ k'.values = List.replicate r.rows (v.initial k'.column)) := by
  rw [alteredTable_columns hm hw hr] at hk'
  rcases List.mem_append.mp hk' with hk' | hk'
  · obtain ⟨k, hk, rfl⟩ := List.mem_map.mp hk'
    rcases hm.kept_or_removed (hr.name_mem hk) with hkept | hrem
    · obtain ⟨t, ht, heq⟩ := alteredTable_kept (v := v) (w := w) hm hr hk hkept
      obtain ⟨htmem, htname⟩ := column_mem ht
      refine .inr (.inl ⟨k, hk, ?_, ?_, ?_⟩)
      · rw [heq]
        exact htname ▸ hkept
      · rw [heq]
        exact htmem
      · rw [heq]
    · refine .inl ⟨k, hk, hrem, ?_⟩
      rw [hidden_stays hm hw hrem]
  · obtain ⟨c, hc, rfl⟩ := List.mem_map.mp hk'
    exact .inr (.inr ⟨hc, rfl⟩)

theorem alteredTable_names (hm : m.Sound) (hw : Held w m) (hr : r.Of m.source) :
    ((alteredTable v w m r).columns.map fun k => k.column.name).filter
      (· ∈ m.target.columnNames) = m.target.columnNames := by
  have hname : ∀ k ∈ r.columns,
      (changed (alterChanges v m) (hiddenOrRenamed w m k)).column.name =
        if k.column.name ∈ m.removed then w.hold (.removed m.source.name k.column.name)
        else renamedOr m.renames k.column.name := by
    intro k hk
    rcases hm.kept_or_removed (hr.name_mem hk) with hkept | hrem
    · have hnot : k.column.name ∉ m.removed := fun h =>
        (hm.mem_removed.mp h).2 (hm.mem_columnOf.mp hkept).2.1
      obtain ⟨t, ht, heq⟩ := alteredTable_kept (v := v) (w := w) hm hr hk hkept
      rw [if_neg hnot, heq]
      exact (column_mem ht).2
    · rw [if_pos hrem, hidden_stays hm hw hrem]
  rw [alteredTable_columns hm hw hr, List.map_append, List.map_map, List.map_map,
    List.filter_append]
  have hadded : (m.addedColumns.map ((fun k : StoredColumn V => k.column.name) ∘
      fun c => ⟨c, List.replicate r.rows (v.initial c)⟩)).filter (· ∈ m.target.columnNames) =
      m.added := by
    rw [← addedColumns_names hm]
    refine List.filter_eq_self.mpr fun n hn => ?_
    obtain ⟨c, hc, rfl⟩ := List.mem_map.mp hn
    exact decide_eq_true (List.mem_map_of_mem ((mem_addedColumns hm).mp hc).1)
  have hkept : (r.columns.map ((fun k : StoredColumn V => k.column.name) ∘
      fun k => changed (alterChanges v m) (hiddenOrRenamed w m k))).filter
      (· ∈ m.target.columnNames) = m.columnOf.map Prod.fst := by
    have hmap : r.columns.map ((fun k : StoredColumn V => k.column.name) ∘
        fun k => changed (alterChanges v m) (hiddenOrRenamed w m k)) = r.columns.map fun k =>
          if k.column.name ∈ m.removed then w.hold (.removed m.source.name k.column.name)
          else renamedOr m.renames k.column.name := List.map_congr_left hname
    rw [hmap, ← kept_names hm hr, List.filter_map]
    have hfilter : r.columns.filter ((fun n => decide (n ∈ m.target.columnNames)) ∘
        fun k => if k.column.name ∈ m.removed then w.hold (.removed m.source.name k.column.name)
          else renamedOr m.renames k.column.name) =
        r.columns.filter fun k => k.column.name ∉ m.removed := by
      refine List.filter_congr fun k hk => ?_
      by_cases hrem : k.column.name ∈ m.removed
      · have hnot : w.hold (.removed m.source.name k.column.name) ∉ m.target.columnNames :=
          fun h => hw.unnamed _ hrem (hm.targetNamed _ h)
        simp [hrem, hnot]
      · have hmem : renamedOr m.renames k.column.name ∈ m.target.columnNames := by
          by_contra h
          exact hrem (hm.mem_removed.mpr ⟨hr.name_mem hk, h⟩)
        simp [hrem, hmem]
    rw [hfilter]
    refine List.map_congr_left fun k hk => ?_
    have hnot : k.column.name ∉ m.removed := of_decide_eq_true (List.mem_filter.mp hk).2
    exact if_neg hnot
  rw [hadded, hkept]
  exact hm.target_columns.symm

theorem alteredTable_moved (hm : m.Sound) (hw : Held w m) (hr : r.Of m.source) :
    Moved v w m r (alteredTable v w m r) where
  rows := by
    unfold alteredTable widenedTable
    rw [foldl_change_rows, withColumns_rows, foldl_change_rows]
    rfl
  columns := by
    have hnames := alteredTable_names (v := v) hm hw hr
    refine eq_of_map_eq (f := Column.name) ?_ fun c hc t ht hname => ?_
    · refine Eq.trans ?_ hnames
      rw [List.filter_map, List.filter_map, List.map_map]
      rfl
    · obtain ⟨hc, htarget⟩ := List.mem_filter.mp hc
      obtain ⟨k', hk', rfl⟩ := List.mem_map.mp hc
      have htarget := of_decide_eq_true htarget
      rcases mem_alteredTable hm hw hr hk' with ⟨k, hk, hrem, hhold⟩ | ⟨k, _, _, hmem, _⟩ | ⟨hmem, _⟩
      · exact absurd (hm.targetNamed _ (hhold ▸ htarget)) (hw.unnamed _ hrem)
      · exact List.inj_on_of_nodup_map hm.targetNodup hmem ht hname
      · exact List.inj_on_of_nodup_map hm.targetNodup ((mem_addedColumns hm).mp hmem).1 ht hname
  kept := by
    intro k hk k' hk' hpair
    rcases mem_alteredTable hm hw hr hk' with ⟨k₀, _, hrem, hhold⟩ | ⟨k₀, hk₀, hpair₀, _, hvalues⟩ |
      ⟨hmem, _⟩
    · refine absurd (hm.targetNamed _ (hm.mem_columnOf.mp hpair).2.1) ?_
      rw [hhold]
      exact hw.unnamed _ hrem
    · have hname : k₀.column.name = k.column.name := by
        have := hm.get_columnOf hpair₀
        rw [hm.get_columnOf hpair] at this
        exact (Option.some.inj this).symm
      have hsame : k₀.column = k.column :=
        List.inj_on_of_nodup_map hm.sourceNodup (hr.mem hk₀) (hr.mem hk) hname
      have hstored : (r.columns.map fun k => k.column.name).Nodup := by
        have hcolumns := hm.sourceNodup
        rw [Table.columnNames, ← hr, List.map_map] at hcolumns
        exact hcolumns
      obtain rfl : k₀ = k := List.inj_on_of_nodup_map hstored hk₀ hk hname
      exact hvalues
    · have hadded := ((mem_addedColumns hm).mp hmem).2
      exact absurd (List.mem_map_of_mem hpair) (hm.mem_added.mp hadded).2
  added := by
    intro k' hk' hadded
    rcases mem_alteredTable hm hw hr hk' with ⟨k₀, _, hrem, hhold⟩ | ⟨k₀, hk₀, hpair₀, _, hvalues⟩ |
      ⟨_, hvalues⟩
    · refine absurd (hm.targetNamed _ (hm.mem_added.mp hadded).1) ?_
      rw [hhold]
      exact hw.unnamed _ hrem
    · exact absurd (List.mem_map_of_mem hpair₀) (hm.mem_added.mp hadded).2
    · exact hvalues
  held := by
    intro k hk hrem
    refine ⟨changed (alterChanges v m) (hiddenOrRenamed w m k), ?_, ?_⟩
    · rw [alteredTable_columns hm hw hr]
      exact List.mem_append_left _ (List.mem_map_of_mem hk)
    · rw [hidden_stays hm hw hrem]
      exact ⟨rfl, rfl, rfl⟩
  others := by
    intro k' hk'
    rcases mem_alteredTable hm hw hr hk' with ⟨k₀, _, hrem, hhold⟩ | ⟨k₀, _, _, hmem, _⟩ | ⟨hmem, _⟩
    · exact .inr ⟨_, hrem, hhold⟩
    · exact .inl (List.mem_map_of_mem hmem)
    · exact .inl (List.mem_map_of_mem ((mem_addedColumns hm).mp hmem).1)

/-- The in-place program of a matched table after the hides. -/
theorem columns_turns (hm : m.Sound) (hw : Held w m) (hr : r.Of m.source) :
    Turns (exec v) m.name ((w.addColumns m ++ w.alterColumns m).map Step.statement)
      ((hideChanges w m).foldl Relation.change (r.renamed m.renames)) (alteredTable v w m r) := by
  rw [List.map_append]
  exact (addColumns_turns hm hw hr).append (alterColumns_turns hm hw hr)

end Plain

end Orm.Dbspec
