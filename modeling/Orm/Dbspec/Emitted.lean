import Orm.Engine.Order
import Orm.Dbspec.Lines
import Orm.Dbspec.Pairing

/-! The canonical text of a plan, read again. -/
namespace Orm.Dbspec

open Orm.Logic
open Orm.Engine (sortedEntries sortedEntries_congr sortedEntries_sorted sortedEntries_stable)

section Emit
variable {digest : String → String}

def ColumnRename.sourceText (c : ColumnRename) : String := c.table ++ "." ++ c.old

def ColumnName.text (c : ColumnName) : String := c.table ++ "." ++ c.name

/-- The header lines of a plan: each kind after the other, and each in name order. -/
def emittedLines (p : Plan) : List HeaderLine :=
  (sortedEntries TableRename.old p.renameTables).map (fun r => .renameTable r.old r.new) ++
  (sortedEntries ColumnRename.sourceText p.renameColumns).map
    (fun r => .renameColumn r.table r.old r.new) ++
  (sortedEntries id p.dropTables).map .dropTable ++
  (sortedEntries ColumnName.text p.dropColumns).map (fun c => .dropColumn c.table c.name)

/-- Writes a plan as its canonical document. -/
def emitPlan (r : SchemaReader digest) (p : Plan) : String :=
  "dbplan 1 " ++ p.name ++ "\n" ++ ("from " ++ fromText p.from_ ++ "\n") ++
    String.join ((emittedLines p).map fun l => l.text ++ "\n") ++ "\n" ++ r.emitDbspec p.schema

end Emit

section Order
variable {p : Plan} {ls ls' : List HeaderLine}

/-- The plan with its renames and permissions in name order. -/
def Plan.sorted (p : Plan) : Plan where
  name := p.name
  from_ := p.from_
  renameTables := sortedEntries TableRename.old p.renameTables
  renameColumns := sortedEntries ColumnRename.sourceText p.renameColumns
  dropTables := sortedEntries id p.dropTables
  dropColumns := sortedEntries ColumnName.text p.dropColumns
  schema := p.schema

/-- The lines of each kind after the other. -/
def byKind (ls : List HeaderLine) : List HeaderLine :=
  (ls.filterMap HeaderLine.tableRename).map (fun r => .renameTable r.old r.new) ++
  (ls.filterMap HeaderLine.columnRename).map (fun r => .renameColumn r.table r.old r.new) ++
  (ls.filterMap HeaderLine.droppedTable).map .dropTable ++
  (ls.filterMap HeaderLine.droppedColumn).map (fun c => .dropColumn c.table c.name)

theorem byKind_perm (ls : List HeaderLine) : (byKind ls).Perm ls := by
  induction ls with
  | nil => exact .nil
  | cons l ls ih =>
    refine .trans ?_ (ih.cons l)
    cases l with
    | renameTable old new => exact .refl _
    | renameColumn table old new => exact (List.perm_middle.append_right _).append_right _
    | dropTable name => exact List.perm_middle.append_right _
    | dropColumn table name => exact List.perm_middle

theorem emittedLines_perm (p : Plan) : (emittedLines p).Perm
    (p.renameTables.map (fun r => .renameTable r.old r.new) ++
      p.renameColumns.map (fun r => .renameColumn r.table r.old r.new) ++
      p.dropTables.map .dropTable ++ p.dropColumns.map (fun c => .dropColumn c.table c.name)) := by
  have hsorted : ∀ {α : Type} (name : α → String) (l : List α), (sortedEntries name l).Perm l :=
    fun _ l => List.perm_insertionSort _ l
  exact ((((hsorted _ _).map _).append ((hsorted _ _).map _)).append ((hsorted _ _).map _)).append
    ((hsorted _ _).map _)

theorem emittedLines_lists (p : Plan) :
    (emittedLines p).filterMap HeaderLine.tableRename = p.sorted.renameTables ∧
    (emittedLines p).filterMap HeaderLine.columnRename = p.sorted.renameColumns ∧
    (emittedLines p).filterMap HeaderLine.droppedTable = p.sorted.dropTables ∧
    (emittedLines p).filterMap HeaderLine.droppedColumn = p.sorted.dropColumns := by
  unfold emittedLines
  simp only [List.filterMap_append, List.filterMap_map]
  simp [Function.comp_def, HeaderLine.tableRename, HeaderLine.columnRename, HeaderLine.droppedTable,
    HeaderLine.droppedColumn, Plan.sorted]

theorem emittedLines_sorted (p : Plan) : emittedLines p.sorted = emittedLines p := by
  simp only [emittedLines, Plan.sorted, sortedEntries_sorted]

theorem Header.Takes.perm (h : Header.empty.Takes ls) (hperm : ls.Perm ls') :
    Header.empty.Takes ls' where
  named := fun l hl => h.named l (hperm.mem_iff.mpr hl)
  lines := (hperm.map _).nodup_iff.mp h.lines
  keys := (hperm.filterMap _).nodup_iff.mp h.keys
  unseen := fun _ _ => List.not_mem_nil
  fresh := fun _ _ => List.not_mem_nil

end Order

section Forms
variable {digest : String → String} {r : SchemaReader digest} {text : String} {p p' : Plan}
  {ls ls' : List HeaderLine} {rest rest' : List String}

/-- The lines of a target as the canonical text writes them. -/
def targetLines (rest : List String) : List String := if rest = [] then [""] else rest

theorem Target.lines {schema : Document} (h : Target r rest schema) :
    Target r (targetLines rest) schema ∧ joinLines (targetLines rest) = joinLines rest := by
  unfold targetLines
  by_cases hrest : rest = []
  · subst hrest
    have hjoin : joinLines [""] = joinLines [] := by decide
    rw [if_pos rfl]
    exact ⟨⟨by simp, hjoin ▸ h.parsed, h.schemaText, hjoin ▸ h.canonical⟩, hjoin⟩
  · rw [if_neg hrest]
    exact ⟨h, rfl⟩

theorem emitPlan_lines (h : Target r rest p.schema) :
    emitPlan r p = joinLines (documentLines p (emittedLines p) (targetLines rest)) := by
  have hne : targetLines rest ≠ [] := by
    unfold targetLines
    split
    · simp
    · assumption
  apply String.toList_inj.mp
  unfold emitPlan
  rw [h.canonical, ← h.lines.2, joinLines_toList (by simp [documentLines])]
  simp only [String.toList_append, joinLines_toList hne, String.toList_join]
  simp [documentLines, terminated, List.flatMap_map]

theorem PlanForm.perm (h : PlanForm r text p ls rest) : (emittedLines p).Perm ls := by
  refine (emittedLines_perm p).trans ?_
  rw [h.renameTables, h.renameColumns, h.dropTables, h.dropColumns]
  exact byKind_perm ls

/-- The header of a document in another order. -/
theorem PlanForm.reorder (h : PlanForm r text p ls rest) (hperm : ls.Perm ls')
    (hrest : Target r rest' p.schema) (hfree : ∀ line ∈ rest', '\n' ∉ line.toList)
    (hname : p'.name = p.name) (hfrom : p'.from_ = p.from_) (hschema : p'.schema = p.schema)
    (htables : p'.renameTables = ls'.filterMap HeaderLine.tableRename)
    (hcolumns : p'.renameColumns = ls'.filterMap HeaderLine.columnRename)
    (hdropTables : p'.dropTables = ls'.filterMap HeaderLine.droppedTable)
    (hdropColumns : p'.dropColumns = ls'.filterMap HeaderLine.droppedColumn) :
    PlanForm r (joinLines (documentLines p' ls' rest')) p' ls' rest' where
  text := rfl
  free := by
    intro line hline
    rcases List.mem_cons.mp hline with rfl | hline
    · rw [hname]
      exact h.free _ List.mem_cons_self
    rcases List.mem_cons.mp hline with rfl | hline
    · rw [hfrom]
      exact h.free _ (List.mem_cons_of_mem _ List.mem_cons_self)
    rcases List.mem_append.mp hline with hline | hline
    · have hmem := (hperm.map HeaderLine.text).mem_iff.mpr hline
      exact h.free _ (List.mem_cons_of_mem _ (List.mem_cons_of_mem _ (List.mem_append_left _ hmem)))
    rcases List.mem_cons.mp hline with rfl | hline
    · simp
    · exact hfree line hline
  name := by
    rw [hname]
    exact h.name
  source := by
    rw [hfrom]
    exact h.source
  takes := h.takes.perm hperm
  renameTables := htables
  renameColumns := hcolumns
  dropTables := hdropTables
  dropColumns := hdropColumns
  target := by
    rw [hschema]
    exact hrest
  moves := by
    rw [hfrom, Plan.to, hschema]
    exact h.moves

theorem PlanForm.rest_free (h : PlanForm r text p ls rest) :
    ∀ line ∈ rest, '\n' ∉ line.toList := by
  intro line hline
  refine h.free line ?_
  simp [documentLines, hline]

/-- The canonical text is read as the plan with its header in name order. -/
theorem PlanForm.emitted (h : PlanForm r text p ls rest) :
    PlanForm r (emitPlan r p) p.sorted (emittedLines p) (targetLines rest) := by
  obtain ⟨htables, hcolumns, hdropTables, hdropColumns⟩ := emittedLines_lists p
  have hfree : ∀ line ∈ targetLines rest, '\n' ∉ line.toList := by
    unfold targetLines
    split
    · simp
    · exact h.rest_free
  have hform : PlanForm r (joinLines (documentLines p.sorted (emittedLines p) (targetLines rest)))
      p.sorted (emittedLines p) (targetLines rest) :=
    h.reorder h.perm.symm h.target.lines.1 hfree rfl rfl rfl htables.symm hcolumns.symm
      hdropTables.symm hdropColumns.symm
  rw [emitPlan_lines h.target]
  exact hform

theorem parsePlan_emitPlan (h : PlanForm r text p ls rest) :
    parsePlan r (emitPlan r p) = .ok p.sorted := parsePlan_iff.mpr ⟨_, _, h.emitted⟩

theorem emitPlan_sorted (r : SchemaReader digest) (p : Plan) : emitPlan r p.sorted = emitPlan r p := by
  unfold emitPlan
  rw [emittedLines_sorted]
  rfl

end Forms

section Reordered
variable {digest : String → String} {r : SchemaReader digest} {text text' : String} {p p' : Plan}
  {ls ls' : List HeaderLine} {rest rest' : List String}

/-- The lines of a document between its second line and the first blank line. -/
def headerOf (text : String) : List String := ((splitText '\n' text).drop 2).takeWhile (· ≠ "")

/-- Two texts differ only in the order of their header lines. -/
structure Reordered (text text' : String) : Prop where
  start : (splitText '\n' text).take 2 = (splitText '\n' text').take 2
  header : (headerOf text).Perm (headerOf text')
  rest : (splitText '\n' text).drop (2 + (headerOf text).length) =
    (splitText '\n' text').drop (2 + (headerOf text').length)

/-- The table or the column that a rename takes the name of. -/
def HeaderLine.source : HeaderLine → Option (Option String × String)
  | .renameTable old _ => some (none, old)
  | .renameColumn table old _ => some (some table, old)
  | _ => none

/-- No two header lines rename one table or one column. -/
def SourcesOnce (text : String) : Prop :=
  ((headerOf text).filterMap fun line => (headerLine line).bind HeaderLine.source).Nodup

theorem PlanForm.lines (h : PlanForm r text p ls rest) :
    splitText '\n' text = documentLines p ls rest ++ [""] := by
  rw [h.text]
  exact splitText_joinLines (List.cons_ne_nil _ _) h.free

theorem PlanForm.headerOf (h : PlanForm r text p ls rest) :
    headerOf text = ls.map HeaderLine.text := by
  have hlines : ∀ line ∈ ls.map HeaderLine.text, decide (line ≠ "") = true := by
    intro line hline
    obtain ⟨l, hl, rfl⟩ := List.mem_map.mp hline
    rw [decide_eq_true_eq]
    intro hempty
    have hread := (h.takes.named l hl).read
    rw [hempty] at hread
    cases hread
  unfold Dbspec.headerOf
  rw [h.lines]
  change ((ls.map HeaderLine.text ++ "" :: rest) ++ [""]).takeWhile _ = _
  rw [List.append_assoc, List.takeWhile_append_of_pos hlines]
  simp

theorem PlanForm.sources (h : PlanForm r text p ls rest) :
    SourcesOnce text ↔ (ls.filterMap HeaderLine.source).Nodup := by
  unfold SourcesOnce
  rw [h.headerOf, List.filterMap_map]
  have hsource : ls.filterMap ((fun line => (headerLine line).bind HeaderLine.source) ∘
      HeaderLine.text) = ls.filterMap HeaderLine.source := by
    refine List.filterMap_congr fun l hl => ?_
    simp [(h.takes.named l hl).read]
  rw [hsource]

theorem PlanForm.rest_lines (h : PlanForm r text p ls rest) :
    (splitText '\n' text).drop (2 + (Dbspec.headerOf text).length) = "" :: rest ++ [""] := by
  rw [h.lines, h.headerOf, List.length_map, Nat.add_comm]
  change ((ls.map HeaderLine.text ++ "" :: rest) ++ [""]).drop ls.length = _
  rw [List.append_assoc, List.drop_left' (List.length_map _)]

theorem PlanForm.read_lines (h : PlanForm r text p ls rest) :
    (ls.map HeaderLine.text).filterMap headerLine = ls := by
  rw [List.filterMap_map]
  refine (List.filterMap_congr fun l hl => ?_).trans List.filterMap_some
  exact (h.takes.named l hl).read

/-- What documents have in common that differ in the order of their header lines. -/
theorem PlanForm.of_reordered (h : PlanForm r text p ls rest) (h' : PlanForm r text' p' ls' rest')
    (ho : Reordered text text') :
    p.name = p'.name ∧ p.from_ = p'.from_ ∧ ls.Perm ls' ∧ p.schema = p'.schema := by
  have hstart := ho.start
  rw [h.lines, h'.lines] at hstart
  obtain ⟨hname, htail⟩ := List.cons.inj hstart
  have hfrom := (List.cons.inj htail).1
  have hheader := ho.header
  rw [h.headerOf, h'.headerOf] at hheader
  have hrest := ho.rest
  rw [h.rest_lines, h'.rest_lines] at hrest
  obtain rfl := List.append_cancel_right (List.cons.inj hrest).2
  refine ⟨?_, ?_, ?_, ?_⟩
  · have hsome := h.name
    rw [hname, h'.name] at hsome
    exact (Option.some.inj hsome).symm
  · have hsome := h.source
    rw [hfrom, h'.source] at hsome
    exact (Option.some.inj hsome).symm
  · have hlines := hheader.filterMap headerLine
    rwa [h.read_lines, h'.read_lines] at hlines
  · obtain ⟨_, hschema⟩ := h.target.parsed
    obtain ⟨_, hschema'⟩ := h'.target.parsed
    exact congrArg Subtype.val (Except.ok.inj (hschema.symm.trans hschema'))

/-- The plan with the renames and permissions of other header lines. -/
def Plan.withHeader (p : Plan) (ls : List HeaderLine) : Plan where
  name := p.name
  from_ := p.from_
  renameTables := ls.filterMap HeaderLine.tableRename
  renameColumns := ls.filterMap HeaderLine.columnRename
  dropTables := ls.filterMap HeaderLine.droppedTable
  dropColumns := ls.filterMap HeaderLine.droppedColumn
  schema := p.schema

/-- Each order of the header lines is a document. -/
theorem PlanForm.exists_reordered (h : PlanForm r text p ls rest) (hperm : ls.Perm ls') :
    ∃ text', PlanForm r text' (p.withHeader ls') ls' rest ∧ Reordered text text' := by
  have h' : PlanForm r (joinLines (documentLines (p.withHeader ls') ls' rest)) (p.withHeader ls') ls'
      rest := h.reorder hperm h.target h.rest_free rfl rfl rfl rfl rfl rfl rfl
  refine ⟨_, h', ?_, ?_, ?_⟩
  · rw [h.lines, h'.lines]
    rfl
  · rw [h.headerOf, h'.headerOf]
    exact hperm.map _
  · rw [h.rest_lines, h'.rest_lines]

end Reordered

section Sources
variable {digest : String → String} {r : SchemaReader digest} {text text' : String} {p p' : Plan}
  {ls ls' : List HeaderLine} {rest rest' : List String}

/-- Two elements with one image, one after the other. -/
theorem exists_pair_of_not_nodup {α β : Type} {f : α → Option β} {l : List α}
    (h : ¬ (l.filterMap f).Nodup) :
    ∃ as x bs y cs k, l = as ++ x :: (bs ++ y :: cs) ∧ f x = some k ∧ f y = some k := by
  induction l with
  | nil => exact absurd List.nodup_nil h
  | cons a l ih =>
    by_cases hl : (l.filterMap f).Nodup
    · cases hk : f a with
      | none =>
        rw [List.filterMap_cons_none hk] at h
        exact absurd hl h
      | some k =>
        rw [List.filterMap_cons_some hk, List.nodup_cons] at h
        have hmem : k ∈ l.filterMap f := by
          by_contra hnot
          exact h ⟨hnot, hl⟩
        obtain ⟨y, hy, hky⟩ := List.mem_filterMap.mp hmem
        obtain ⟨bs, cs, rfl⟩ := List.append_of_mem hy
        exact ⟨[], a, bs, y, cs, k, rfl, hk, hky⟩
    · obtain ⟨as, x, bs, y, cs, k, rfl, hx, hy⟩ := ih hl
      exact ⟨a :: as, x, bs, y, cs, k, rfl, hx, hy⟩

/-- Entries of one name come out in the order in which they go in. -/
theorem eq_of_sortedEntries_swap {α : Type} {name : α → String} {as bs cs : List α} {x y : α}
    (hname : name x = name y)
    (h : sortedEntries name (as ++ x :: (bs ++ y :: cs)) =
      sortedEntries name (as ++ y :: (bs ++ x :: cs))) : x = y := by
  have hfilter := congrArg (List.filter (name · = name x)) h
  rw [sortedEntries_stable, sortedEntries_stable, List.filter_append, List.filter_append,
    List.filter_cons_of_pos (by simp), List.filter_cons_of_pos (by simp [hname])] at hfilter
  exact (List.cons.inj (List.append_cancel_left hfilter)).1

theorem dotted_inj {t t' c c' : String} (ht : nameForm t = true) (ht' : nameForm t' = true)
    (h : t ++ "." ++ c = t' ++ "." ++ c') : t = t' ∧ c = c' := by
  have hlist := congrArg String.toList h
  simp only [String.toList_append, List.append_assoc] at hlist
  obtain ⟨hleft, hright⟩ := append_separator_inj (nameForm_free ht (c := '.') rfl)
    (nameForm_free ht' (c := '.') rfl) hlist
  exact ⟨String.toList_inj.mp hleft, String.toList_inj.mp hright⟩

/-- Elements with one image are one element where no image comes twice. -/
theorem eq_of_nodup_filterMap {α β : Type} {f : α → Option β} {l : List α} {x y : α} {k : β}
    (h : (l.filterMap f).Nodup) (hx : x ∈ l) (hy : y ∈ l) (hxk : f x = some k)
    (hyk : f y = some k) : x = y := by
  induction l with
  | nil => cases hx
  | cons a l ih =>
    have hout : f a = some k → ∀ z ∈ l, f z ≠ some k := by
      intro ha z hz hzk
      rw [List.filterMap_cons_some ha] at h
      exact (List.nodup_cons.mp h).1 (List.mem_filterMap.mpr ⟨z, hz, hzk⟩)
    rcases List.mem_cons.mp hx with rfl | hxl
    · rcases List.mem_cons.mp hy with rfl | hyl
      · rfl
      · exact absurd hyk (hout hxk y hyl)
    · rcases List.mem_cons.mp hy with rfl | hyl
      · exact absurd hxk (hout hyk x hxl)
      · exact ih (h.sublist ((List.sublist_cons_self a l).filterMap f)) hxl hyl

/-- The line of a table rename among the header lines. -/
theorem PlanForm.renameTable_mem (h : PlanForm r text p ls rest) {c : TableRename}
    (hc : c ∈ p.renameTables) : .renameTable c.old c.new ∈ ls := by
  rw [h.renameTables] at hc
  obtain ⟨l, hl, hline⟩ := List.mem_filterMap.mp hc
  cases l with
  | renameTable old new =>
    cases hline
    exact hl
  | renameColumn => cases hline
  | dropTable => cases hline
  | dropColumn => cases hline

/-- The line of a column rename among the header lines. -/
theorem PlanForm.renameColumn_mem (h : PlanForm r text p ls rest) {c : ColumnRename}
    (hc : c ∈ p.renameColumns) : .renameColumn c.table c.old c.new ∈ ls := by
  rw [h.renameColumns] at hc
  obtain ⟨l, hl, hline⟩ := List.mem_filterMap.mp hc
  cases l with
  | renameColumn table old new =>
    cases hline
    exact hl
  | renameTable => cases hline
  | dropTable => cases hline
  | dropColumn => cases hline

/-- The line of a column permission among the header lines. -/
theorem PlanForm.dropColumn_mem (h : PlanForm r text p ls rest) {c : ColumnName}
    (hc : c ∈ p.dropColumns) : .dropColumn c.table c.name ∈ ls := by
  rw [h.dropColumns] at hc
  obtain ⟨l, hl, hline⟩ := List.mem_filterMap.mp hc
  cases l with
  | dropColumn table name =>
    cases hline
    exact hl
  | renameTable => cases hline
  | renameColumn => cases hline
  | dropTable => cases hline

theorem PlanForm.names_form (h : PlanForm r text p ls rest) {l : HeaderLine} (hl : l ∈ ls) :
    ∀ name ∈ l.names, nameForm name = true :=
  fun name hname => validName_form ((h.takes.named l hl) name hname)

theorem PlanForm.renameTables_apart (h : PlanForm r text p ls rest)
    (honce : (ls.filterMap HeaderLine.source).Nodup) :
    ∀ a ∈ p.renameTables, ∀ b ∈ p.renameTables, a.old = b.old → a = b := by
  intro a ha b hb hold
  have hline := eq_of_nodup_filterMap honce (h.renameTable_mem ha) (h.renameTable_mem hb) rfl
    (by rw [hold]; rfl)
  cases a
  cases b
  cases hline
  rfl

theorem PlanForm.renameColumns_apart (h : PlanForm r text p ls rest)
    (honce : (ls.filterMap HeaderLine.source).Nodup) :
    ∀ a ∈ p.renameColumns, ∀ b ∈ p.renameColumns, a.sourceText = b.sourceText → a = b := by
  intro a ha b hb hsource
  have hmem := h.renameColumn_mem ha
  have hmem' := h.renameColumn_mem hb
  obtain ⟨htable, hold⟩ := dotted_inj (h.names_form hmem _ (by simp [HeaderLine.names]))
    (h.names_form hmem' _ (by simp [HeaderLine.names])) hsource
  have hline := eq_of_nodup_filterMap honce hmem hmem' rfl (by rw [htable, hold]; rfl)
  cases a
  cases b
  cases hline
  rfl

theorem PlanForm.dropColumns_apart (h : PlanForm r text p ls rest) :
    ∀ a ∈ p.dropColumns, ∀ b ∈ p.dropColumns, a.text = b.text → a = b := by
  intro a ha b hb htext
  obtain ⟨htable, hname⟩ := dotted_inj
    (h.names_form (h.dropColumn_mem ha) _ (by simp [HeaderLine.names]))
    (h.names_form (h.dropColumn_mem hb) _ (by simp [HeaderLine.names])) htext
  cases a
  cases b
  cases htable
  cases hname
  rfl

/-- The canonical text of an accepted plan. -/
structure EmissionExact (r : SchemaReader digest) (text : String) (p : Plan) : Prop where
  accepted : ∃ p', parsePlan r (emitPlan r p) = .ok p' ∧ p'.name = p.name ∧ p'.from_ = p.from_ ∧
    p'.to = p.to ∧ r.emitDbspec p'.schema = r.emitDbspec p.schema ∧
    p'.renameTables.Perm p.renameTables ∧ p'.renameColumns.Perm p.renameColumns ∧
    p'.dropTables.Perm p.dropTables ∧ p'.dropColumns.Perm p.dropColumns ∧
    emitPlan r p' = emitPlan r p
  reordered : ∀ text' p', Reordered text text' → parsePlan r text' = .ok p' →
    emitPlan r p' = emitPlan r p

theorem PlanForm.emission_accepted (h : PlanForm r text p ls rest) :
    ∃ p', parsePlan r (emitPlan r p) = .ok p' ∧ p'.name = p.name ∧ p'.from_ = p.from_ ∧
      p'.to = p.to ∧ r.emitDbspec p'.schema = r.emitDbspec p.schema ∧
      p'.renameTables.Perm p.renameTables ∧ p'.renameColumns.Perm p.renameColumns ∧
      p'.dropTables.Perm p.dropTables ∧ p'.dropColumns.Perm p.dropColumns ∧
      emitPlan r p' = emitPlan r p :=
  ⟨p.sorted, parsePlan_emitPlan h, rfl, rfl, rfl, rfl, List.perm_insertionSort _ _,
    List.perm_insertionSort _ _, List.perm_insertionSort _ _, List.perm_insertionSort _ _,
    emitPlan_sorted r p⟩

/-- Documents with the same header lines have one canonical text where no source comes twice. -/
theorem PlanForm.emitPlan_eq (h : PlanForm r text p ls rest) (h' : PlanForm r text' p' ls' rest')
    (honce : (ls.filterMap HeaderLine.source).Nodup) (ho : Reordered text text') :
    emitPlan r p' = emitPlan r p := by
  obtain ⟨hname, hfrom, hperm, hschema⟩ := h.of_reordered h' ho
  have htables : sortedEntries TableRename.old p.renameTables =
      sortedEntries TableRename.old p'.renameTables := by
    refine sortedEntries_congr ?_ (h.renameTables_apart honce)
    rw [h.renameTables, h'.renameTables]
    exact hperm.filterMap _
  have hcolumns : sortedEntries ColumnRename.sourceText p.renameColumns =
      sortedEntries ColumnRename.sourceText p'.renameColumns := by
    refine sortedEntries_congr ?_ (h.renameColumns_apart honce)
    rw [h.renameColumns, h'.renameColumns]
    exact hperm.filterMap _
  have hdropTables : sortedEntries id p.dropTables = sortedEntries id p'.dropTables := by
    refine sortedEntries_congr ?_ fun _ _ _ _ hab => hab
    rw [h.dropTables, h'.dropTables]
    exact hperm.filterMap _
  have hdropColumns : sortedEntries ColumnName.text p.dropColumns =
      sortedEntries ColumnName.text p'.dropColumns := by
    refine sortedEntries_congr ?_ h.dropColumns_apart
    rw [h.dropColumns, h'.dropColumns]
    exact hperm.filterMap _
  have hlines : emittedLines p' = emittedLines p := by
    unfold emittedLines
    rw [htables, hcolumns, hdropTables, hdropColumns]
  unfold emitPlan
  rw [hlines, hname, hfrom, hschema]

/-- Lines of one source that change places leave another canonical text. -/
theorem PlanForm.eq_of_swap {as bs cs : List HeaderLine} {x y : HeaderLine}
    {k : Option String × String} (h : PlanForm r text p (as ++ x :: (bs ++ y :: cs)) rest)
    (h' : PlanForm r text' p' (as ++ y :: (bs ++ x :: cs)) rest') (hx : x.source = some k)
    (hy : y.source = some k) (hemit : emitPlan r p' = emitPlan r p) : x = y := by
  have hread := parsePlan_emitPlan h'
  rw [hemit, parsePlan_emitPlan h] at hread
  have hsorted : p.sorted = p'.sorted := Except.ok.inj hread
  cases x with
  | renameTable old new =>
    cases y with
    | renameTable old' new' =>
      obtain rfl : old = old' := congrArg Prod.snd (Option.some.inj (hx.trans hy.symm))
      have htables := congrArg Plan.renameTables hsorted
      simp only [Plan.sorted, h.renameTables, h'.renameTables, List.filterMap_append,
        List.filterMap_cons, HeaderLine.tableRename] at htables
      have hrename : (⟨old, new⟩ : TableRename) = ⟨old, new'⟩ :=
        eq_of_sortedEntries_swap rfl htables
      cases hrename
      rfl
    | renameColumn table' old' new' => cases hx.trans hy.symm
    | dropTable => cases hy
    | dropColumn => cases hy
  | renameColumn table old new =>
    cases y with
    | renameColumn table' old' new' =>
      obtain ⟨htable, hold⟩ := Prod.mk.inj (Option.some.inj (hx.trans hy.symm))
      obtain rfl := Option.some.inj htable
      obtain rfl := hold
      have hcolumns := congrArg Plan.renameColumns hsorted
      simp only [Plan.sorted, h.renameColumns, h'.renameColumns, List.filterMap_append,
        List.filterMap_cons, HeaderLine.columnRename] at hcolumns
      have hrename : (⟨table, old, new⟩ : ColumnRename) = ⟨table, old, new'⟩ :=
        eq_of_sortedEntries_swap rfl hcolumns
      cases hrename
      rfl
    | renameTable old' new' => cases hx.trans hy.symm
    | dropTable => cases hy
    | dropColumn => cases hy
  | dropTable => cases hx
  | dropColumn => cases hx

/-- The canonical text of an accepted plan is accepted, holds what the plan holds, and does not
depend on the order of the header lines, exactly where no two of them rename one source. -/
theorem emitPlan_exact_iff (h : parsePlan r text = .ok p) :
    EmissionExact r text p ↔ SourcesOnce text := by
  obtain ⟨ls, rest, hform⟩ := parsePlan_iff.mp h
  rw [hform.sources]
  constructor
  · intro hexact
    by_contra hnot
    obtain ⟨as, x, bs, y, cs, k, rfl, hx, hy⟩ := exists_pair_of_not_nodup hnot
    have hperm : (as ++ x :: (bs ++ y :: cs)).Perm (as ++ y :: (bs ++ x :: cs)) := by
      refine List.Perm.append_left as ?_
      have hright : (x :: (bs ++ y :: cs)).Perm (x :: y :: (bs ++ cs)) :=
        List.perm_middle.cons x
      exact hright.trans ((List.Perm.swap y x _).trans (List.perm_middle.symm.cons y))
    obtain ⟨text', hform', ho⟩ := hform.exists_reordered hperm
    have hemit := hexact.reordered text' _ ho (parsePlan_iff.mpr ⟨_, _, hform'⟩)
    obtain rfl := hform.eq_of_swap hform' hx hy hemit
    -- one line twice, which the reader refuses
    have hlines := hform.takes.lines
    rw [List.map_append, List.map_cons, List.map_append, List.map_cons] at hlines
    have htwice := (List.nodup_append.mp hlines).2.1
    exact (List.nodup_cons.mp htwice).1 (List.mem_append_right _ List.mem_cons_self)
  · intro honce
    refine ⟨hform.emission_accepted, fun text' p' ho hread => ?_⟩
    obtain ⟨ls', rest', hform'⟩ := parsePlan_iff.mp hread
    exact hform.emitPlan_eq hform' honce ho

/-- The text of a plan from no schema that renames table `a`. -/
def firstText (names tables : List String) : String :=
  "dbplan 1 rename\nfrom empty\n" ++
    String.join (names.map fun n => "rename table a " ++ n ++ "\n") ++ "\n" ++ keySchema tables

/-- The plan of the text, to the schema with the tables. -/
def firstPlan (names tables : List String) : Plan :=
  { renamePlan names with from_ := none, schema := keyDocument tables }

/-- One rename has its source for itself. -/
theorem emitPlan_exact_rename : ∃ r : SchemaReader plainRenderer.digest,
    parsePlan r (firstText ["b"] ["b"]) = .ok (firstPlan ["b"] ["b"]) ∧
      SourcesOnce (firstText ["b"] ["b"]) ∧
      (EmissionExact r (firstText ["b"] ["b"]) (firstPlan ["b"] ["b"]) ↔
        SourcesOnce (firstText ["b"] ["b"])) := by
  have hparse : parsePlan (keyReader ["b"] (keyDocument_valid (by decide) (by decide) (by decide)))
      (firstText ["b"] ["b"]) = .ok (firstPlan ["b"] ["b"]) := by decide +kernel
  have honce : SourcesOnce (firstText ["b"] ["b"]) := by
    unfold SourcesOnce
    decide +kernel
  exact ⟨_, hparse, honce, emitPlan_exact_iff hparse⟩

/-- Two renames of table `a` in either order are accepted, each with its own canonical text. -/
theorem emitPlan_exact_fails : ∃ r : SchemaReader plainRenderer.digest,
    parsePlan r (firstText ["b", "c"] ["b", "c"]) = .ok (firstPlan ["b", "c"] ["b", "c"]) ∧
      ¬ EmissionExact r (firstText ["b", "c"] ["b", "c"]) (firstPlan ["b", "c"] ["b", "c"]) := by
  let r := keyReader ["b", "c"] (keyDocument_valid (by decide) (by decide) (by decide))
  have hparse : parsePlan r (firstText ["b", "c"] ["b", "c"]) =
      .ok (firstPlan ["b", "c"] ["b", "c"]) := by
    decide +kernel
  have hswapped : parsePlan r (firstText ["c", "b"] ["b", "c"]) =
      .ok (firstPlan ["c", "b"] ["b", "c"]) := by
    decide +kernel
  have ho : Reordered (firstText ["b", "c"] ["b", "c"]) (firstText ["c", "b"] ["b", "c"]) :=
    ⟨by decide +kernel, by decide +kernel, by decide +kernel⟩
  refine ⟨r, hparse, fun h => ?_⟩
  have hemit := h.reordered _ _ ho hswapped
  exact absurd hemit (by decide +kernel)

end Sources

end Orm.Dbspec
