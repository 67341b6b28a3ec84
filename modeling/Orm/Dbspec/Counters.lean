import Orm.Logic.Walk
import Orm.Dbspec.Migrate

/-! The key counters of SQLite through a rebuild: `sqlite_sequence` keeps the largest key that a table
with an identity column ever had. -/
namespace Orm.Dbspec

open Orm.Logic (runSteps Walk Path Leads onKey)

section Model
variable {V : Type} (v : RowValues V) (key : V → Int)

/-- A SQLite database: its tables and the rows of `sqlite_sequence`. -/
structure Counted (V : Type) where
  catalog : Catalog V
  sequence : List (String × Int)

/-- The values of the rows of a name. -/
def rowsFor (sequence : List (String × Int)) (name : String) : List Int :=
  (sequence.filter (·.1 = name)).map Prod.snd

/-- The counter after an insert of a key: an existing row is raised to it, and a missing one is made. -/
def raise (name : String) (k : Int) (sequence : List (String × Int)) : List (String × Int) :=
  if sequence.any (·.1 = name) then
    sequence.map fun x => if x.1 = name then (x.1, max x.2 k) else x
  else sequence ++ [(name, k)]

/-- The keys of a table: the values of its identity column. -/
def Relation.keys (r : Relation V) : List Int :=
  (r.columns.filter (·.column.identity)).flatMap fun k => k.values.map key

/-- The keys that a copy inserts into a table. -/
def insertedKeys (columns : List (String × CopyValue)) (from_ into : Relation V) : List Int :=
  (into.columns.filter (·.column.identity)).flatMap fun k =>
    (Relation.copied v columns from_ k.column).map key

/-- What a statement makes of the counters. -/
def counters : Statement → Catalog V → List (String × Int) → List (String × Int)
  | .insertSelect into columns from_, c, sequence =>
    match c from_, c into with
    | some s, some r => (insertedKeys v key columns s r).foldl (fun l k => raise into k l) sequence
    | _, _ => sequence
  | .renameTable old new, _, sequence =>
    sequence.map fun x => if x.1 = old then (new, x.2) else x
  | .dropTable name, _, sequence | .deleteSequence name, _, sequence =>
    sequence.filter (·.1 ≠ name)
  | .copySequence name from_, _, sequence =>
    sequence ++ (sequence.filter (·.1 = from_)).map fun x => (name, x.2)
  | _, _, sequence => sequence

/-- What a statement makes of a database; a failing one has no effect. -/
def execCounted (s : Statement) (db : Counted V) : Option (Counted V) :=
  (exec v s db.catalog).map fun c => ⟨c, counters v key s db.catalog db.sequence⟩

/-- A step runs its statement, or its restore statement when what it restores is there. -/
def Takes (s : Step Statement) (db db' : Counted V) : Prop :=
  ∃ x, (x = s.statement ∨ s.restore = some x) ∧ execCounted v key x db = some db'

/-- A rollback runs the rollback of a step, or the one that restores. -/
def TakesBack (s : Step Statement) (db db' : Counted V) : Prop :=
  ∃ x, (s.rollback = some x ∨ s.rollbackRestore = some x) ∧ execCounted v key x db = some db'

end Model

section Rows
variable {sequence : List (String × Int)} {name other : String} {k : Int}

theorem rowsFor_copy (name from_ : String) : rowsFor (sequence ++
      (sequence.filter (·.1 = from_)).map fun x => (name, x.2)) other =
    rowsFor sequence other ++ if other = name then rowsFor sequence from_ else [] := by
  unfold rowsFor
  rw [List.filter_append, List.map_append]
  congr 1
  by_cases h : other = name
  · subst h
    rw [if_pos rfl, List.filter_eq_self.mpr (by simp), List.map_map]
    rfl
  · rw [if_neg h, List.filter_eq_nil_iff.mpr]
    · rfl
    · intro x hx
      obtain ⟨y, -, rfl⟩ := List.mem_map.mp hx
      simpa using Ne.symm h

theorem rowsFor_delete (name : String) : rowsFor (sequence.filter (·.1 ≠ name)) other =
    if other = name then [] else rowsFor sequence other := by
  unfold rowsFor
  rw [List.filter_filter]
  by_cases h : other = name
  · subst h
    rw [if_pos rfl, List.filter_eq_nil_iff.mpr (by simp)]
    rfl
  · rw [if_neg h]
    congr 1
    refine List.filter_congr fun x _ => ?_
    by_cases hx : x.1 = other
    · simp [hx, h]
    · simp [hx]

/-- A key that the counter has passed does not change it. -/
theorem raise_eq_self {u : Int} (hmem : u ∈ rowsFor sequence name)
    (hle : ∀ u ∈ rowsFor sequence name, k ≤ u) : raise name k sequence = sequence := by
  obtain ⟨x, hx, -⟩ := List.mem_map.mp hmem
  obtain ⟨hx, hname⟩ := List.mem_filter.mp hx
  unfold raise
  rw [if_pos (List.any_eq_true.mpr ⟨x, hx, hname⟩)]
  refine (List.map_congr_left fun y hy => ?_).trans (List.map_id _)
  by_cases hy' : y.1 = name
  · have hrow : y.2 ∈ rowsFor sequence name :=
      List.mem_map.mpr ⟨y, List.mem_filter.mpr ⟨hy, by simpa using hy'⟩, rfl⟩
    rw [if_pos hy', max_eq_left (hle _ hrow)]
    rfl
  · exact if_neg hy'

theorem raises_eq_self {ks : List Int} (hone : (rowsFor sequence name).length ≤ 1)
    (h : ∀ k ∈ ks, ∃ u ∈ rowsFor sequence name, k ≤ u) :
    ks.foldl (fun l k => raise name k l) sequence = sequence := by
  induction ks with
  | nil => rfl
  | cons k ks ih =>
    obtain ⟨u, hu, hle⟩ := h k List.mem_cons_self
    obtain ⟨x, hx⟩ := List.length_eq_one_iff.mp (le_antisymm hone (List.length_pos_of_mem hu))
    have hall : ∀ u' ∈ rowsFor sequence name, k ≤ u' := by
      intro u' hu'
      rw [hx] at hu hu'
      rwa [List.mem_singleton.mp hu', ← List.mem_singleton.mp hu]
    rw [List.foldl_cons, raise_eq_self hu hall]
    exact ih fun k hk => h k (List.mem_cons_of_mem _ hk)

end Rows

section Identity
variable {m : Match} {n : String}

/-- An identity column is the primary key and an i64. -/
def Table.IdentityKey (t : Table) : Prop :=
  ∀ c ∈ t.columns, c.identity = true → c.type = .i64 ∧ t.primaryKey = [c.name]

/-- The identity column of the target. -/
def Match.Identity (m : Match) (n : String) : Prop :=
  ∃ c ∈ m.target.columns, c.identity = true ∧ c.name = n

theorem Match.Sound.primaryKey (hm : m.Sound) :
    m.source.primaryKey.map (renamedOr m.renames) = m.target.primaryKey := by
  have h := (List.append_eq_nil_iff.mp hm.order).2
  by_contra hne
  rw [if_pos hne] at h
  cases h

/-- What the identity columns of a matched table are: the target's is the source's under its target
name. -/
structure Match.KeepsIdentity (m : Match) : Prop where
  kept : ∀ n, m.Identity n → ∃ s ∈ m.source.columns, ∃ c ∈ m.target.columns, c.name = n ∧
    (n, s.name) ∈ m.columnOf ∧ s.identity = true ∧ s.type = .i64 ∧ c.type = .i64
  found : ∀ s ∈ m.source.columns, s.identity = true →
    m.Identity (renamedOr m.renames s.name) ∧ (renamedOr m.renames s.name, s.name) ∈ m.columnOf

theorem Match.Sound.keepsIdentity {doc doc' : Document} (hm : m.Sound) (hs : m.source.Valid doc)
    (ht : m.target.Valid doc') (hsource : m.source.IdentityKey) (htarget : m.target.IdentityKey) :
    m.KeepsIdentity where
  kept := by
    rintro n ⟨c, hc, hid, rfl⟩
    obtain ⟨htype, hkey⟩ := htarget c hc hid
    have hpk := hm.primaryKey
    rw [hkey] at hpk
    obtain ⟨old, hold, hname⟩ := List.map_eq_singleton_iff.mp hpk
    have hmem : old ∈ m.source.columnNames := (hs.keys m.source.primaryKey (by
      simp [Table.indexed, Table.keys])).2.2 old (hold ▸ List.mem_singleton_self old)
    have hpair : (c.name, old) ∈ m.columnOf :=
      hm.mem_columnOf.mpr ⟨hmem, List.mem_map_of_mem hc, hname⟩
    obtain ⟨s, c', hs', hc', hsame, -⟩ := hm.kept_column hpair
    obtain ⟨hsmem, rfl⟩ := column_mem hs'
    obtain rfl : c' = c := List.inj_on_of_nodup_map hm.targetNodup (column_mem hc').1 hc
      (column_mem hc').2
    have hsid := hsame.trans hid
    exact ⟨s, hsmem, c', hc, rfl, hpair, hsid, (hsource s hsmem hsid).1, htype⟩
  found := by
    intro s hs' hid
    have hpk := hm.primaryKey
    rw [(hsource s hs' hid).2, List.map_singleton] at hpk
    have hmem : renamedOr m.renames s.name ∈ m.target.columnNames :=
      (ht.keys m.target.primaryKey (by simp [Table.indexed, Table.keys])).2.2 _
        (hpk ▸ List.mem_singleton_self _)
    have hpair : (renamedOr m.renames s.name, s.name) ∈ m.columnOf :=
      hm.mem_columnOf.mpr ⟨List.mem_map_of_mem hs', hmem, rfl⟩
    obtain ⟨s', c, hs'', hc, hsame, -⟩ := hm.kept_column hpair
    obtain rfl : s' = s := List.inj_on_of_nodup_map hm.sourceNodup (column_mem hs'').1 hs'
      (column_mem hs'').2
    exact ⟨⟨c, (column_mem hc).1, hsame.symm.trans hid, (column_mem hc).2⟩, hpair⟩

end Identity

section Copies
variable {w : PlanWriter} {m : Match} {n : String}

theorem lookup_unique {β : Type} {l : List (String × β)} {k : String} {x : β}
    (hmem : k ∈ l.map Prod.fst) (h : ∀ y, (k, y) ∈ l → y = x) : l.lookup k = some x := by
  cases hget : l.lookup k with
  | none =>
    obtain ⟨e, he, rfl⟩ := List.mem_map.mp hmem
    have hnone := List.lookup_eq_none_iff.mp hget e he
    simp at hnone
  | some y =>
    obtain ⟨l₁, l₂, rfl, _⟩ := List.lookup_eq_some_iff.mp hget
    rw [h y (by simp)]

theorem Match.Identity.mem (h : m.Identity n) : n ∈ m.target.columnNames := by
  obtain ⟨c, hc, -, rfl⟩ := h
  exact List.mem_map_of_mem hc

/-- The copies of a rebuild take the identity column as it is. -/
theorem newList_identity (hm : m.Sound) (hn : m.Identity n) :
    (w.newList m).lookup n = some ⟨n, ""⟩ := by
  refine lookup_unique ?_ fun y hy => ?_
  · rw [newList_names, newColumns_names hm]
    exact List.mem_append_left _ hn.mem
  · obtain ⟨n', -, heq⟩ := mem_newList.mp hy
    cases heq
    rfl

theorem copyIn_identity (hm : m.Sound) (hid : m.KeepsIdentity)
    (hh : ∀ key, ¬ nameForm (w.hold key)) (hn : m.Identity n) (restore : Bool) :
    (w.copyIn m restore).lookup n = some ⟨n, ""⟩ := by
  obtain ⟨s, hs, c, hc, rfl, hpair, -, hstype, hctype⟩ := hid.kept n hn
  have hcopy : PlanWriter.copyValue s c = ⟨c.name, ""⟩ := by
    rw [PlanWriter.copyValue, hstype, hctype]
    rfl
  have hkept : (mapGet m.columnOf c.name).bind m.source.column = some s :=
    (kept_source hm).mpr ⟨hpair, hs⟩
  unfold PlanWriter.copyIn
  refine lookup_unique ?_ fun y hy => ?_
  · refine List.mem_map.mpr ⟨(c.name, ⟨c.name, ""⟩), List.mem_append_left _ ?_, rfl⟩
    refine List.mem_filterMap.mpr ⟨c, hc, ?_⟩
    rw [hkept, ← hcopy]
  · rcases List.mem_append.mp hy with hy | hy
    · obtain ⟨c', hc', heq⟩ := List.mem_filterMap.mp hy
      have hname : c'.name = c.name := by
        split at heq
        · exact (Prod.mk.inj (Option.some.inj heq)).1
        · split at heq
          · exact (Prod.mk.inj (Option.some.inj heq)).1
          · cases heq
      obtain rfl : c' = c := List.inj_on_of_nodup_map hm.targetNodup hc' hc hname
      rw [hkept] at heq
      rw [← hcopy]
      exact (Prod.mk.inj (Option.some.inj heq)).2.symm
    · obtain ⟨c', -, heq⟩ := List.mem_map.mp hy
      exact absurd (hm.targetNamed _ hn.mem) ((Prod.mk.inj heq).1 ▸ hh _)

theorem targetColumn_kept (hm : m.Sound) {new old : String} (h : (new, old) ∈ m.columnOf) :
    PlanWriter.targetColumn m old = new := by
  have hsources : (m.columnOf.map Prod.snd).Nodup := by
    rw [hm.columnOf]
    exact columnPairs_sources hm.sourceNodup
  unfold PlanWriter.targetColumn
  cases hfind : m.columnOf.find? (·.2 = old) with
  | none =>
    have hnone := List.find?_eq_none.mp hfind _ h
    simp at hnone
  | some e =>
    have hsnd : e.2 = old := by simpa using List.find?_some hfind
    rw [List.inj_on_of_nodup_map hsources (List.mem_of_find?_eq_some hfind) h hsnd]
    rfl

theorem copyBack_identity (hm : m.Sound) (hid : m.KeepsIdentity)
    (hh : ∀ key, ¬ nameForm (w.hold key)) (hn : m.Identity n) (restore : Bool) :
    (w.copyBack m restore).lookup n = some ⟨n, ""⟩ := by
  obtain ⟨s, hs, c, hc, rfl, hpair, -⟩ := hid.kept n hn
  have hstays (k : Column) (hk : k.name = c.name) : PlanWriter.stays m k = some c := by
    unfold PlanWriter.stays PlanWriter.oldColumn renamedOr
    rw [hk, hm.get_columnOf hpair, Option.getD_some, if_neg]
    · exact (column_eq_some_iff hm.targetNodup).mpr ⟨hc, rfl⟩
    · intro hrem
      obtain ⟨-, hnew, hname⟩ := hm.mem_columnOf.mp hpair
      exact (hm.mem_removed.mp hrem).2 (hname ▸ hnew)
  unfold PlanWriter.copyBack
  refine lookup_unique ?_ fun y hy => ?_
  · refine List.mem_map.mpr ⟨(c.name, ⟨c.name, ""⟩), List.mem_append_left _ ?_, rfl⟩
    refine List.mem_map.mpr ⟨{ s with name := PlanWriter.targetColumn m s.name },
      List.mem_map.mpr ⟨s, hs, rfl⟩, ?_⟩
    have hname : PlanWriter.targetColumn m s.name = c.name := targetColumn_kept hm hpair
    rw [hstays _ hname]
    simp only [hname]
  · rcases List.mem_append.mp hy with hy | hy
    · obtain ⟨k, -, heq⟩ := List.mem_map.mp hy
      have hname : k.name = c.name := by
        split at heq
        · exact (Prod.mk.inj heq).1
        · exact (Prod.mk.inj heq).1
      rw [hstays k hname] at heq
      rw [← (Prod.mk.inj heq).2, hname]
    · split at hy
      · obtain ⟨c', -, heq⟩ := List.mem_map.mp hy
        exact absurd (hm.targetNamed _ hn.mem) ((Prod.mk.inj heq).1 ▸ hh _)
      · cases hy

end Copies

section Phases
variable {V : Type} {v : RowValues V} {key : V → Int} {m : Match} {start db db' : Counted V}

/-- Which of the table and the work table has the counter. -/
inductive Phase where
  | own | both | work
  deriving DecidableEq

/-- The identity columns of a table are those of the target, and a counter row is not below a key. -/
structure Below (key : V → Int) (m : Match) (rows : List Int) (r : Relation V) : Prop where
  identity : ∀ k ∈ r.columns, k.column.identity = true → m.Identity k.column.name
  values : ∀ k ∈ r.columns, m.Identity k.column.name → ∀ x ∈ k.values, ∃ u ∈ rows, key x ≤ u

/-- The counters at a place of a rebuild that began at `start`. -/
structure InPhase (key : V → Int) (m : Match) (start : Counted V) (phase : Phase)
    (db : Counted V) : Prop where
  own : rowsFor db.sequence m.name = if phase = .work then [] else rowsFor start.sequence m.name
  work : rowsFor db.sequence rebuildTable =
    if phase = .own then [] else rowsFor start.sequence m.name
  others : ∀ n, n ≠ m.name → n ≠ rebuildTable → rowsFor db.sequence n = rowsFor start.sequence n
  below : ∀ n, n = m.name ∨ n = rebuildTable → ∀ r, db.catalog n = some r →
    Below key m (rowsFor start.sequence m.name) r

theorem below_fresh {columns : List Column} {rows : List Int}
    (h : ∀ c ∈ columns, c.identity = true → m.Identity c.name) :
    Below key m rows (Relation.fresh columns : Relation V) where
  identity := by
    intro k hk hid
    obtain ⟨c, hc, rfl⟩ := List.mem_map.mp hk
    exact h c hc hid
  values := by
    intro k hk _ x hx
    obtain ⟨c, hc, rfl⟩ := List.mem_map.mp hk
    cases hx

variable {phase : Phase}

/-- A statement that changes one of the two tables and no counter. -/
theorem InPhase.change (h : InPhase key m start phase db) {n : String} {x : Option (Relation V)}
    (hx : ∀ r, x = some r → n = m.name ∨ n = rebuildTable →
      Below key m (rowsFor start.sequence m.name) r) :
    InPhase key m start phase ⟨Function.update db.catalog n x, db.sequence⟩ where
  own := h.own
  work := h.work
  others := h.others
  below := by
    intro n' hn' r (hr : Function.update db.catalog n x n' = some r)
    by_cases heq : n' = n
    · subst heq
      rw [Function.update_self] at hr
      exact hx r hr hn'
    · rw [Function.update_of_ne heq] at hr
      exact h.below n' hn' r hr

theorem exec_onKey {table : String} {f : Relation V → Option (Relation V)} {c c' : Catalog V}
    (h : onKey table f c = some c') :
    ∃ r r', c table = some r ∧ f r = some r' ∧ c' = Function.update c table (some r') := by
  obtain ⟨r, hr, h⟩ := Option.bind_eq_some_iff.mp h
  obtain ⟨r', hr', rfl⟩ := Option.map_eq_some_iff.mp h
  exact ⟨r, r', hr, hr', rfl⟩

theorem createTable_keeps {name : String} {t : Table} {checks : List (String × TypeCheck)}
    {hidden : List Column} (ht : ∀ c ∈ t.columns, c.identity = true → m.Identity c.name)
    (h : InPhase key m start phase db)
    (hexec : execCounted v key (.createTable name t checks hidden) db = some db') :
    InPhase key m start phase db' := by
  obtain ⟨c, hc, rfl⟩ := Option.map_eq_some_iff.mp hexec
  simp only [exec] at hc
  split at hc
  · cases hc
    refine h.change fun r hr _ => ?_
    obtain rfl := Option.some.inj hr
    refine below_fresh fun c hc hid => ?_
    rcases List.mem_append.mp hc with hc | hc
    · exact ht c hc hid
    · obtain ⟨k, -, rfl⟩ := List.mem_map.mp hc
      cases hid
  · cases hc

theorem deleteRows_keeps {name : String} (h : InPhase key m start phase db)
    (hexec : execCounted v key (.deleteRows name) db = some db') : InPhase key m start phase db' := by
  obtain ⟨c, hc, rfl⟩ := Option.map_eq_some_iff.mp hexec
  obtain ⟨r, r', hr, hr', rfl⟩ := exec_onKey hc
  cases hr'
  refine h.change fun r' hr' hn => ?_
  obtain rfl := Option.some.inj hr'
  refine below_fresh fun c hc hid => ?_
  obtain ⟨k, hk, rfl⟩ := List.mem_map.mp hc
  exact (h.below name hn r hr).identity k hk hid

/-- A statement about the objects of a table changes no table and no counter. -/
theorem object_keeps {s : Statement} (hs : (∃ t o, s = .addObject t o) ∨ ∃ t k n, s = .dropObject t k n)
    (h : InPhase key m start phase db) (hexec : execCounted v key s db = some db') :
    InPhase key m start phase db' := by
  obtain ⟨c, hc, rfl⟩ := Option.map_eq_some_iff.mp hexec
  rcases hs with ⟨t, o, rfl⟩ | ⟨t, k, n, rfl⟩
  · simp only [exec] at hc
    split at hc
    · cases hc
      exact h
    · cases hc
  · simp only [exec] at hc
    split at hc
    · cases hc
      exact h
    · cases hc

/-- The counter of a table that goes is gone before. -/
theorem dropTable_keeps {name : String} (hrows : rowsFor db.sequence name = [])
    (h : InPhase key m start phase db)
    (hexec : execCounted v key (.dropTable name) db = some db') : InPhase key m start phase db' := by
  obtain ⟨c, hc, rfl⟩ := Option.map_eq_some_iff.mp hexec
  simp only [exec] at hc
  split at hc
  · cases hc
    have hsame (n : String) : rowsFor (counters v key (.dropTable name) db.catalog db.sequence) n =
        rowsFor db.sequence n := by
      simp only [counters]
      rw [rowsFor_delete]
      split
      · rename_i heq
        rw [heq, hrows]
      · rfl
    have hchange := h.change (n := name) (x := none) fun r hr _ => by cases hr
    exact ⟨(hsame _).trans h.own, (hsame _).trans h.work,
      fun n hn hn' => (hsame n).trans (h.others n hn hn'), hchange.below⟩
  · cases hc

theorem copySequence_keeps {name from_ : String} {phase' : Phase}
    (hname : name = m.name ∨ name = rebuildTable) (h : InPhase key m start phase db)
    (hown : rowsFor db.sequence m.name ++ (if m.name = name then rowsFor db.sequence from_ else []) =
      if phase' = .work then [] else rowsFor start.sequence m.name)
    (hwork : rowsFor db.sequence rebuildTable ++
        (if rebuildTable = name then rowsFor db.sequence from_ else []) =
      if phase' = .own then [] else rowsFor start.sequence m.name)
    (hexec : execCounted v key (.copySequence name from_) db = some db') :
    InPhase key m start phase' db' := by
  obtain ⟨c, hc, rfl⟩ := Option.map_eq_some_iff.mp hexec
  cases hc
  refine ⟨(rowsFor_copy name from_).trans hown, (rowsFor_copy name from_).trans hwork,
    fun n hn hn' => ?_, h.below⟩
  have hne : n ≠ name := by
    rcases hname with rfl | rfl
    · exact hn
    · exact hn'
  refine (rowsFor_copy name from_).trans ?_
  rw [if_neg hne, List.append_nil]
  exact h.others n hn hn'

theorem deleteSequence_keeps {name : String} {phase' : Phase}
    (hname : name = m.name ∨ name = rebuildTable) (h : InPhase key m start phase db)
    (hown : (if m.name = name then [] else rowsFor db.sequence m.name) =
      if phase' = .work then [] else rowsFor start.sequence m.name)
    (hwork : (if rebuildTable = name then [] else rowsFor db.sequence rebuildTable) =
      if phase' = .own then [] else rowsFor start.sequence m.name)
    (hexec : execCounted v key (.deleteSequence name) db = some db') :
    InPhase key m start phase' db' := by
  obtain ⟨c, hc, rfl⟩ := Option.map_eq_some_iff.mp hexec
  cases hc
  refine ⟨(rowsFor_delete name).trans hown, (rowsFor_delete name).trans hwork,
    fun n hn hn' => ?_, h.below⟩
  have hne : n ≠ name := by
    rcases hname with rfl | rfl
    · exact hn
    · exact hn'
  refine (rowsFor_delete name).trans ?_
  rw [if_neg hne]
  exact h.others n hn hn'

/-- The copied values of an identity column that the copy takes as it is. -/
theorem copied_identity {columns : List (String × CopyValue)} {from_ : Relation V} {c : Column}
    (hcopy : columns.lookup c.name = some ⟨c.name, ""⟩) (hmem : c.name ∈ from_.names) :
    ∃ k ∈ from_.columns, k.column.name = c.name ∧ Relation.copied v columns from_ c = k.values := by
  obtain ⟨k, hk⟩ : ∃ k, from_.find c.name = some k := by
    obtain ⟨k, hk, hname⟩ := Relation.mem_names_iff.mp hmem
    exact Option.isSome_iff_exists.mp (List.find?_isSome.mpr ⟨k, hk, by simpa using hname⟩)
  obtain ⟨hkmem, hname⟩ := Relation.find_mem hk
  refine ⟨k, hkmem, hname, ?_⟩
  unfold Relation.copied
  rw [hcopy, Option.bind_some]
  simp only [hk, Option.map_some]
  exact (List.map_congr_left fun x _ => if_pos rfl).trans (List.map_id _)

/-- A copy between the two tables while both have the counter inserts no key above it. -/
theorem insertSelect_keeps {into from_ : String} {columns : List (String × CopyValue)}
    (hone : (rowsFor start.sequence m.name).length ≤ 1)
    (hinto : into = m.name ∨ into = rebuildTable) (hfrom : from_ = m.name ∨ from_ = rebuildTable)
    (hcopy : ∀ n, m.Identity n → columns.lookup n = some ⟨n, ""⟩)
    (h : InPhase key m start .both db)
    (hexec : execCounted v key (.insertSelect into columns from_) db = some db') :
    InPhase key m start .both db' := by
  obtain ⟨c, hc, rfl⟩ := Option.map_eq_some_iff.mp hexec
  obtain ⟨s, hs, hc⟩ := Option.bind_eq_some_iff.mp hc
  obtain ⟨r, r', hr, hr', rfl⟩ := exec_onKey hc
  unfold Relation.insertFrom at hr'
  split at hr'
  · rename_i hall
    obtain rfl := Option.some.inj hr'
    have hsbelow := h.below from_ hfrom s hs
    have hrbelow := h.below into hinto r hr
    have hrows : rowsFor db.sequence into = rowsFor start.sequence m.name := by
      rcases hinto with rfl | rfl
      · exact h.own
      · exact h.work
    -- the values of an identity column come from the other table, whose keys are below the counter
    have hkeys (k : Column) (hk : m.Identity k.name) : ∀ x ∈ Relation.copied v columns s k,
        ∃ u ∈ rowsFor start.sequence m.name, key x ≤ u := by
      have hcopyk := hcopy k.name hk
      obtain ⟨l₁, l₂, hsplit, -⟩ := List.lookup_eq_some_iff.mp hcopyk
      have hboth := List.all_eq_true.mp hall (k.name, ⟨k.name, ""⟩) (by rw [hsplit]; simp)
      have hmem : k.name ∈ s.names := of_decide_eq_true (Bool.and_eq_true_iff.mp hboth).2
      obtain ⟨k', hk', hname, heq⟩ := copied_identity (v := v) hcopyk hmem
      rw [heq]
      exact hsbelow.values k' hk' (by rwa [hname])
    have hcounters : counters v key (.insertSelect into columns from_) db.catalog db.sequence =
        db.sequence := by
      simp only [counters, hs, hr]
      refine raises_eq_self (by rwa [hrows]) fun x hx => ?_
      obtain ⟨k, hk, hx⟩ := List.mem_flatMap.mp hx
      obtain ⟨hk, hid⟩ := List.mem_filter.mp hk
      obtain ⟨y, hy, rfl⟩ := List.mem_map.mp hx
      rw [hrows]
      exact hkeys k.column (hrbelow.identity k hk hid) y hy
    rw [hcounters]
    refine h.change fun r'' hr'' _ => ?_
    obtain rfl := Option.some.inj hr''
    constructor
    · intro k hk hid
      obtain ⟨k', hk', rfl⟩ := List.mem_map.mp hk
      exact hrbelow.identity k' hk' hid
    · intro k hk hid x hx
      obtain ⟨k', hk', rfl⟩ := List.mem_map.mp hk
      rcases List.mem_append.mp hx with hx | hx
      · exact hrbelow.values k' hk' hid x hx
      · exact hkeys k'.column hid x hx
  · cases hr'

end Phases

section Rebuilds
variable {V : Type} {v : RowValues V} {key : V → Int} {w : PlanWriter} {m : Match}
  {start : Counted V} {i j : Phase}

/-- Taking a step of a rebuild and taking it back. -/
abbrev Goes (v : RowValues V) (key : V → Int) (m : Match) (start : Counted V) :
    Phase → Step Statement → Phase → Prop :=
  Leads (InPhase key m start) (Takes v key) (TakesBack v key)

/-- A step without restore statements. -/
theorem goes_step {s back : Statement} {e : Effect}
    (hs : ∀ db db', InPhase key m start i db → execCounted v key s db = some db' →
      InPhase key m start j db')
    (hback : ∀ db db', InPhase key m start j db → execCounted v key back db = some db' →
      InPhase key m start i db') : Goes v key m start i (step s (some back) e) j := by
  constructor
  · rintro db db' hi ⟨x, rfl | hx, hexec⟩
    · exact hs db db' hi hexec
    · cases hx
  · rintro db db' hj ⟨x, hx | hx, hexec⟩
    · cases hx
      exact hback db db' hj hexec
    · cases hx

theorem goes_objects {l : List ObjectRef} {t : Table} (phase : Phase) {s : Step Statement}
    (hs : s ∈ l.flatMap (w.addObject t) ∨ s ∈ l.flatMap (w.dropObject t)) :
    Goes v key m start phase s phase := by
  rcases hs with hs | hs
  · obtain ⟨o, -, hs⟩ := List.mem_flatMap.mp hs
    obtain ⟨x, -, rfl⟩ := List.mem_map.mp hs
    exact goes_step (fun _ _ => object_keeps (.inl ⟨_, _, rfl⟩))
      fun _ _ => object_keeps (.inr ⟨_, _, _, rfl⟩)
  · obtain ⟨o, -, hs⟩ := List.mem_flatMap.mp hs
    obtain ⟨x, -, rfl⟩ := List.mem_map.mp hs
    exact goes_step (fun _ _ => object_keeps (.inr ⟨_, _, _, rfl⟩))
      fun _ _ => object_keeps (.inl ⟨_, _, rfl⟩)

/-- Both definitions have the identity column of the target. -/
theorem newCreate_keeps {name : String} {phase : Phase} (db db' : Counted V)
    (h : InPhase key m start phase db)
    (hexec : execCounted v key (w.newCreate m name) db = some db') : InPhase key m start phase db' :=
  createTable_keeps (fun c hc hid => ⟨c, hc, hid, rfl⟩) h hexec

theorem oldCreate_keeps (hm : m.Sound) (hid : m.KeepsIdentity) {phase : Phase}
    (db db' : Counted V) (h : InPhase key m start phase db)
    (hexec : execCounted v key (w.oldCreate m) db = some db') : InPhase key m start phase db' := by
  refine createTable_keeps (fun c hc hcid => ?_) h hexec
  obtain ⟨s, hs, rfl⟩ := List.mem_map.mp hc
  obtain ⟨hidentity, hpair⟩ := hid.found s hs hcid
  simp only [targetColumn_kept hm hpair]
  exact hidentity

/-- The table that gets the counter and the one that gives it, in the phase before. -/
def Given (m : Match) (name from_ : String) (i : Phase) : Prop :=
  (name = rebuildTable ∧ from_ = m.name ∧ i = .own) ∨
    (name = m.name ∧ from_ = rebuildTable ∧ i = .work)

theorem given_keeps {name from_ : String} (hgiven : Given m name from_ i) (hne : m.name ≠ rebuildTable)
    (db db' : Counted V) (h : InPhase key m start i db)
    (hexec : execCounted v key (.copySequence name from_) db = some db') :
    InPhase key m start .both db' := by
  rcases hgiven with ⟨rfl, rfl, rfl⟩ | ⟨rfl, rfl, rfl⟩
  · refine copySequence_keeps (.inr rfl) h ?_ ?_ hexec
    · rw [if_neg hne, List.append_nil, h.own]
      rfl
    · rw [if_pos rfl, h.work, h.own]
      rfl
  · refine copySequence_keeps (.inl rfl) h ?_ ?_ hexec
    · rw [if_pos rfl, h.own, h.work]
      rfl
    · rw [if_neg hne.symm, List.append_nil, h.work]
      rfl

theorem taken_keeps {name from_ : String} (hgiven : Given m name from_ i) (hne : m.name ≠ rebuildTable)
    (db db' : Counted V) (h : InPhase key m start .both db)
    (hexec : execCounted v key (.deleteSequence name) db = some db') :
    InPhase key m start i db' := by
  rcases hgiven with ⟨rfl, rfl, rfl⟩ | ⟨rfl, rfl, rfl⟩
  · refine deleteSequence_keeps (.inr rfl) h ?_ ?_ hexec
    · rw [if_neg hne, h.own]
      rfl
    · rw [if_pos rfl, if_pos rfl]
  · refine deleteSequence_keeps (.inl rfl) h ?_ ?_ hexec
    · rw [if_pos rfl, if_pos rfl]
    · rw [if_neg hne.symm, h.work]
      rfl

theorem goes_copyRows (hm : m.Sound) (hid : m.KeepsIdentity) (hh : ∀ key, ¬ nameForm (w.hold key))
    (hone : (rowsFor start.sequence m.name).length ≤ 1) :
    Goes v key m start .both (w.copyRows m) .both := by
  constructor
  · rintro db db' h ⟨x, rfl | hx, hexec⟩
    · exact insertSelect_keeps hone (.inr rfl) (.inl rfl)
        (fun n hn => copyIn_identity hm hid hh hn false) h hexec
    · obtain ⟨_, -, rfl⟩ := Option.map_eq_some_iff.mp hx
      exact insertSelect_keeps hone (.inr rfl) (.inl rfl)
        (fun n hn => copyIn_identity hm hid hh hn true) h hexec
  · rintro db db' h ⟨x, hx | hx, hexec⟩
    · cases hx
      exact deleteRows_keeps h hexec
    · cases hx

theorem goes_emptyRows (hm : m.Sound) (hid : m.KeepsIdentity) (hh : ∀ key, ¬ nameForm (w.hold key))
    (hone : (rowsFor start.sequence m.name).length ≤ 1) :
    Goes v key m start .both (w.emptyRows m) .both := by
  unfold PlanWriter.emptyRows
  constructor
  · rintro db db' h ⟨x, hx, hexec⟩
    have hx' : x = .deleteRows m.name := by
      rcases hx with hx | hx
      · rw [hx]
        split <;> rfl
      · dsimp only at hx
        split at hx <;> cases hx
    rw [hx'] at hexec
    exact deleteRows_keeps h hexec
  · rintro db db' h ⟨x, hx, hexec⟩
    dsimp only at hx
    split at hx
    · rcases hx with hx | hx <;> cases hx
    · rcases hx with hx | hx
      · cases hx
        exact insertSelect_keeps hone (.inl rfl) (.inr rfl)
          (fun n hn => copyBack_identity hm hid hh hn false) h hexec
      · obtain ⟨_, -, rfl⟩ := Option.map_eq_some_iff.mp hx
        exact insertSelect_keeps hone (.inl rfl) (.inr rfl)
          (fun n hn => copyBack_identity hm hid hh hn true) h hexec

/-- The counter goes to the work table, alone there while the table is replaced, and comes back. -/
theorem rebuild_path (hm : m.Sound) (hid : m.KeepsIdentity) (hh : ∀ key, ¬ nameForm (w.hold key))
    (hone : (rowsFor start.sequence m.name).length ≤ 1) (hne : m.name ≠ rebuildTable)
    (hident : m.target.columns.any (·.identity) = true) :
    Path (Goes v key m start) .own (w.rebuild m) .own := by
  have hwhen (s : Step Statement) : PlanWriter.whenIdentity m s = [s] := if_pos hident
  have hwork : Given m rebuildTable m.name .own := .inl ⟨rfl, rfl, rfl⟩
  have hown : Given m m.name rebuildTable .work := .inr ⟨rfl, rfl, rfl⟩
  have hdropWork (db db' : Counted V) (h : InPhase key m start .own db)
      (hexec : execCounted v key (.dropTable rebuildTable) db = some db') :
      InPhase key m start .own db' := dropTable_keeps (h.work.trans (if_pos rfl)) h hexec
  have hdropOwn (db db' : Counted V) (h : InPhase key m start .work db)
      (hexec : execCounted v key (.dropTable m.name) db = some db') :
      InPhase key m start .work db' := dropTable_keeps (h.own.trans (if_pos rfl)) h hexec
  have hcopy {into from_ : String} (hinto : into = m.name ∨ into = rebuildTable)
      (hfrom : from_ = m.name ∨ from_ = rebuildTable) (db db' : Counted V)
      (h : InPhase key m start .both db)
      (hexec : execCounted v key (.insertSelect into (w.newList m) from_) db = some db') :
      InPhase key m start .both db' :=
    insertSelect_keeps hone hinto hfrom (fun n hn => newList_identity hm hn) h hexec
  unfold PlanWriter.rebuild
  simp only [hwhen]
  refine Path.append (j := .own) (Path.append (j := .own) (Path.append (j := .both) (Path.append
    (j := .both) (Path.append (j := .work) (Path.append (j := .work) (Path.append (j := .both)
    (Path.append (j := .both) (Path.append (j := .both) (Path.append (j := .both) (Path.append
    (j := .own) (.single ?_) (.single ?_)) (.single ?_)) (.stay ?_)) (.single ?_)) (.single ?_))
    (.cons (j := .work) ?_ (.single ?_))) (.single ?_)) (.cons (j := .both) ?_ (.single ?_)))
    (.single ?_)) (.single ?_)) (.stay ?_)
  · exact goes_step newCreate_keeps hdropWork
  · exact goes_step (given_keeps hwork hne) (taken_keeps hwork hne)
  · exact goes_copyRows hm hid hh hone
  · exact fun s hs => goes_objects _ (.inr hs)
  · exact goes_emptyRows hm hid hh hone
  · exact goes_step (taken_keeps hown hne) (given_keeps hown hne)
  · exact goes_step hdropOwn (oldCreate_keeps hm hid)
  · exact goes_step newCreate_keeps hdropOwn
  · exact goes_step (given_keeps hown hne) (taken_keeps hown hne)
  · exact goes_step (hcopy (.inl rfl) (.inr rfl)) fun _ _ => deleteRows_keeps
  · exact goes_step (fun _ _ => deleteRows_keeps) (hcopy (.inr rfl) (.inl rfl))
  · exact goes_step (taken_keeps hwork hne) (given_keeps hwork hne)
  · exact goes_step hdropWork newCreate_keeps
  · exact fun s hs => goes_objects _ (.inl hs)

end Rebuilds

section Main
variable {V : Type} {v : RowValues V} {key : V → Int} {R : Renderer} {source : Option Document}
  {p : Plan} {d : Diff} {m : Match} {start : Counted V}

/-- The counters of a place of a rebuild: no name has two rows, and a value that the table had is in
its row or in the row of the work table. -/
structure CountersKept (m : Match) (start db : Counted V) : Prop where
  once : ∀ n, (rowsFor db.sequence n).length ≤ 1
  value : ∀ u ∈ rowsFor start.sequence m.name,
    u ∈ rowsFor db.sequence m.name ∨ u ∈ rowsFor db.sequence rebuildTable

theorem InPhase.kept {phase : Phase} {db : Counted V} (h : InPhase key m start phase db)
    (hone : ∀ n, (rowsFor start.sequence n).length ≤ 1) : CountersKept m start db where
  once := by
    intro n
    by_cases hown : n = m.name
    · rw [hown, h.own]
      split
      · exact Nat.zero_le _
      · exact hone m.name
    · by_cases hwork : n = rebuildTable
      · rw [hwork, h.work]
        split
        · exact Nat.zero_le _
        · exact hone m.name
      · rw [h.others n hown hwork]
        exact hone n
  value := by
    intro u hu
    by_cases hphase : phase = .work
    · refine .inr ?_
      rwa [h.work, if_neg (by rw [hphase]; nofun)]
    · refine .inl ?_
      rwa [h.own, if_neg hphase]

/-- A place in both of two phases of the end is in the end's phase. -/
theorem path_end {ι α : Type} {K : ι → α → ι → Prop} {i j : ι} (h : Path K i [] j) : i = j := by
  cases h
  rfl

theorem runSteps_counted (key : V → Int) (sequence : List (String × Int)) {l : List Statement}
    {c c' : Catalog V} (h : runSteps (exec v) l c = some c') :
    ∃ sequence', runSteps (execCounted v key) l ⟨c, sequence⟩ = some ⟨c', sequence'⟩ := by
  induction l generalizing c sequence with
  | nil =>
    cases h
    exact ⟨sequence, rfl⟩
  | cons s l ih =>
    obtain ⟨c₁, hs, hl⟩ := Option.bind_eq_some_iff.mp h
    have hcounted : execCounted v key s ⟨c, sequence⟩ = some ⟨c₁, counters v key s c sequence⟩ :=
      Option.map_eq_some_iff.mpr ⟨c₁, hs, rfl⟩
    obtain ⟨sequence', hrun⟩ := ih (counters v key s c sequence) hl
    exact ⟨sequence', (Orm.Logic.runSteps_cons_of hcounted).trans hrun⟩

/-- The rows of the renamed source are below its counter. -/
theorem renamed_below (hm : m.Sound) (hid : m.KeepsIdentity) {r : Relation V} (hr : r.Of m.source)
    {rows : List Int} (hkeys : ∀ k ∈ (r.renamed m.renames).keys key, ∃ u ∈ rows, k ≤ u) :
    Below key m rows (r.renamed m.renames) where
  identity := by
    intro k hk hkid
    obtain ⟨k', hk', rfl⟩ := mem_renamed.mp hk
    exact (hid.found k'.column (hr.mem hk') hkid).1
  values := by
    intro k hk hidentity x hx
    have hkid : k.column.identity = true := by
      obtain ⟨k', hk', rfl⟩ := mem_renamed.mp hk
      obtain ⟨s, hs, c, hc, hname, hpair, hsid, -⟩ := hid.kept _ hidentity
      obtain ⟨hsname, -, heq⟩ := hm.mem_columnOf.mp hpair
      have hsame := hm.renamed_inj hsname (hr.name_mem hk') heq
      obtain rfl : s = k'.column := List.inj_on_of_nodup_map hm.sourceNodup hs (hr.mem hk') hsame
      exact hsid
    refine hkeys (key x) (List.mem_flatMap.mpr ⟨k, List.mem_filter.mpr ⟨hk, hkid⟩, ?_⟩)
    exact List.mem_map_of_mem hx

/-- The rebuild of a table with an identity column runs to its end, and at every place of it, of its
rollback and of its next runs the key counters are kept: no name has two rows, the counter of the
table is in its own row or in the one of the work table, and at both ends it is in its own row and
the work table has none. The work table has no counter row before. -/
theorem rebuild_keeps_counters (h : Accepted R source p d) (hm : m ∈ d.matched)
    (hidentity : ∀ t ∈ sources source ++ p.schema.tables, t.IdentityKey)
    (hident : m.target.columns.any (·.identity) = true) {r : Relation V} (hr : r.Of m.source)
    (hown : start.catalog m.name = some (r.renamed m.renames))
    (hwork : start.catalog rebuildTable = none)
    (hone : ∀ n, (rowsFor start.sequence n).length ≤ 1)
    (hkeys : ∀ n r, start.catalog n = some r → ∀ k ∈ r.keys key,
      ∃ u ∈ rowsFor start.sequence n, k ≤ u)
    (hfree : rowsFor start.sequence rebuildTable = []) :
    (∃ db, Walk (Takes v key) (TakesBack v key) ⟨[], (writer R p d .sqlite).rebuild m, start⟩
      ⟨((writer R p d .sqlite).rebuild m).reverse, [], db⟩) ∧
    ∀ place, Walk (Takes v key) (TakesBack v key)
        ⟨[], (writer R p d .sqlite).rebuild m, start⟩ place →
      CountersKept m start place.state ∧ (place.behind = [] ∨ place.ahead = [] →
        rowsFor place.state.sequence m.name = rowsFor start.sequence m.name ∧
        rowsFor place.state.sequence rebuildTable = []) := by
  obtain ⟨hsmem, htmem, -⟩ := Accepted.matched_spec (w := writer R p d .sqlite) h hm
  obtain ⟨doc, -, -, hsvalid⟩ := h.source_valid hsmem
  have htvalid := h.parsed.target.each m.target htmem
  have hsound := h.sound hm
  have hid : m.KeepsIdentity := hsound.keepsIdentity hsvalid htvalid
    (hidentity _ (List.mem_append_left _ hsmem)) (hidentity _ (List.mem_append_right _ htmem))
  have hholds (k : HoldKey) : ¬ nameForm ((writer R p d .sqlite).hold k) := hold_unnamed rfl k
  have hne : m.name ≠ rebuildTable := fun heq =>
    rebuildTable_unnamed (heq ▸ validName_form htvalid.named)
  have hstart : InPhase key m start .own start := by
    refine ⟨rfl, hfree, fun _ _ _ => rfl, fun n hn r' hr' => ?_⟩
    rcases hn with rfl | rfl
    · obtain rfl := Option.some.inj (hown.symm.trans hr')
      exact renamed_below hsound hid hr (hkeys _ _ hown)
    · rw [hwork] at hr'
      cases hr'
  have hpath : Path (Goes v key m start) .own ((writer R p d .sqlite).rebuild m) .own :=
    rebuild_path hsound hid hholds (hone m.name) hne hident
  constructor
  · have hrun := rebuild_run (v := v) (w := writer R p d .sqlite) h.parsed.target.each htmem hsound
      (held_of_mem rfl hm) hr hne hown hwork
    obtain ⟨sequence', hrun'⟩ := runSteps_counted key start.sequence hrun
    rw [Orm.Logic.runSteps_map] at hrun'
    have hhere : Walk (Takes v key) (TakesBack v key) ⟨[], (writer R p d .sqlite).rebuild m, start⟩
        ⟨[], (writer R p d .sqlite).rebuild m, start⟩ := .here
    have hwalk := hhere.run (fun s db db' hexec => ⟨s.statement, .inl rfl, hexec⟩) hrun'
    rw [List.append_nil] at hwalk
    exact ⟨_, hwalk⟩
  · intro place hplace
    obtain ⟨phase, hbehind, hahead, hphase⟩ := hplace.phase hpath hstart
    refine ⟨hphase.kept hone, fun hends => ?_⟩
    have hown : phase = .own := by
      rcases hends with hnil | hnil
      · rw [hnil] at hbehind
        exact (path_end hbehind).symm
      · rw [hnil] at hahead
        exact path_end hahead
    rw [hown] at hphase
    exact ⟨hphase.own, hphase.work⟩

end Main

section Examples

/-- A document of one table with an identity column. -/
def countedDocument (name : String) : Document :=
  ⟨[⟨name, [⟨"id", .i64, false, true, none⟩], ["id"], [], [], [], [], []⟩], name⟩

/-- Renames the table, so SQLite rebuilds it. -/
def countedPlan : Plan :=
  ⟨"rename", some "a", [⟨"a", "b"⟩], [], [], [], countedDocument "b"⟩

theorem countedDocument_valid {name : String} (hname : validName name) :
    (countedDocument name).Valid id where
  tables := List.nodup_singleton _
  each := by
    intro t ht
    obtain rfl := List.mem_singleton.mp ht
    exact {
      named := hname
      columnsNamed := (by decide : ∀ c ∈ ["id"], validName c)
      columns := (by decide : ["id"].Nodup)
      keys := (by decide : ∀ k ∈ [["id"]], k ≠ [] ∧ k.Nodup ∧ ∀ c ∈ k, c ∈ ["id"])
      foreignKeys := fun _ h => absurd h List.not_mem_nil
      checks := fun _ h => absurd h List.not_mem_nil }
  constraintsNamed := fun _ h => absurd h List.not_mem_nil
  constraints := List.nodup_nil
  apart := fun _ _ => List.not_mem_nil
  generated := List.nodup_nil

/-- The renamed table. -/
def countedMatch : Match :=
  matchOf (some (countedDocument "a")) countedPlan plainRenderer
    ⟨"a", [⟨"id", .i64, false, true, none⟩], ["id"], [], [], [], [], []⟩
    ⟨"b", [⟨"id", .i64, false, true, none⟩], ["id"], [], [], [], [], []⟩

theorem countedPlan_accepted :
    ∃ d, Accepted plainRenderer (some (countedDocument "a")) countedPlan d ∧
      countedMatch ∈ d.matched := by
  obtain ⟨d, hd⟩ : ∃ d, planDiff (some (countedDocument "a")) countedPlan plainRenderer = .ok d :=
    planDiff_ok rfl (by decide +kernel)
  have haccepted : Accepted plainRenderer (some (countedDocument "a")) countedPlan d := by
    refine ⟨fun s hs => ?_, ⟨countedDocument_valid (by decide), by decide, by decide⟩, hd⟩
    cases hs
    exact countedDocument_valid (by decide)
  refine ⟨d, haccepted, haccepted.mem_matched.mpr ⟨(_, _), haccepted.mem_matchedTables.mpr
    ⟨List.mem_singleton_self _, List.mem_singleton_self _, rfl⟩, rfl⟩⟩

theorem countedPlan_identity : ∀ t ∈ sources (some (countedDocument "a")) ++
    countedPlan.schema.tables, t.IdentityKey := by
  intro t ht
  rcases List.mem_pair.mp ht with rfl | rfl
  · intro c hc _
    obtain rfl := List.mem_singleton.mp hc
    exact ⟨rfl, rfl⟩
  · intro c hc _
    obtain rfl := List.mem_singleton.mp hc
    exact ⟨rfl, rfl⟩

/-- A row with the key 3. -/
def countedRows : Relation Int := ⟨[⟨⟨"id", .i64, false, true, none⟩, [3]⟩], 1, by simp⟩

/-- The table at the beginning of its rebuild, with the rows of `sqlite_sequence`. -/
def countedStart (sequence : List (String × Int)) : Counted Int :=
  ⟨fun n => if n = "b" then some countedRows else none, sequence⟩

/-- Keys are integers, and an insert gives every column. -/
def countedValues : RowValues Int := ⟨fun _ => 0, fun x _ => x⟩

theorem countedStart_own (sequence : List (String × Int)) :
    (countedStart sequence).catalog countedMatch.name =
      some (countedRows.renamed countedMatch.renames) := rfl

theorem countedStart_keys {sequence : List (String × Int)} (h : 5 ∈ rowsFor sequence "b") :
    ∀ n r, (countedStart sequence).catalog n = some r → ∀ k ∈ r.keys id,
      ∃ u ∈ rowsFor sequence n, k ≤ u := by
  intro n r hr k hk
  simp only [countedStart] at hr
  split at hr
  · rename_i hn
    cases hr
    obtain rfl : k = 3 := List.mem_singleton.mp hk
    exact ⟨5, hn ▸ h, by decide⟩
  · cases hr

theorem rebuild_keeps_counters_renamed : ∃ d,
    Accepted plainRenderer (some (countedDocument "a")) countedPlan d ∧ countedMatch ∈ d.matched ∧
      (∃ db, Walk (Takes countedValues id) (TakesBack countedValues id)
        ⟨[], (writer plainRenderer countedPlan d .sqlite).rebuild countedMatch,
          countedStart [("b", 5)]⟩
        ⟨((writer plainRenderer countedPlan d .sqlite).rebuild countedMatch).reverse, [], db⟩) ∧
      ∀ place, Walk (Takes countedValues id) (TakesBack countedValues id)
          ⟨[], (writer plainRenderer countedPlan d .sqlite).rebuild countedMatch,
            countedStart [("b", 5)]⟩ place →
        CountersKept countedMatch (countedStart [("b", 5)]) place.state ∧
        (place.behind = [] ∨ place.ahead = [] →
          rowsFor place.state.sequence "b" = [5] ∧
          rowsFor place.state.sequence rebuildTable = []) := by
  obtain ⟨d, h, hm⟩ := countedPlan_accepted
  have hone : ∀ n, (rowsFor (countedStart [("b", 5)]).sequence n).length ≤ 1 := by
    intro n
    rw [rowsFor, List.length_map]
    exact List.length_filter_le _ _
  have hrows : countedRows.Of countedMatch.source := rfl
  exact ⟨d, h, hm, rebuild_keeps_counters h hm countedPlan_identity rfl hrows
    (countedStart_own _) rfl hone (countedStart_keys (by decide)) rfl⟩

/-- A counter row of the work table that no table left: the rebuild gives the work table a second
one. -/
theorem rebuild_counts_twice : ∃ d,
    Accepted plainRenderer (some (countedDocument "a")) countedPlan d ∧ countedMatch ∈ d.matched ∧
      (countedStart [("b", 5), (rebuildTable, 7)]).catalog countedMatch.name =
        some (countedRows.renamed countedMatch.renames) ∧
      (∀ n, (rowsFor (countedStart [("b", 5), (rebuildTable, 7)]).sequence n).length ≤ 1) ∧
      (∀ n r, (countedStart [("b", 5), (rebuildTable, 7)]).catalog n = some r →
        ∀ k ∈ r.keys id, ∃ u ∈ rowsFor [("b", 5), (rebuildTable, 7)] n, k ≤ u) ∧
      ∃ place, Walk (Takes countedValues id) (TakesBack countedValues id)
          ⟨[], (writer plainRenderer countedPlan d .sqlite).rebuild countedMatch,
            countedStart [("b", 5), (rebuildTable, 7)]⟩ place ∧
        rowsFor place.state.sequence rebuildTable = [7, 5] := by
  obtain ⟨d, h, hm⟩ := countedPlan_accepted
  refine ⟨d, h, hm, countedStart_own _, fun n => ?_, countedStart_keys (by decide), ?_⟩
  · simp only [countedStart, rowsFor, List.filter_cons, List.filter_nil]
    by_cases hb : "b" = n
    · have hne : rebuildTable ≠ n := hb ▸ (by decide)
      simp [hb, hne]
    · by_cases hr : rebuildTable = n
      · simp [hb, hr]
      · simp [hb, hr]
  · have hcreate : Takes countedValues id
        (step ((writer plainRenderer countedPlan d .sqlite).newCreate countedMatch rebuildTable)
          (some (.dropTable rebuildTable)) (present .table rebuildTable ""))
        (countedStart [("b", 5), (rebuildTable, 7)])
        ⟨_, [("b", 5), (rebuildTable, 7)]⟩ := ⟨_, .inl rfl, rfl⟩
    have hcopy (c : Catalog Int) : Takes countedValues id (PlanWriter.sequence rebuildTable "b")
        ⟨c, [("b", 5), (rebuildTable, 7)]⟩
        ⟨c, [("b", 5), (rebuildTable, 7), (rebuildTable, 5)]⟩ := ⟨_, .inl rfl, rfl⟩
    have hrows : rowsFor [("b", 5), (rebuildTable, 7), (rebuildTable, 5)] rebuildTable = [7, 5] := by
      decide
    exact ⟨_, (Walk.here.step hcreate).step (hcopy _), hrows⟩

end Examples

end Orm.Dbspec
