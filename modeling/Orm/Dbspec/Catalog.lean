import Orm.Logic.Keyed
import Orm.Dbspec.Steps
import Orm.Dbspec.Valid

/-! What the statements of a plan do to a catalog of tables and columns with their values. -/
namespace Orm.Dbspec

open Orm.Logic (moveKey onKey runSteps runSteps_same Turns)
open PlanWriter (zeroDigits)

/-- What the database writes into rows: the value of a column that an insert leaves out, and a value
with digits appended. -/
structure RowValues (V : Type) where
  initial : Column → V
  append : V → String → V

variable {V : Type} (v : RowValues V)

/-- A value as a copy with appended digits writes it. -/
def RowValues.padded (pad : String) (x : V) : V := if pad = "" then x else v.append x pad

/-- A value after a type change that keeps every value: a time or datetime of a greater precision has
more zero digits. -/
def RowValues.widen (old new : ColumnType) (x : V) : V := v.padded (zeroDigits old new) x

/-- A stored column: its definition and its values by row. -/
@[ext] structure StoredColumn (V : Type) where
  column : Column
  values : List V

/-- A stored table: every column has a value for every row. -/
@[ext] structure Relation (V : Type) where
  columns : List (StoredColumn V)
  rows : Nat
  full : ∀ k ∈ columns, k.values.length = rows

namespace Relation

def names (r : Relation V) : List String := r.columns.map fun k => k.column.name

def find (r : Relation V) (name : String) : Option (StoredColumn V) :=
  r.columns.find? fun k => k.column.name = name

/-- A table without rows. -/
def fresh (columns : List Column) : Relation V where
  columns := columns.map fun c => ⟨c, []⟩
  rows := 0
  full := by simp

/-- The table without its rows. -/
def cleared (r : Relation V) : Relation V := fresh (r.columns.map StoredColumn.column)

/-- Changes the definitions and the values of the columns. -/
def map (f : Column → Column) (g : Column → V → V) (r : Relation V) : Relation V where
  columns := r.columns.map fun k => ⟨f k.column, k.values.map (g k.column)⟩
  rows := r.rows
  full := by
    intro k hk
    obtain ⟨k', hk', rfl⟩ := List.mem_map.mp hk
    simpa using r.full k' hk'

/-- The change of one column as a change of all. -/
def only (name : String) (f : Column → Column) (c : Column) : Column := if c.name = name then f c else c

/-- Changes the definition of a column; its values follow its type. -/
def alter (name : String) (f : Column → Column) (r : Relation V) : Option (Relation V) :=
  if name ∈ r.names then
    some (r.map (only name f) fun c => v.widen c.type (only name f c).type)
  else none

def rename (old new : String) (r : Relation V) : Option (Relation V) :=
  if new ∈ r.names then none else r.alter v old fun c => { c with name := new }

/-- The table with one more column of initial values. -/
def withColumn (c : Column) (r : Relation V) : Relation V where
  columns := r.columns ++ [⟨c, List.replicate r.rows (v.initial c)⟩]
  rows := r.rows
  full := by
    intro k hk
    rcases List.mem_append.mp hk with hk | hk
    · exact r.full k hk
    · rw [List.mem_singleton.mp hk]
      simp

def add (c : Column) (r : Relation V) : Option (Relation V) :=
  if c.name ∈ r.names then none else some (r.withColumn v c)

/-- The table without a column. -/
def without (name : String) (r : Relation V) : Relation V where
  columns := r.columns.filter fun k => k.column.name ≠ name
  rows := r.rows
  full := fun k hk => r.full k (List.mem_of_mem_filter hk)

def remove (name : String) (r : Relation V) : Option (Relation V) :=
  if name ∈ r.names then some (r.without name) else none

/-- The values that a copy gives a column: those of the copied column, or initial ones. -/
def copied (columns : List (String × CopyValue)) (from_ : Relation V) (c : Column) : List V :=
  match (columns.lookup c.name).bind fun x => (from_.find x.column).map fun k => (x.pad, k) with
  | some (pad, k) => k.values.map (v.padded pad)
  | none => List.replicate from_.rows (v.initial c)

theorem copied_length (columns : List (String × CopyValue)) (from_ : Relation V) (c : Column) :
    (copied v columns from_ c).length = from_.rows := by
  unfold copied
  split
  · next pad k h =>
    obtain ⟨x, _, hx⟩ := Option.bind_eq_some_iff.mp h
    obtain ⟨k', hk, heq⟩ := Option.map_eq_some_iff.mp hx
    cases heq
    rw [List.length_map]
    exact from_.full _ (List.mem_of_find?_eq_some hk)
  · simp

/-- The table with the rows of another appended. -/
def withRows (columns : List (String × CopyValue)) (r from_ : Relation V) : Relation V where
  columns := r.columns.map fun k => ⟨k.column, k.values ++ copied v columns from_ k.column⟩
  rows := r.rows + from_.rows
  full := by
    intro k hk
    obtain ⟨k', hk', rfl⟩ := List.mem_map.mp hk
    rw [List.length_append, r.full k' hk', copied_length]

/-- Appends the rows of another table; the columns of both are there. -/
def insertFrom (columns : List (String × CopyValue)) (from_ r : Relation V) : Option (Relation V) :=
  if columns.all fun x => x.1 ∈ r.names && x.2.column ∈ from_.names then
    some (r.withRows v columns from_)
  else none

end Relation

/-- A change of one column: its definitions before and after, and what becomes of a value. -/
structure Change (V : Type) where
  old : Column
  new : Column
  value : V → V

/-- The tables by their names. -/
abbrev Catalog (V : Type) := String → Option (Relation V)

/-- The table is there and has the columns. -/
def Catalog.has (c : Catalog V) (table : String) (columns : List String) : Bool :=
  (c table).any fun r => columns.all (· ∈ r.names)

/-- The columns of its own table that an object names. -/
def ObjectDef.columns : ObjectDef → List String
  | .unique u => u.columns
  | .index x => x.columns.map IndexColumn.name
  | .foreignKey f => f.columns
  | .check k => exprColumns k.expression
  | .rendererCheck _ k => [k.column]

/-- The table and the columns that an object references. -/
def ObjectDef.references : ObjectDef → Option (String × List String)
  | .foreignKey f => some (f.table, f.references)
  | _ => none

/-- The columns that a definition names in its keys and checks. -/
def namedColumns (t : Table) (checks : List (String × TypeCheck)) : List String :=
  t.keys.flatten ++ t.foreignKeys.flatMap ForeignKey.columns ++
    t.checks.flatMap (fun k => exprColumns k.expression) ++ checks.map fun k => k.2.column

/-- A hidden column is nullable and no identity. -/
def hiddenColumn (c : Column) : Column := { c with nullable := true, identity := false }

/-- What a statement makes of a catalog, or none when it does not find a table or column that it names
or when one that it creates is there. SQLite looks up the tables of a `REFERENCES` of a definition
only when it checks rows. -/
def exec : Statement → Catalog V → Option (Catalog V)
  | .renameTable old new, c => moveKey old new c
  | .renameColumn table old new, c => onKey table (Relation.rename v old new) c
  | .createTable name t checks hidden, c =>
    if (c name).isNone && (namedColumns t checks).all (· ∈ t.columnNames) then
      some (Function.update c name (some (.fresh (t.columns ++ hidden.map hiddenColumn))))
    else none
  | .dropTable name, c => if (c name).isSome then some (Function.update c name none) else none
  | .addColumn table k, c => onKey table (Relation.add v k) c
  | .dropColumn table name, c => onKey table (Relation.remove name) c
  | .modifyColumn table k, c => onKey table (Relation.alter v k.name fun _ => k) c
  | .alterType table column type, c =>
    onKey table (Relation.alter v column fun k => { k with type }) c
  | .setNotNull table column, c =>
    onKey table (Relation.alter v column fun k => { k with nullable := false }) c
  | .dropNotNull table column, c =>
    onKey table (Relation.alter v column fun k => { k with nullable := true }) c
  | .setDefault table column _ value, c =>
    onKey table (Relation.alter v column fun k => { k with default := some value }) c
  | .dropDefault table column, c =>
    onKey table (Relation.alter v column fun k => { k with default := none }) c
  | .addObject table o, c =>
    if c.has table o.columns && o.references.all fun x => c.has x.1 x.2 then some c else none
  | .dropObject table _ _, c | .createTrigger table _, c | .dropTrigger table _, c =>
    if (c table).isSome then some c else none
  | .createFunction _, c | .dropFunction _, c | .copySequence _ _, c | .deleteSequence _, c => some c
  | .insertSelect into columns from_, c =>
    (c from_).bind fun s => onKey into (Relation.insertFrom v columns s) c
  | .deleteRows table, c => onKey table (fun r => some r.cleared) c

/-- Runs the statements of steps. -/
def runStatements (steps : List (Step Statement)) (c : Catalog V) : Option (Catalog V) :=
  runSteps (exec v) (steps.map Step.statement) c

section Relations
variable {v} {r : Relation V} {name : String} {f f' : Column → Column} {g g' : Column → V → V}

theorem zeroDigits_self (type : ColumnType) : zeroDigits type type = "" := by
  cases type <;> simp [zeroDigits]

@[simp] theorem widen_self (type : ColumnType) (x : V) : v.widen type type x = x := by
  rw [RowValues.widen, zeroDigits_self]
  exact if_pos rfl

namespace Relation

theorem find_mem {k : StoredColumn V} (h : r.find name = some k) :
    k ∈ r.columns ∧ k.column.name = name := by
  have hname : decide (k.column.name = name) = true :=
    @List.find?_some _ (fun k : StoredColumn V => k.column.name = name) _ _ h
  exact ⟨List.mem_of_find?_eq_some h, of_decide_eq_true hname⟩

theorem find_eq_some {k : StoredColumn V} (hr : r.names.Nodup) (hk : k ∈ r.columns) :
    r.find k.column.name = some k := by
  obtain ⟨u, hu⟩ : ∃ u, r.find k.column.name = some u :=
    Option.isSome_iff_exists.mp (List.find?_isSome.mpr ⟨k, hk, by simp⟩)
  obtain ⟨humem, huname⟩ := find_mem hu
  obtain rfl : u = k := List.inj_on_of_nodup_map hr humem hk huname
  exact hu

theorem mem_names {k : StoredColumn V} (h : k ∈ r.columns) : k.column.name ∈ r.names :=
  List.mem_map_of_mem h

@[simp] theorem map_rows : (r.map f g).rows = r.rows := rfl

@[simp] theorem map_columns :
    (r.map f g).columns = r.columns.map fun k => ⟨f k.column, k.values.map (g k.column)⟩ := rfl

@[simp] theorem fresh_rows {columns : List Column} : (fresh columns : Relation V).rows = 0 := rfl

@[simp] theorem fresh_columns {columns : List Column} :
    (fresh columns : Relation V).columns = columns.map fun c => ⟨c, []⟩ := rfl

theorem names_map : (r.map f g).names = r.columns.map fun k => (f k.column).name := by
  simp [names, Function.comp_def]

theorem names_map_keep (hf : ∀ k ∈ r.columns, (f k.column).name = k.column.name) :
    (r.map f g).names = r.names := by
  rw [names_map]
  exact List.map_congr_left hf

theorem names_fresh {columns : List Column} :
    (fresh columns : Relation V).names = columns.map Column.name := by
  simp [names, Function.comp_def]

theorem map_congr (hf : ∀ k ∈ r.columns, f k.column = f' k.column)
    (hg : ∀ k ∈ r.columns, ∀ x, g k.column x = g' k.column x) : r.map f g = r.map f' g' := by
  refine Relation.ext (List.map_congr_left fun k hk => ?_) rfl
  exact StoredColumn.ext (hf k hk) (List.map_congr_left fun x _ => hg k hk x)

theorem map_eq_self (hf : ∀ k ∈ r.columns, f k.column = k.column)
    (hg : ∀ k ∈ r.columns, ∀ x, g k.column x = x) : r.map f g = r := by
  refine Relation.ext ((List.map_congr_left fun k hk => ?_).trans (List.map_id _)) rfl
  exact StoredColumn.ext (hf k hk) ((List.map_congr_left fun x _ => hg k hk x).trans (List.map_id _))

theorem map_map : (r.map f g).map f' g' = r.map (f' ∘ f) fun c x => g' (f c) (g c x) := by
  refine Relation.ext ?_ rfl
  simp [Function.comp_def]

@[simp] theorem only_name {c : Column} (hf : ∀ c, (f c).name = c.name) :
    (only name f c).name = c.name := by
  unfold only
  split
  · exact hf c
  · rfl

theorem only_of_eq {c : Column} (h : c.name = name) : only name f c = f c := if_pos h

theorem only_of_ne {c : Column} (h : c.name ≠ name) : only name f c = c := if_neg h

end Relation

variable {table : String}

theorem turns_alter {s : Statement}
    (hs : ∀ c, exec v s c = onKey table (Relation.alter v name f) c) (hname : name ∈ r.names) :
    Turns (exec v) table [s] r
      (r.map (Relation.only name f) fun c => v.widen c.type (Relation.only name f c).type) :=
  Turns.onKey hs (if_pos hname)

theorem turns_rename {old new : String} (hold : old ∈ r.names) (hnew : new ∉ r.names) :
    Turns (exec v) table [.renameColumn table old new] r
      (r.map (Relation.only old fun c => { c with name := new }) fun _ x => x) := by
  have hmap : r.map (Relation.only old fun c => { c with name := new })
      (fun c => v.widen c.type (Relation.only old (fun c => { c with name := new }) c).type) =
      r.map (Relation.only old fun c => { c with name := new }) fun _ x => x := by
    refine Relation.map_congr (fun _ _ => rfl) fun k _ x => ?_
    unfold Relation.only
    split
    · exact widen_self _ _
    · exact widen_self _ _
  rw [← hmap]
  refine Turns.onKey (fun _ => rfl) ?_
  unfold Relation.rename
  rw [if_neg hnew]
  exact if_pos hold

end Relations

section Changes
variable {v} {r : Relation V} {l : List (Change V)} {x y : Change V}

namespace Relation

/-- Changes one column. -/
def change (r : Relation V) (x : Change V) : Relation V :=
  r.map (only x.old.name fun _ => x.new) fun c a => if c.name = x.old.name then x.value a else a

/-- The columns of a name have one definition. -/
def Defines (r : Relation V) (c : Column) : Prop := ∀ k ∈ r.columns, k.column.name = c.name → k.column = c

theorem mem_names_iff {name : String} :
    name ∈ r.names ↔ ∃ k ∈ r.columns, k.column.name = name := List.mem_map

end Relation

/-- The changed column is there, and a new name is not. -/
structure Change.Ready (x : Change V) (r : Relation V) : Prop where
  there : x.old.name ∈ r.names
  defined : r.Defines x.old
  free : x.new.name = x.old.name ∨ x.new.name ∉ r.names

/-- A later change is of another column, and their names do not meet. -/
structure Change.Apart (x y : Change V) : Prop where
  columns : y.old.name ≠ x.old.name
  olds : x.new.name ≠ y.old.name
  news : x.new.name ≠ y.new.name

/-- The changed columns and the others. -/
theorem mem_change {k : StoredColumn V} : k ∈ (r.change x).columns ↔
    (∃ k' ∈ r.columns, k'.column.name = x.old.name ∧ k = ⟨x.new, k'.values.map x.value⟩) ∨
      (k ∈ r.columns ∧ k.column.name ≠ x.old.name) := by
  simp only [Relation.change, Relation.map_columns, List.mem_map]
  constructor
  · rintro ⟨k', hk', rfl⟩
    by_cases hname : k'.column.name = x.old.name
    · exact .inl ⟨k', hk', hname, by simp [Relation.only, hname]⟩
    · exact .inr ⟨by simpa [Relation.only, hname] using hk', by simp [Relation.only, hname]⟩
  · rintro (⟨k', hk', hname, rfl⟩ | ⟨hk, hname⟩)
    · exact ⟨k', hk', by simp [Relation.only, hname]⟩
    · exact ⟨k, hk, by simp [Relation.only, hname]⟩

theorem Change.Ready.change (hy : y.Ready r) (h : x.Apart y) : y.Ready (r.change x) := by
  refine ⟨?_, ?_, ?_⟩
  · obtain ⟨k, hk, hname⟩ := Relation.mem_names_iff.mp hy.there
    exact Relation.mem_names_iff.mpr ⟨k, mem_change.mpr (.inr ⟨hk, hname ▸ h.columns⟩), hname⟩
  · intro k hk hname
    rcases mem_change.mp hk with ⟨_, _, _, rfl⟩ | ⟨hk, _⟩
    · exact absurd hname h.olds
    · exact hy.defined k hk hname
  · rcases hy.free with hsame | hfree
    · exact .inl hsame
    · refine .inr fun hm => ?_
      obtain ⟨k, hk, hname⟩ := Relation.mem_names_iff.mp hm
      rcases mem_change.mp hk with ⟨_, _, _, rfl⟩ | ⟨hk, _⟩
      · exact h.news hname
      · exact hfree (Relation.mem_names_iff.mpr ⟨k, hk, hname⟩)

/-- Programs that change one column each make all changes. -/
theorem turns_changes {table : String} {prog : Change V → List Statement}
    (hprog : ∀ x ∈ l, ∀ r, x.Ready r → Turns (exec v) table (prog x) r (r.change x))
    (hapart : l.Pairwise Change.Apart) (hready : ∀ x ∈ l, x.Ready r) :
    Turns (exec v) table (l.flatMap prog) r (l.foldl Relation.change r) := by
  induction l generalizing r with
  | nil => exact Turns.nil
  | cons x l ih =>
    obtain ⟨hhead, htail⟩ := List.pairwise_cons.mp hapart
    refine (hprog x List.mem_cons_self r (hready x List.mem_cons_self)).append ?_
    exact ih (fun y hy => hprog y (List.mem_cons_of_mem _ hy)) htail fun y hy =>
      (hready y (List.mem_cons_of_mem _ hy)).change (hhead y hy)

/-- What a list of changes makes of a column. -/
def changed (l : List (Change V)) (k : StoredColumn V) : StoredColumn V :=
  match l.find? fun x => x.old.name = k.column.name with
  | some x => ⟨x.new, k.values.map x.value⟩
  | none => k

theorem foldl_change_columns (hapart : l.Pairwise Change.Apart) :
    (l.foldl Relation.change r).columns = r.columns.map (changed l) := by
  induction l generalizing r with
  | nil => exact (List.map_id _).symm
  | cons x l ih =>
    obtain ⟨hhead, htail⟩ := List.pairwise_cons.mp hapart
    rw [List.foldl_cons, ih htail]
    simp only [Relation.change, Relation.map_columns, List.map_map]
    refine List.map_congr_left fun k _ => ?_
    by_cases hname : k.column.name = x.old.name
    · have hnone : l.find? (fun y => y.old.name = x.new.name) = none :=
        List.find?_eq_none.mpr fun y hy => by simpa using fun h => (hhead y hy).olds h.symm
      simp [changed, Relation.only, hname, hnone]
    · simp [changed, Relation.only, hname, Ne.symm hname]

theorem foldl_change_rows : (l.foldl Relation.change r).rows = r.rows := by
  induction l generalizing r with
  | nil => rfl
  | cons x l ih => exact ih

end Changes

section Objects
variable {v} {doc : Document} {t : Table} {c : Catalog V} {w : PlanWriter}

/-- The table is there with at least its columns. -/
def Catalog.Provides (c : Catalog V) (t : Table) : Prop :=
  ∃ r, c t.name = some r ∧ ∀ n ∈ t.columnNames, n ∈ r.names

theorem Catalog.Provides.has (h : c.Provides t) {columns : List String}
    (hcolumns : ∀ n ∈ columns, n ∈ t.columnNames) : c.has t.name columns := by
  obtain ⟨r, hr, hnames⟩ := h
  unfold Catalog.has
  rw [hr, Option.any_some, List.all_eq_true]
  exact fun n hn => decide_eq_true (hnames n (hcolumns n hn))

theorem Table.Valid.key_columns (ht : t.Valid doc) {k : List String} (hk : k ∈ t.keys) :
    ∀ n ∈ k, n ∈ t.columnNames := (ht.keys k (List.mem_append_left _ hk)).2.2

theorem objectDef_columns (ht : t.Valid doc) {o : ObjectRef} {x : ObjectDef}
    (h : PlanWriter.objectDef t o = some x) : ∀ n ∈ x.columns, n ∈ t.columnNames := by
  unfold PlanWriter.objectDef at h
  split at h
  · obtain ⟨u, hu, rfl⟩ := Option.map_eq_some_iff.mp h
    exact ht.key_columns (List.mem_cons_of_mem _ (List.mem_map_of_mem (List.mem_of_find?_eq_some hu)))
  · obtain ⟨u, hu, rfl⟩ := Option.map_eq_some_iff.mp h
    refine (ht.keys _ (List.mem_append_right _ ?_)).2.2
    exact List.mem_map.mpr ⟨u, List.mem_of_find?_eq_some hu, rfl⟩
  · obtain ⟨f, hf, rfl⟩ := Option.map_eq_some_iff.mp h
    exact (ht.foreignKeys f (List.mem_of_find?_eq_some hf)).2.2.1
  · obtain ⟨k, hk, rfl⟩ := Option.map_eq_some_iff.mp h
    exact ht.checks k (List.mem_of_find?_eq_some hk)

/-- An object of a valid document references columns of a table of the document. -/
theorem objectDef_references (hd : ∀ t ∈ doc.tables, t.Valid doc) (ht : t.Valid doc) {o : ObjectRef}
    {x : ObjectDef} (h : PlanWriter.objectDef t o = some x) {ref : String × List String}
    (href : x.references = some ref) :
    ∃ parent ∈ doc.tables, parent.name = ref.1 ∧ ∀ n ∈ ref.2, n ∈ parent.columnNames := by
  unfold PlanWriter.objectDef at h
  split at h
  · obtain ⟨u, _, rfl⟩ := Option.map_eq_some_iff.mp h
    cases href
  · obtain ⟨u, _, rfl⟩ := Option.map_eq_some_iff.mp h
    cases href
  · obtain ⟨f, hf, rfl⟩ := Option.map_eq_some_iff.mp h
    cases href
    obtain ⟨_, _, _, _, parent, hparent, hname, hkey⟩ := ht.foreignKeys f (List.mem_of_find?_eq_some hf)
    exact ⟨parent, hparent, hname, (hd parent hparent).key_columns hkey⟩
  · obtain ⟨k, _, rfl⟩ := Option.map_eq_some_iff.mp h
    cases href

/-- Adding objects of provided tables finds what they name. -/
theorem exec_addObject (hd : ∀ t ∈ doc.tables, t.Valid doc) (ht : t ∈ doc.tables) {o : ObjectRef}
    (hc : c.Provides t) (href : o.kind = .foreignKey → ∀ t ∈ doc.tables, c.Provides t)
    {s : Step Statement} (hs : s ∈ w.addObject t o) : exec v s.statement c = some c := by
  obtain ⟨x, hx, rfl⟩ := List.mem_map.mp hs
  have hx := Option.mem_toList.mp hx
  have hown : c.has t.name x.columns := hc.has (objectDef_columns (hd t ht) hx)
  have hparent : x.references.all fun ref => c.has ref.1 ref.2 := by
    cases hr : x.references with
    | none => rfl
    | some ref =>
      obtain ⟨parent, hp, hname, hcolumns⟩ := objectDef_references hd (hd t ht) hx hr
      have hkind : o.kind = .foreignKey := by
        unfold PlanWriter.objectDef at hx
        split at hx
        · obtain ⟨u, _, rfl⟩ := Option.map_eq_some_iff.mp hx
          cases hr
        · obtain ⟨u, _, rfl⟩ := Option.map_eq_some_iff.mp hx
          cases hr
        · assumption
        · obtain ⟨u, _, rfl⟩ := Option.map_eq_some_iff.mp hx
          cases hr
      rw [Option.all_some, ← hname]
      exact (href hkind parent hp).has hcolumns
  exact if_pos (by rw [hown, hparent]; rfl)

theorem indexes_kind {o : ObjectRef} (ho : o ∈ w.indexes t) : o.kind ≠ .foreignKey := by
  unfold PlanWriter.indexes at ho
  rcases List.mem_append.mp ho with ho | ho
  · split at ho
    · obtain ⟨u, _, rfl⟩ := List.mem_map.mp ho
      nofun
    · cases ho
  · obtain ⟨x, _, rfl⟩ := List.mem_map.mp ho
    nofun

theorem run_createIndexes (hd : ∀ t ∈ doc.tables, t.Valid doc) (ht : t ∈ doc.tables)
    (hc : c.Provides t) :
    runSteps (exec v) ((w.createIndexes t).map Step.statement) c = some c := by
  refine runSteps_same fun s hs => ?_
  obtain ⟨_, hmem, rfl⟩ := List.mem_map.mp hs
  obtain ⟨o, ho, hmem⟩ := List.mem_flatMap.mp hmem
  exact exec_addObject hd ht hc (fun h => absurd h (indexes_kind ho)) hmem

theorem namedColumns_valid (ht : t.Valid doc) (name : String → String) :
    (namedColumns t (w.checksOf t name)).all (· ∈ t.columnNames) := by
  rw [List.all_eq_true]
  intro n hn
  refine decide_eq_true ?_
  unfold namedColumns at hn
  simp only [List.mem_append] at hn
  rcases hn with ((hn | hn) | hn) | hn
  · obtain ⟨k, hk, hn⟩ := List.mem_flatten.mp hn
    exact ht.key_columns hk n hn
  · obtain ⟨f, hf, hn⟩ := List.mem_flatMap.mp hn
    exact (ht.foreignKeys f hf).2.2.1 n hn
  · obtain ⟨k, hk, hn⟩ := List.mem_flatMap.mp hn
    exact ht.checks k hk n hn
  · obtain ⟨x, hx, rfl⟩ := List.mem_map.mp hn
    obtain ⟨col, hcol, hx⟩ := List.mem_filterMap.mp hx
    obtain ⟨k, hk, rfl⟩ := Option.map_eq_some_iff.mp hx
    rw [typeCheck_column hk]
    exact List.mem_map_of_mem hcol

end Objects

end Orm.Dbspec
