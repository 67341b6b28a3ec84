import Orm.Dbspec.Render

/-! The diff of the source and the target schema of a plan. -/
namespace Orm.Dbspec

open Orm.Engine (Dialect sortedEntries)

inductive ObjectKind where
  | unique | index | foreignKey | check
  deriving DecidableEq, Repr

def ObjectKind.text : ObjectKind → String
  | .unique => "unique" | .index => "index" | .foreignKey => "foreign_key" | .check => "check"

structure ObjectRef where
  kind : ObjectKind
  name : String
  deriving DecidableEq, Repr

/-- Objects in the order of their kinds, then of their names. -/
def sortedRefs (refs : List ObjectRef) : List ObjectRef :=
  sortedEntries (fun o => o.kind.text ++ "\x00" ++ o.name) refs

/-- The value that a map has at a name after its entries are set in order: the last of two wins. -/
def mapGet (entries : List (String × String)) (name : String) : Option String :=
  entries.reverse.lookup name

/-- The new name of a renamed name. -/
def renamedOr (renames : List (String × String)) (name : String) : String :=
  (mapGet renames name).getD name

/-- Whether a type change keeps every value on the three databases. -/
def widens : ColumnType → ColumnType → Bool
  | .i16, .i32 | .i16, .i64 | .i32, .i64 => true
  | .varchar n, .varchar m => n ≤ m
  | .varchar _, .text => true
  | .decimal p s, .decimal q t => t = s && p ≤ q
  | .time p, .time q | .datetime p, .datetime q => p ≤ q
  | _, _ => false

/-- A table of both schemas with the changes of its columns and objects. A dropped object and a
removed column have their source names. -/
structure Match where
  source : Table
  target : Table
  /-- target column and source column of the columns of both -/
  columnOf : List (String × String)
  added : List String
  removed : List String
  altered : List String
  renamed : List ColumnRename
  dropObjects : List ObjectRef
  addObjects : List ObjectRef
  triggers : Bool

def Match.name (m : Match) : String := m.target.name

/-- The diff that the steps are written from. -/
structure Diff where
  created : List Table
  dropped : List Table
  matched : List Match
  renamedTables : List TableRename
  renamedColumns : List ColumnRename

section Expressions

def CheckOperand.columns : CheckOperand → List String
  | .column name => [name]
  | .literal _ => []

/-- The column names an expression uses. -/
def exprColumns : CheckExpr → List String
  | .logical _ left right => exprColumns left ++ exprColumns right
  | .compare _ left right => left.columns ++ right.columns
  | .in_ operand _ _ | .isNull operand _ => operand.columns

def operandText (f : String → String) : CheckOperand → String
  | .column name => f name
  | .literal text => text

def CheckExpr.isOr : CheckExpr → Bool
  | .logical .or _ _ => true
  | _ => false

/-- The canonical text of an expression with its column names mapped by `f`; only an or inside an
and takes parentheses. -/
def exprText (f : String → String) : CheckExpr → String
  | .logical op left right =>
    let side (e : CheckExpr) (text : String) : String :=
      if op = .and && e.isOr then "(" ++ text ++ ")" else text
    side left (exprText f left) ++ (if op = .and then " and " else " or ") ++
      side right (exprText f right)
  | .compare op left right => operandText f left ++ " " ++ op ++ " " ++ operandText f right
  | .in_ operand negated list =>
    operandText f operand ++ (if negated then " not" else "") ++ " in (" ++
      ", ".intercalate list ++ ")"
  | .isNull operand negated =>
    operandText f operand ++ " is " ++ (if negated then "not null" else "null")

end Expressions

def indexDef (f : String → String) (x : Index) : String :=
  String.join (x.columns.map fun c => f c.name ++ (if c.descending then " desc" else "") ++ ",")

def foreignKeyDef (columns : List String) (parent : String) (references : List String)
    (f : ForeignKey) : String :=
  ",".intercalate columns ++ ">" ++ parent ++ "(" ++ ",".intercalate references ++ ")" ++
    f.onDelete.text ++ "/" ++ f.onUpdate.text

def hashOrEmpty (hash : Option String) : String := hash.getD "empty"

/-- A column by the target name of its table. -/
abbrev ColumnKey := String × String

/-- The names that the renames of a plan give, and the columns that the plan changes. -/
structure Renames where
  tables : List (String × String)
  /-- target table, source column and target column -/
  columns : List ColumnRename
  altered : List ColumnKey

def Renames.table (n : Renames) (source : String) : String := renamedOr n.tables source

def Renames.columnsOf (n : Renames) (target : String) : List (String × String) :=
  (n.columns.filter (·.table = target)).map fun r => (r.old, r.new)

def Renames.column (n : Renames) (target c : String) : String := renamedOr (n.columnsOf target) c

section Objects
variable (n : Renames) (src tgt : Table)

/-- The columns of the unique keys and indexes that a table loses, by their target names. A
foreign key on them is rebuilt, because MySQL does not drop its index. -/
def droppedKeys : List (List String) :=
  let col := n.column tgt.name
  (src.uniques.filter fun u => (tgt.uniques.find? (·.name = u.name)).all fun t =>
    t.columns ≠ u.columns.map col).map (fun u => u.columns.map col) ++
  (src.indexes.filter fun x => (tgt.indexes.find? (·.name = x.name)).all fun t =>
    indexDef col x ≠ indexDef id t).map fun x => x.columns.map fun c => col c.name

/-- A foreign key on a column that changes or on a dropped key is rebuilt. -/
def forcedForeignKey (columns : List String) (parent : String) (references : List String) : Bool :=
  columns.any (fun c => (tgt.name, c) ∈ n.altered) ||
    references.any (fun c => (parent, c) ∈ n.altered) ||
    (droppedKeys n src tgt).any fun k => columns.isPrefixOf k

/-- The foreign key of the source stays as the one of the target. -/
def keepsForeignKey (s t : ForeignKey) : Bool :=
  let parent := n.table s.table
  let columns := s.columns.map (n.column tgt.name)
  let references := s.references.map (n.column parent)
  foreignKeyDef columns parent references s = foreignKeyDef t.columns t.table t.references t &&
    !forcedForeignKey n src tgt columns parent references

/-- The new names of the renamed columns of a table. -/
def renamedColumns : List String :=
  let renames := n.columnsOf tgt.name
  (renames.filter fun r => mapGet renames r.1 = some r.2).map Prod.snd

/-- A check that uses a renamed or an altered column is rebuilt. -/
def forcedCheck (k : Check) : Bool :=
  (exprColumns k.expression).any fun c => c ∈ renamedColumns n tgt || (tgt.name, c) ∈ n.altered

def keepsUnique (s t : Unique) : Bool := t.columns = s.columns.map (n.column tgt.name)

def keepsIndex (s t : Index) : Bool := indexDef (n.column tgt.name) s = indexDef id t

def keepsCheck (s t : Check) : Bool :=
  exprText (n.column tgt.name) s.expression = exprText id t.expression && !forcedCheck n tgt t

/-- The objects of one side that the other side lacks or that do not stay. -/
def changedObjects {α : Type} (kind : ObjectKind) (name : α → String) (own other : List α)
    (keeps : α → α → Bool) : List ObjectRef :=
  (own.filter fun a => (other.find? fun b => name b = name a).all fun b => !keeps a b).map
    fun a => ⟨kind, name a⟩

/-- The objects that a matched table drops. -/
def dropObjects : List ObjectRef :=
  sortedRefs
    (changedObjects .unique Unique.name src.uniques tgt.uniques (keepsUnique n tgt) ++
    changedObjects .index Index.name src.indexes tgt.indexes (keepsIndex n tgt) ++
    changedObjects .foreignKey ForeignKey.name src.foreignKeys tgt.foreignKeys
      (keepsForeignKey n src tgt) ++
    changedObjects .check Check.name src.checks tgt.checks (keepsCheck n tgt))

/-- The objects that a matched table adds. -/
def addObjects : List ObjectRef :=
  sortedRefs
    (changedObjects .unique Unique.name tgt.uniques src.uniques (fun t s => keepsUnique n tgt s t) ++
    changedObjects .index Index.name tgt.indexes src.indexes (fun t s => keepsIndex n tgt s t) ++
    changedObjects .foreignKey ForeignKey.name tgt.foreignKeys src.foreignKeys
      (fun t s => keepsForeignKey n src tgt s t) ++
    changedObjects .check Check.name tgt.checks src.checks (fun t s => keepsCheck n tgt s t))

/-- Whether the rendered triggers differ in a dialect; the source renders under its own names. -/
def diffTriggers (R : Renderer) : Bool :=
  [Dialect.mysql, .postgres, .sqlite].any fun d => R.triggers d src ≠ R.triggers d tgt

end Objects

section Columns
variable (p : Plan) (src tgt : Table) (renames : List (String × String))

/-- The columns of both tables, target name and source name, in source order. -/
def columnPairs : List (String × String) :=
  src.columns.filterMap fun c =>
    let new := renamedOr renames c.name
    if (tgt.column new).isSome then some (new, c.name) else none

/-- The source columns that the target lacks. -/
def removedColumns : List String :=
  (src.columns.filter fun c => (tgt.column (renamedOr renames c.name)).isNone).map Column.name

/-- The source column of a target column. -/
def sourceColumn (c : Column) : Option Column :=
  (mapGet (columnPairs src tgt renames) c.name).bind src.column

def addedColumns : List Column :=
  tgt.columns.filter fun c => (mapGet (columnPairs src tgt renames) c.name).isNone

/-- Whether a column of both tables changes its type, its nullability or its default. -/
def changesColumn (s c : Column) : Bool :=
  s.type ≠ c.type || s.nullable ≠ c.nullable || s.default ≠ c.default

/-- A change that no plan can make to a column of both tables. -/
def columnRefused (s c : Column) : Option String :=
  if s.identity ≠ c.identity then
    some s!"column {tgt.name}.{c.name} changes identity; it needs a new table"
  else if s.type ≠ c.type && !widens s.type c.type then
    let change := s!"from {s.type.typeText} to {c.type.typeText}"
    some s!"column {tgt.name}.{c.name} changes type {change}, which does not keep every value; it needs a new column"
  else none

def alteredColumns : List String :=
  (tgt.columns.filter fun c => (sourceColumn src tgt renames c).any fun s =>
    (columnRefused tgt s c).isNone && changesColumn s c).map Column.name

def columnErrors : List String :=
  ((removedColumns src tgt renames).filter fun c => ⟨src.name, c⟩ ∉ p.dropColumns).map (fun c =>
    s!"column {src.name}.{c} is dropped without allow drop column {src.name}.{c}") ++
  tgt.columns.flatMap (fun c => match sourceColumn src tgt renames c with
    | some s => (columnRefused tgt s c).toList
    | none =>
      (if !c.nullable && c.default.isNone then
        [s!"column {tgt.name}.{c.name} is added non-null without a default; add it null, fill it, and make it non-null in a later plan"]
      else []) ++
      (if c.identity then
        [s!"column {tgt.name}.{c.name} adds an identity, which changes the primary key"] else []))

/-- PostgreSQL cannot place columns: kept columns keep their order and added columns come last. -/
def orderErrors : List String :=
  let kept := (columnPairs src tgt renames).map Prod.fst
  let isKept (c : Column) : Bool := kept.contains c.name
  let keptTarget := (tgt.columns.filter isKept).map Column.name
  let early := (tgt.columns.reverse.dropWhile fun c => !isKept c).reverse.filter fun c => !isKept c
  (if kept ≠ keptTarget then
    [s!"table {tgt.name} reorders its columns; columns keep their order"] else []) ++
  early.map (fun c =>
    s!"column {tgt.name}.{c.name} is added before a kept column; added columns come last") ++
  (if src.primaryKey.map (renamedOr renames) ≠ tgt.primaryKey then
    [s!"table {tgt.name} changes its primary key; it needs a new table"] else [])

end Columns

section Plan
variable (source : Option Document) (p : Plan)

def tableRenameError (r : TableRename) : Option String :=
  if (sourceTable source r.old).isNone then
    some s!"rename table {r.old}: the source has no table {r.old}"
  else if (sourceTable source r.new).isSome then
    some s!"rename table {r.old}: the source already has a table {r.new}"
  else if (p.schema.table r.new).isNone then
    some s!"rename table {r.old}: the target has no table {r.new}"
  else none

def tableRenames : List TableRename :=
  (sortedEntries TableRename.old p.renameTables).filter fun r =>
    (tableRenameError source p r).isNone

/-- The source tables in name order. -/
def sourceTables : List Table := sortedEntries Table.name ((source.map Document.tables).getD [])

/-- The new name of a source table. -/
def targetName (t : Table) : String :=
  renamedOr ((tableRenames source p).map fun r => (r.old, r.new)) t.name

/-- The source table of a target table; the last of two with one new name. -/
def matchedSource (t : Table) : Option Table :=
  ((sourceTables source).filter fun s => targetName source p s = t.name).getLast?

def droppedTables : List Table :=
  (sourceTables source).filter fun s => (p.schema.table (targetName source p s)).isNone

/-- The target tables in name order with their source tables. -/
def targetTables : List (Table × Option Table) :=
  (sortedEntries Table.name p.schema.tables).map fun t => (t, matchedSource source p t)

def columnRenameError (r : ColumnRename) : Option String :=
  let head := s!"rename column {r.table}.{r.old}"
  match p.schema.table r.table, (p.schema.table r.table).bind (matchedSource source p) with
  | some tgt, some src =>
    if (src.column r.old).isNone then some s!"{head}: the source table has no column {r.old}"
    else if (src.column r.new).isSome then
      some s!"{head}: the source table already has a column {r.new}"
    else if (tgt.column r.new).isNone then
      some s!"{head}: the target table has no column {r.new}"
    else none
  | _, _ => some s!"{head}: {r.table} is not a table of both schemas"

def columnRenames : List ColumnRename :=
  (sortedEntries (fun r : ColumnRename => r.table ++ "." ++ r.old) p.renameColumns).filter fun r =>
    (columnRenameError source p r).isNone

/-- The pairs of source and target table. -/
def matchedTables : List (Table × Table) :=
  (targetTables source p).filterMap fun x => x.2.map fun src => (src, x.1)

/-- The names and the altered columns of the whole plan. -/
def planRenames : Renames :=
  let tables := (tableRenames source p).map fun r => (r.old, r.new)
  let columns := columnRenames source p
  let n : Renames := ⟨tables, columns, []⟩
  { n with altered := (matchedTables source p).flatMap fun x =>
      (alteredColumns x.1 x.2 (n.columnsOf x.2.name)).map fun c => (x.2.name, c) }

/-- The changes that the plan cannot make, and the permissions that it lacks or does not use. -/
def planErrors : List String :=
  let n := planRenames source p
  let dropped := (droppedTables source p).map Table.name
  let removed := (matchedTables source p).flatMap fun x =>
    (removedColumns x.1 x.2 (n.columnsOf x.2.name)).map fun c => (⟨x.1.name, c⟩ : ColumnName)
  (sortedEntries TableRename.old p.renameTables).filterMap (tableRenameError source p) ++
  (p.dropTables.filter (· ∉ dropped)).map (fun t => s!"allow drop table {t} drops nothing") ++
  (dropped.filter (· ∉ p.dropTables)).map (fun t =>
    s!"table {t} is dropped without allow drop table {t}") ++
  (sortedEntries (fun r : ColumnRename => r.table ++ "." ++ r.old) p.renameColumns).filterMap
    (columnRenameError source p) ++
  (matchedTables source p).flatMap (fun x =>
    columnErrors p x.1 x.2 (n.columnsOf x.2.name) ++ orderErrors x.1 x.2 (n.columnsOf x.2.name)) ++
  (p.dropColumns.filter (· ∉ removed)).map fun c =>
    s!"allow drop column {c.table}.{c.name} drops nothing"

/-- A matched table with its changes. -/
def matchOf (R : Renderer) (src tgt : Table) : Match :=
  let n := planRenames source p
  let renames := n.columnsOf tgt.name
  { source := src, target := tgt, columnOf := columnPairs src tgt renames
    added := (addedColumns src tgt renames).map Column.name
    removed := removedColumns src tgt renames
    altered := alteredColumns src tgt renames
    renamed := n.columns.filter (·.table = tgt.name)
    dropObjects := dropObjects n src tgt, addObjects := addObjects n src tgt
    triggers := diffTriggers src tgt R }

/-- Compares the source schema with the target of the plan, or lists why the plan cannot run. -/
def planDiff (R : Renderer) : Except (List String) Diff :=
  if source.map Document.schemaHash ≠ p.from_ then
    let source := hashOrEmpty (source.map Document.schemaHash)
    .error [s!"the plan starts from {hashOrEmpty p.from_}, and the source schema is {source}"]
  else if planErrors source p ≠ [] then .error (planErrors source p)
  else .ok {
    created := (targetTables source p).filterMap fun x => if x.2.isNone then some x.1 else none
    dropped := droppedTables source p
    matched := (matchedTables source p).map fun x => matchOf source p R x.1 x.2
    renamedTables := tableRenames source p
    renamedColumns := columnRenames source p }

end Plan

end Orm.Dbspec
