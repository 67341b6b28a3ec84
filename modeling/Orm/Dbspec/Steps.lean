import Orm.Dbspec.Diff

/-! The steps of a plan in one dialect. -/
namespace Orm.Dbspec

open Orm.Engine (Dialect sortedEntries)

inductive EffectKind where
  | table | column | index | constraint | trigger | function | sequence | rows | repeat
  deriving DecidableEq, Repr

/-- How the statement of a step shows that it took effect; `present` is the state after it. -/
structure Effect where
  kind : EffectKind
  table : String
  name : String
  present : Bool
  deriving DecidableEq, Repr

/-- The value that a copy writes: a column, with zero fraction digits appended. -/
structure CopyValue where
  column : String
  pad : String
  deriving DecidableEq, Repr

/-- The definition of an object of a table. -/
inductive ObjectDef where
  | unique (u : Unique)
  | index (x : Index)
  | foreignKey (f : ForeignKey)
  | check (k : Check)
  | rendererCheck (name : String) (k : TypeCheck)
  deriving DecidableEq, Repr

/-- A statement of a step. -/
inductive Statement where
  | renameTable (old new : String)
  | renameColumn (table old new : String)
  /-- the definition under another name, its renderer CHECKs and the hidden columns -/
  | createTable (name : String) (t : Table) (checks : List (String × TypeCheck))
    (hidden : List Column)
  | dropTable (name : String)
  | addColumn (table : String) (c : Column)
  | dropColumn (table name : String)
  | modifyColumn (table : String) (c : Column)
  | alterType (table column : String) (type : ColumnType)
  | setNotNull (table column : String)
  | dropNotNull (table column : String)
  | setDefault (table column : String) (type : ColumnType) (value : Default)
  | dropDefault (table column : String)
  | addObject (table : String) (o : ObjectDef)
  | dropObject (table : String) (kind : ObjectKind) (name : String)
  | createTrigger (table : String) (part : TriggerPart)
  | dropTrigger (table name : String)
  | createFunction (part : TriggerPart)
  | dropFunction (name : String)
  /-- `INSERT INTO into (columns) SELECT values FROM from_` -/
  | insertSelect (into : String) (columns : List (String × CopyValue)) (from_ : String)
  | deleteRows (table : String)
  /-- gives the key counter of `from_` to `name` -/
  | copySequence (name from_ : String)
  | deleteSequence (name : String)
  deriving DecidableEq, Repr

/-- A column that a rollback makes non-null again, by its name in the applied plan, with its
source default. -/
structure NullCheck where
  table : String
  column : String
  default : Option (ColumnType × Default)
  deriving DecidableEq, Repr

/-- One step: its statement, its rollback or the reason why it has none, its effect, the restore
statements that replace them when `restoreIf` holds, and the null checks of its rollback. -/
structure Step (S : Type) where
  statement : S
  rollback : Option S
  irreversible : String
  effect : Effect
  restore : Option S
  rollbackRestore : Option S
  restoreIf : Option Effect
  nullChecks : List NullCheck
  finalize : Bool
  deriving Repr

/-- A step with the optional parts empty. -/
def step (statement : Statement) (rollback : Option Statement) (effect : Effect) :
    Step Statement :=
  ⟨statement, rollback, "", effect, none, none, none, [], false⟩

def present (kind : EffectKind) (table name : String) : Effect := ⟨kind, table, name, true⟩

def absent (kind : EffectKind) (table name : String) : Effect := ⟨kind, table, name, false⟩

def repeatEffect : Effect := ⟨.repeat, "", "", true⟩

def irreversiblePrecision : String :=
  "narrowing the precision rounds the values written since"

/-- The work table of a SQLite rebuild. -/
def rebuildTable : String := "dbspec$rebuild"

/-- Whether the precision of a time or datetime grows; two kinds compare by their precisions. -/
def precisionGrows : ColumnType → ColumnType → Bool
  | .time p, .time q | .time p, .datetime q | .datetime p, .time q | .datetime p, .datetime q => p < q
  | _, _ => false

/-- What a plan holds under a holding name: a removed column by its source names, a dropped table,
or an added column by its target names. -/
inductive HoldKey where
  | removed (table column : String)
  | dropped (table : String)
  | added (table column : String)
  deriving DecidableEq, Repr

/-- The held columns and tables in the order of their numbers. -/
def holdKeys (d : Diff) : List HoldKey :=
  d.matched.flatMap (fun m => m.removed.map (.removed m.source.name)) ++
  d.dropped.map (fun t => .dropped t.name) ++
  d.matched.flatMap fun m => m.added.map (.added m.name)

/-- The beginning of the holding names of a plan, from its target hash without its scheme. -/
def holdPrefix (hash : String) : String :=
  "dbspec$hold$" ++ String.ofList ((hash.toList.drop "sha256:".length).take 12) ++ "$"

/-- The holding name with a number from 1. -/
def holdName (holds : String) (n : Nat) : String := holds ++ toString n

/-- What writes the steps of a diff: the renderer, the dialect, the diff and the beginning of its
holding names. -/
structure PlanWriter where
  r : Renderer
  dialect : Dialect
  d : Diff
  holds : String

namespace PlanWriter
variable (w : PlanWriter)

def sqlite : Bool := w.dialect = .sqlite

/-- The holding name of a column or table. -/
def hold (key : HoldKey) : String := holdName w.holds ((holdKeys w.d).idxOf key + 1)

/-- Whether SQLite rebuilds the table: its name, a column, a foreign key or a check changes. -/
def sqliteRebuilds (m : Match) : Bool :=
  let structural (o : ObjectRef) : Bool := o.kind = .foreignKey || o.kind = .check
  m.source.name ≠ m.name || m.added ≠ [] || m.removed ≠ [] || m.altered ≠ [] || m.renamed ≠ [] ||
    m.dropObjects.any structural || m.addObjects.any structural

def rebuilt (m : Match) : Bool := w.sqlite && sqliteRebuilds m

/-- The effect kind of an object. -/
def effectKind : ObjectKind → EffectKind
  | .unique => if w.dialect = .postgres then .constraint else .index
  | .index => .index
  | .check | .foreignKey => .constraint

/-- The definition of an object of a table. -/
def objectDef (t : Table) (o : ObjectRef) : Option ObjectDef :=
  match o.kind with
  | .unique => (t.uniques.find? (·.name = o.name)).map .unique
  | .index => (t.indexes.find? (·.name = o.name)).map .index
  | .foreignKey => (t.foreignKeys.find? (·.name = o.name)).map .foreignKey
  | .check => (t.checks.find? (·.name = o.name)).map .check

/-- Drops an object of a source table; the rollback creates it from the source definition. -/
def dropObject (t : Table) (o : ObjectRef) : List (Step Statement) :=
  (objectDef t o).toList.map fun o' =>
    step (.dropObject t.name o.kind o.name) (some (.addObject t.name o'))
      (absent (w.effectKind o.kind) t.name o.name)

def addObject (t : Table) (o : ObjectRef) : List (Step Statement) :=
  (objectDef t o).toList.map fun o' =>
    step (.addObject t.name o') (some (.dropObject t.name o.kind o.name))
      (present (w.effectKind o.kind) t.name o.name)

def dropTriggers (t : Table) : List (Step Statement) :=
  (w.r.triggers w.dialect t).flatMap fun p =>
    step (.dropTrigger t.name p.name) (some (.createTrigger t.name p))
      (absent .trigger t.name p.name) ::
    if w.dialect = .postgres then
      [step (.dropFunction p.name) (some (.createFunction p)) (absent .function "" p.name)] else []

def createTriggers (t : Table) : List (Step Statement) :=
  (w.r.triggers w.dialect t).flatMap fun p =>
    (if w.dialect = .postgres then
      [step (.createFunction p) (some (.dropFunction p.name)) (present .function "" p.name)]
    else []) ++
    [step (.createTrigger t.name p) (some (.dropTrigger t.name p.name))
      (present .trigger t.name p.name)]

/-- The renderer CHECKs of a definition under the names that `name` gives its columns. -/
def checksOf (t : Table) (name : String → String) : List (String × TypeCheck) :=
  t.columns.filterMap fun c => (typeCheck w.dialect c).map fun k => (name c.name, k)

/-- The renderer CHECKs of a table by the names that the steps use. -/
def rendererChecks (t : Table) : List (String × TypeCheck) :=
  w.checksOf t fun c => t.name ++ "$" ++ c

/-- The checks of one table that another lacks or has with another condition, in name order. -/
def changedChecks (own other : List (String × TypeCheck)) : List (String × TypeCheck) :=
  sortedEntries Prod.fst (own.filter fun k => other.lookup k.1 ≠ some k.2)

def dropRendererCheck (table : String) (k : String × TypeCheck) : Step Statement :=
  step (.dropObject table .check k.1) (some (.addObject table (.rendererCheck k.1 k.2)))
    (absent .constraint table k.1)

def addRendererCheck (table : String) (k : String × TypeCheck) : Step Statement :=
  step (.addObject table (.rendererCheck k.1 k.2)) (some (.dropObject table .check k.1))
    (present .constraint table k.1)

/-- The unique keys, which are indexes on SQLite, and the indexes of a table. -/
def indexes (t : Table) : List ObjectRef :=
  (if w.sqlite then (sortedEntries Unique.name t.uniques).map fun u => ⟨.unique, u.name⟩ else []) ++
    (sortedEntries Index.name t.indexes).map fun x => ⟨.index, x.name⟩

def createIndexes (t : Table) : List (Step Statement) := (w.indexes t).flatMap (w.addObject t)

/-- The null check of the rollback that makes the source column non-null again. -/
def nullCheck (table column : String) (c : Column) : NullCheck :=
  ⟨table, column, c.default.map fun v => (c.type, v)⟩

def renameTableStep (old new : String) : Step Statement :=
  step (.renameTable old new) (some (.renameTable new old)) (present .table new "")

def renameColumnStep (table old new : String) : Step Statement :=
  step (.renameColumn table old new) (some (.renameColumn table new old))
    (present .column table new)

/-- Makes a removed column nullable. -/
def loosenColumn (table : String) (c : Column) (h : String) : Step Statement :=
  { step (if w.dialect = .mysql then .modifyColumn table { c with nullable := true }
        else .dropNotNull table c.name)
      (some (if w.dialect = .mysql then .modifyColumn table c else .setNotNull table c.name))
      repeatEffect with
    nullChecks := [nullCheck table h c] }

/-- Makes a removed column nullable and hides it under its holding name. -/
def hideColumn (table : String) (c : Column) (h : String) : List (Step Statement) :=
  (if c.nullable then [] else [w.loosenColumn table c h]) ++ [renameColumnStep table c.name h]

/-- Adds a column; the rollback hides it, and a hidden one is restored. -/
def addColumn (table : String) (c : Column) (h : String) : Step Statement :=
  { step (.addColumn table c) (some (.renameColumn table c.name h))
      (present .column table c.name) with
    restore := some (.renameColumn table h c.name)
    restoreIf := some (present .column table h) }

/-- The target name of a source column of a matched table. -/
def targetColumn (m : Match) (c : String) : String :=
  ((m.columnOf.find? (·.2 = c)).map Prod.fst).getD c

/-- The source name of a column of the old definition; a removed column keeps its name. -/
def oldColumn (m : Match) (c : String) : String := renamedOr m.columnOf c

def renameOperand (f : String → String) : CheckOperand → CheckOperand
  | .column name => .column (f name)
  | .literal text => .literal text

def renameCheck (f : String → String) : CheckExpr → CheckExpr
  | .logical op left right => .logical op (renameCheck f left) (renameCheck f right)
  | .compare op left right => .compare op (renameOperand f left) (renameOperand f right)
  | .in_ operand negated list => .in_ (renameOperand f operand) negated list
  | .isNull operand negated => .isNull (renameOperand f operand) negated

/-- The source table under its target name, with the renames applied. A foreign key to a dropped
table keeps its names. -/
def renamedSource (m : Match) : Table :=
  let col := targetColumn m
  let parent (name : String) : Option Match := w.d.matched.find? (·.source.name = name)
  { m.source with
    name := m.name
    columns := m.source.columns.map fun c => { c with name := col c.name }
    primaryKey := m.source.primaryKey.map col
    uniques := m.source.uniques.map fun u => { u with columns := u.columns.map col }
    indexes := m.source.indexes.map fun x =>
      { x with columns := x.columns.map fun c => { c with name := col c.name } }
    foreignKeys := m.source.foreignKeys.map fun f =>
      { f with
        columns := f.columns.map col
        table := ((parent f.table).map Match.name).getD f.table
        references := f.references.map fun c => ((parent f.table).map (targetColumn · c)).getD c }
    checks := m.source.checks.map fun k => { k with expression := renameCheck col k.expression } }

/-- The zero fraction digits that a time or datetime of a greater precision has more. -/
def zeroDigits : ColumnType → ColumnType → String
  | .time p, .time q | .time p, .datetime q | .datetime p, .time q | .datetime p, .datetime q =>
    if p < q then (if p = 0 then "." else "") ++ String.ofList (List.replicate (q - p) '0') else ""
  | _, _ => ""

/-- The value that a rebuild copies into a target column. -/
def copyValue (old new : Column) : CopyValue := ⟨new.name, zeroDigits old.type new.type⟩

/-- The removed columns under their holding names. -/
def hiddenDropped (m : Match) : List Column :=
  m.removed.filterMap fun c => (m.source.column c).map fun s =>
    { s with name := w.hold (.removed m.source.name c) }

/-- The added columns under their holding names. -/
def hiddenAdded (m : Match) : List Column :=
  m.added.filterMap fun c => (m.target.column c).map fun t =>
    { t with name := w.hold (.added m.name c) }

/-- The new definition: the target with the removed columns under their holding names. -/
def newCreate (m : Match) (name : String) : Statement :=
  .createTable name m.target (w.checksOf m.target (w.r.rendererName m.name)) (w.hiddenDropped m)

/-- The old definition: the renamed source with the added columns under their holding names. -/
def oldCreate (m : Match) : Statement :=
  let old := w.renamedSource m
  .createTable m.name old
    (w.checksOf old fun c => w.r.rendererName m.source.name (oldColumn m c)) (w.hiddenAdded m)

/-- The columns that a rebuild moves into the new definition; the added ones only when they are
restored. -/
def copyIn (m : Match) (restore : Bool) : List (String × CopyValue) :=
  m.target.columns.filterMap (fun c =>
    match (mapGet m.columnOf c.name).bind m.source.column with
    | some s => some (c.name, copyValue s c)
    | none => if restore then some (c.name, ⟨w.hold (.added m.name c.name), ""⟩) else none) ++
  m.removed.map fun c => (w.hold (.removed m.source.name c), ⟨c, ""⟩)

/-- Whether a column of the old definition is in the target. -/
def stays (m : Match) (c : Column) : Option Column :=
  if oldColumn m c.name ∈ m.removed then none else m.target.column c.name

/-- The columns that the rollback of a rebuild moves back. -/
def copyBack (m : Match) (restore : Bool) : List (String × CopyValue) :=
  (w.renamedSource m).columns.map (fun c => match stays m c with
    | some _ => (c.name, ⟨c.name, ""⟩)
    | none => (c.name, ⟨w.hold (.removed m.source.name (oldColumn m c.name)), ""⟩)) ++
  if restore then m.added.map fun c => (w.hold (.added m.name c), ⟨c, ""⟩) else []

/-- The null checks of the rollback of a rebuild. -/
def rebuildChecks (m : Match) : List NullCheck :=
  (w.renamedSource m).columns.filterMap fun c => match stays m c with
    | some t => if !c.nullable && t.nullable then some (nullCheck m.name c.name c) else none
    | none =>
      let h := w.hold (.removed m.source.name (oldColumn m c.name))
      if c.nullable then none else some (nullCheck m.name h c)

/-- Whether a rebuild widens the precision of a column. -/
def rebuildIrreversible (m : Match) : Bool :=
  (w.renamedSource m).columns.any fun c => (stays m c).any fun t => precisionGrows c.type t.type

/-- The columns of the new definition, each as it is. -/
def newList (m : Match) : List (String × CopyValue) :=
  (m.target.columns ++ w.hiddenDropped m).map fun c => (c.name, ⟨c.name, ""⟩)

/-- The steps that only a table with an identity column has: its key counter moves along. -/
def whenIdentity (m : Match) (s : Step Statement) : List (Step Statement) :=
  if m.target.columns.any (·.identity) then [s] else []

/-- Gives the key counter of a table to another. -/
def sequence (name from_ : String) : Step Statement :=
  step (.copySequence name from_) (some (.deleteSequence name)) (present .sequence name "")

/-- Takes the key counter of a table away; the rollback gets it back from another. -/
def unsequence (name from_ : String) : Step Statement :=
  step (.deleteSequence name) (some (.copySequence name from_)) (absent .sequence name "")

/-- The old table has the first of the hidden added columns. -/
def restoreIf (m : Match) : Option Effect :=
  (w.hiddenAdded m).head?.map fun c => present .column m.name c.name

/-- Copies the rows of the old table into the work table. -/
def copyRows (m : Match) : Step Statement :=
  { step (.insertSelect rebuildTable (w.copyIn m false) m.name) (some (.deleteRows rebuildTable))
      (present .rows rebuildTable "") with
    restore := (w.restoreIf m).map fun _ =>
      .insertSelect rebuildTable (w.copyIn m true) m.name
    restoreIf := w.restoreIf m }

/-- Empties the old table; the rollback copies the rows back. -/
def emptyRows (m : Match) : Step Statement :=
  let s := step (.deleteRows m.name) none (absent .rows m.name "")
  if w.rebuildIrreversible m then
    { s with irreversible := irreversiblePrecision, nullChecks := w.rebuildChecks m }
  else
    { s with
      rollback := some (.insertSelect m.name (w.copyBack m false) rebuildTable)
      rollbackRestore := (w.restoreIf m).map fun _ =>
        .insertSelect m.name (w.copyBack m true) rebuildTable
      restoreIf := w.restoreIf m
      nullChecks := w.rebuildChecks m }

/-- Rebuilds a SQLite table through a work table. -/
def rebuild (m : Match) : List (Step Statement) :=
  [step (w.newCreate m rebuildTable) (some (.dropTable rebuildTable))
    (present .table rebuildTable "")] ++
  whenIdentity m (sequence rebuildTable m.name) ++
  [w.copyRows m] ++
  (w.indexes (w.renamedSource m)).flatMap (w.dropObject (w.renamedSource m)) ++
  [w.emptyRows m] ++
  whenIdentity m (unsequence m.name rebuildTable) ++
  [step (.dropTable m.name) (some (w.oldCreate m)) (absent .table m.name ""),
    step (w.newCreate m m.name) (some (.dropTable m.name)) (present .table m.name "")] ++
  whenIdentity m (sequence m.name rebuildTable) ++
  [step (.insertSelect m.name (w.newList m) rebuildTable) (some (.deleteRows m.name))
      (present .rows m.name ""),
    step (.deleteRows rebuildTable) (some (.insertSelect rebuildTable (w.newList m) m.name))
      (absent .rows rebuildTable "")] ++
  whenIdentity m (unsequence rebuildTable m.name) ++
  [step (.dropTable rebuildTable) (some (w.newCreate m rebuildTable))
    (absent .table rebuildTable "")] ++
  w.createIndexes m.target

/-- Changes the default of a column on PostgreSQL. -/
def defaultStatement (table : String) (c : Column) (value : Option Default) : Statement :=
  match value with
  | none => .dropDefault table c.name
  | some v => .setDefault table c.name c.type v

/-- Why a change of a column has no rollback. -/
def alterIrreversible (old new : Column) : String :=
  if precisionGrows old.type new.type then irreversiblePrecision else ""

/-- The rollback of a change of a column that has one. -/
def alterBack (old new : Column) (s : Statement) : Option Statement :=
  if alterIrreversible old new = "" then some s else none

/-- The null check of the rollback that makes a column non-null again. -/
def alterChecks (table : String) (old new : Column) : List NullCheck :=
  if !old.nullable && new.nullable then
    [nullCheck table new.name { old with name := new.name }] else []

/-- Changes a column on MySQL. -/
def modifySteps (table : String) (old new : Column) : List (Step Statement) :=
  [{ step (.modifyColumn table new)
      (alterBack old new (.modifyColumn table { old with name := new.name })) repeatEffect with
    irreversible := alterIrreversible old new, nullChecks := alterChecks table old new }]

/-- Changes the type of a column on PostgreSQL. -/
def typeSteps (table : String) (old new : Column) : List (Step Statement) :=
  if old.type = new.type then [] else
    [{ step (.alterType table new.name new.type)
        (alterBack old new (.alterType table new.name old.type)) repeatEffect with
      irreversible := alterIrreversible old new }]

/-- Changes the nullability of a column on PostgreSQL. -/
def nullSteps (table : String) (old new : Column) : List (Step Statement) :=
  if old.nullable = new.nullable then []
  else if new.nullable then
    [{ step (.dropNotNull table new.name) (some (.setNotNull table new.name)) repeatEffect with
      nullChecks := alterChecks table old new }]
  else [step (.setNotNull table new.name) (some (.dropNotNull table new.name)) repeatEffect]

/-- Changes the default of a column on PostgreSQL, and writes it again for another type. -/
def defaultSteps (table : String) (old new : Column) : List (Step Statement) :=
  if old.default ≠ new.default ∨ (new.default.isSome ∧ old.type ≠ new.type) then
    [step (defaultStatement table new new.default)
      (some (defaultStatement table { old with name := new.name } old.default)) repeatEffect]
  else []

/-- Changes the type, the nullability and the default of a column that stays. -/
def alterColumn (table : String) (old new : Column) : List (Step Statement) :=
  if w.dialect = .mysql then modifySteps table old new
  else typeSteps table old new ++ nullSteps table old new ++ defaultSteps table old new

section Groups

/-- The drop objects of the source tables, matched or dropped, in name order. -/
def dropsBySource : List (Table × List ObjectRef) :=
  sortedEntries (fun x => x.1.name)
    (w.d.matched.map (fun m => (m.source, m.dropObjects)) ++
    w.d.dropped.map fun t =>
      (t, sortedRefs (t.foreignKeys.map fun f => ⟨.foreignKey, f.name⟩)))

/-- The triggers of the tables whose triggers change, that are rebuilt or that are dropped. -/
def dropTriggersGroup : List (Step Statement) :=
  w.d.matched.flatMap (fun m =>
    if hasTriggers m.source && (m.triggers || w.rebuilt m) then w.dropTriggers m.source else []) ++
  w.d.dropped.flatMap fun t => if hasTriggers t then w.dropTriggers t else []

def dropForeignKeysGroup : List (Step Statement) :=
  if w.sqlite then [] else
    w.dropsBySource.flatMap fun x =>
      (x.2.filter (·.kind = .foreignKey)).flatMap (w.dropObject x.1)

/-- Whether an object has statements of its own; a foreign key has them elsewhere, and a check of
SQLite is part of its table. -/
def standsAlone (o : ObjectRef) : Bool := o.kind ≠ .foreignKey && !(w.sqlite && o.kind = .check)

/-- All keys, indexes and checks of a dropped table. -/
def droppedObjects (t : Table) : List ObjectRef :=
  t.uniques.map (fun u => ⟨.unique, u.name⟩) ++ t.indexes.map (fun x => ⟨.index, x.name⟩) ++
    if w.sqlite then [] else t.checks.map fun k => ⟨.check, k.name⟩

/-- The keys, indexes and checks that go, by source table in name order. -/
def looseObjects : List (Table × List ObjectRef) :=
  sortedEntries (fun x => x.1.name)
    ((w.d.matched.filter fun m => !w.rebuilt m).map (fun m =>
      (m.source, sortedRefs (m.dropObjects.filter w.standsAlone))) ++
    w.d.dropped.map fun t => (t, sortedRefs (w.droppedObjects t)))

def dropObjectsGroup : List (Step Statement) :=
  w.looseObjects.flatMap fun x => x.2.flatMap (w.dropObject x.1)

def dropRendererChecksGroup : List (Step Statement) :=
  if w.sqlite then [] else
    w.d.matched.flatMap (fun m =>
      (changedChecks (w.rendererChecks m.source) (w.rendererChecks m.target)).map
        (dropRendererCheck m.source.name)) ++
    w.d.dropped.flatMap fun t =>
      (sortedEntries Prod.fst (w.rendererChecks t)).map (dropRendererCheck t.name)

def renameGroup : List (Step Statement) :=
  (sortedEntries TableRename.old w.d.renamedTables).map (fun r => renameTableStep r.old r.new) ++
  (sortedEntries (fun r : ColumnRename => r.table ++ "." ++ r.old) w.d.renamedColumns).map fun r =>
    renameColumnStep r.table r.old r.new

/-- Hides the removed columns of a table; a SQLite rebuild hides its own. -/
def hideColumns (m : Match) : List (Step Statement) :=
  m.removed.flatMap fun c => (m.source.column c).toList.flatMap fun s =>
    w.hideColumn m.name s (w.hold (.removed m.source.name c))

def hideGroup : List (Step Statement) :=
  (if w.sqlite then [] else w.d.matched.flatMap w.hideColumns) ++
  w.d.dropped.map fun t => renameTableStep t.name (w.hold (.dropped t.name))

def createTable (t : Table) : Step Statement :=
  step (.createTable t.name t (w.checksOf t (w.r.rendererName t.name)) [])
    (some (.dropTable t.name)) (present .table t.name "")

def createGroup : List (Step Statement) :=
  w.d.created.flatMap fun t => w.createTable t :: w.createIndexes t

def addColumns (m : Match) : List (Step Statement) :=
  m.added.flatMap fun c => (m.target.column c).toList.map fun t =>
    addColumn m.name t (w.hold (.added m.name c))

def alterColumns (m : Match) : List (Step Statement) :=
  m.altered.flatMap fun c => match (mapGet m.columnOf c).bind m.source.column, m.target.column c with
    | some s, some t => w.alterColumn m.name s t
    | _, _ => []

def columnGroup : List (Step Statement) :=
  w.d.matched.flatMap fun m =>
    if w.sqlite then if w.rebuilt m then w.rebuild m else []
    else w.addColumns m ++ w.alterColumns m

def addObjectsGroup : List (Step Statement) :=
  w.d.matched.flatMap (fun m => if w.rebuilt m then [] else
    (m.addObjects.filter w.standsAlone).flatMap (w.addObject m.target)) ++
  if w.sqlite then [] else
    w.d.matched.flatMap fun m =>
      (changedChecks (w.rendererChecks m.target) (w.rendererChecks m.source)).map
        (addRendererCheck m.name)

def addForeignKeysGroup : List (Step Statement) :=
  if w.sqlite then [] else
    w.d.created.flatMap (fun t => (sortedEntries ForeignKey.name t.foreignKeys).flatMap fun f =>
      w.addObject t ⟨.foreignKey, f.name⟩) ++
    w.d.matched.flatMap fun m =>
      (m.addObjects.filter (·.kind = .foreignKey)).flatMap (w.addObject m.target)

def createTriggersGroup : List (Step Statement) :=
  w.d.created.flatMap w.createTriggers ++
  w.d.matched.flatMap fun m =>
    if hasTriggers m.target && (m.triggers || w.rebuilt m) then w.createTriggers m.target else []

/-- A step without a rollback that runs when the plan is finalized. -/
def finalizeStep (statement : Statement) (effect : Effect) : Step Statement :=
  { step statement none effect with finalize := true }

/-- Drops what the plan holds. -/
def finalizeGroup : List (Step Statement) :=
  w.d.matched.flatMap (fun m => m.removed.map fun c =>
    let h := w.hold (.removed m.source.name c)
    finalizeStep (.dropColumn m.name h) (absent .column m.name h)) ++
  w.d.dropped.map fun t =>
    let h := w.hold (.dropped t.name)
    finalizeStep (.dropTable h) (absent .table h "")

/-- The steps of a plan before its finalize steps. -/
def forwardSteps : List (Step Statement) :=
  w.dropTriggersGroup ++ w.dropForeignKeysGroup ++ w.dropObjectsGroup ++
  w.dropRendererChecksGroup ++ w.renameGroup ++ w.hideGroup ++ w.createGroup ++ w.columnGroup ++
  w.addObjectsGroup ++ w.addForeignKeysGroup ++ w.createTriggersGroup

def steps : List (Step Statement) := w.forwardSteps ++ w.finalizeGroup

end Groups

end PlanWriter

/-- Writes the steps of a plan in one dialect. -/
def planSteps (R : Renderer) (source : Option Document) (p : Plan) (dialect : Dialect) :
    Except (List String) (List (Step Statement)) :=
  (planDiff source p R).map fun d => PlanWriter.steps ⟨R, dialect, d, holdPrefix p.to⟩

end Orm.Dbspec
