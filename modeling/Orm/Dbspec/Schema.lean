import Orm.Engine.Model

/-! Parsed schema documents and the plans that change one into the next. -/
namespace Orm.Dbspec

open Orm.Engine (sortedEntries)

inductive ColumnType where
  | i16 | i32 | i64 | bool | f64 | text | bytes | uuid | date
  | decimal (precision scale : Nat)
  | varchar (length : Nat)
  | time (precision : Nat)
  | datetime (precision : Nat)
  deriving DecidableEq, Repr

def ColumnType.typeText : ColumnType → String
  | .i16 => "i16" | .i32 => "i32" | .i64 => "i64" | .bool => "bool" | .f64 => "f64"
  | .text => "text" | .bytes => "bytes" | .uuid => "uuid" | .date => "date"
  | .decimal precision scale => s!"decimal({precision},{scale})"
  | .varchar length => s!"varchar({length})"
  | .time precision => s!"time({precision})"
  | .datetime precision => s!"datetime({precision})"

inductive Default where
  | now
  | literal (text : String)
  deriving DecidableEq, Repr

inductive Action where
  | restrict | cascade | setNull
  deriving DecidableEq, Repr

def Action.text : Action → String
  | .restrict => "restrict" | .cascade => "cascade" | .setNull => "set_null"

structure Column where
  name : String
  type : ColumnType
  nullable : Bool
  identity : Bool
  default : Option Default
  deriving DecidableEq, Repr

structure Unique where
  name : String
  columns : List String
  deriving DecidableEq, Repr

structure IndexColumn where
  name : String
  descending : Bool
  deriving DecidableEq, Repr

structure Index where
  name : String
  columns : List IndexColumn
  deriving DecidableEq, Repr

structure ForeignKey where
  name : String
  columns : List String
  table : String
  references : List String
  onDelete : Action
  onUpdate : Action
  deriving DecidableEq, Repr

inductive CheckOperand where
  | column (name : String)
  | literal (text : String)
  deriving DecidableEq, Repr

inductive LogicalOp where
  | and | or
  deriving DecidableEq, Repr

inductive CheckExpr where
  | logical (op : LogicalOp) (left right : CheckExpr)
  | compare (op : String) (left right : CheckOperand)
  | in_ (operand : CheckOperand) (negated : Bool) (list : List String)
  | isNull (operand : CheckOperand) (negated : Bool)
  deriving DecidableEq, Repr

/-- A check; its canonical text is kept as the tree that `readCheck` reads. -/
structure Check where
  name : String
  expression : CheckExpr
  deriving DecidableEq, Repr

/-- The settings that render triggers; the planner reads no other. -/
inductive Setting where
  | immutable
  | audit (into column references action previous : String) (tables exclude include_ : List String)
  deriving DecidableEq, Repr

structure Table where
  name : String
  columns : List Column
  primaryKey : List String
  uniques : List Unique
  indexes : List Index
  foreignKeys : List ForeignKey
  checks : List Check
  settings : List Setting
  deriving DecidableEq, Repr

/-- A schema text with the hash that its manifest has. -/
structure Document where
  tables : List Table
  schemaHash : String
  deriving DecidableEq, Repr

structure TableRename where
  old : String
  new : String
  deriving DecidableEq, Repr

/-- The table is named as in the target. -/
structure ColumnRename where
  table : String
  old : String
  new : String
  deriving DecidableEq, Repr

structure ColumnName where
  table : String
  name : String
  deriving DecidableEq, Repr

/-- A plan document; `from_` is none for a plan that starts from an empty database. -/
structure Plan where
  name : String
  from_ : Option String
  renameTables : List TableRename
  renameColumns : List ColumnRename
  dropTables : List String
  dropColumns : List ColumnName
  schema : Document
  deriving DecidableEq, Repr

def Plan.to (p : Plan) : String := p.schema.schemaHash

def Table.column (t : Table) (name : String) : Option Column := t.columns.find? (·.name = name)

def Document.table (d : Document) (name : String) : Option Table := d.tables.find? (·.name = name)

/-- The tables of a plan's source; the empty database has none. -/
def sourceTable (source : Option Document) (name : String) : Option Table :=
  source.bind (·.table name)

/-- The names in code unit order. -/
def sortedNames (names : List String) : List String := sortedEntries id names

def hasTriggers (t : Table) : Bool := !t.settings.isEmpty

end Orm.Dbspec
