import Orm.Engine.Dialect

/-! The scopes of a statement and the builder that collects its bind slots. -/
namespace Orm.Engine

open Orm.Sql (Tok Text)

/-- One entity place of a statement: its root or a join. Joins are made from the query on
demand, so a scope holds the query and not a table of joins. -/
structure Scope where
  aliasName : String
  q : Query
  parent : Option Scope
  /-- The scope around a subquery root, which a `^` reference names. -/
  outer : Option Scope
  /-- Columns that a relation step needs selected. -/
  extra : List String

/-- The scope of the join `j` of `s`: a join of the root takes its own name as alias, any
other one its parent's alias before it. -/
def joinScope (s : Scope) (j : Join) : Scope where
  aliasName := if s.parent.isSome || s.aliasName ≠ "a" then s.aliasName ++ "__" ++ j.rel else j.rel
  q := j.query
  parent := some s
  outer := none
  extra := []

def rootScope (q : Query) (aliasName : String) : Scope := ⟨aliasName, q, none, none, []⟩

/-- The root of the statement that `s` is a place of. -/
def Scope.root : Scope → Scope
  | ⟨aliasName, q, none, outer, extra⟩ => ⟨aliasName, q, none, outer, extra⟩
  | ⟨_, _, some parent, _, _⟩ => parent.root

/-- The join of a name; a map of the source keeps the last one. -/
def joinNamed : List Join → String → Option Join
  | [], _ => none
  | j :: joins, rel => match joinNamed joins rel with
    | some found => some found
    | none => if j.rel = rel then some j else none

def fail {α : Type} (code : Code) (message : String) : Except Failure α :=
  .error (.orm code message)

def present {α : Type} (value : Option α) (what : String) : Except Failure α :=
  match value with
  | some a => .ok a
  | none => .error (.plain (what ++ " is missing"))

/-- Walks the joins named by the parts of a path. -/
def walkJoins (m : RuntimeModel) : Scope → List String → Except Failure Scope
  | s, [] => pure s
  | s, seg :: path => match joinNamed s.q.joins seg with
    | some j => walkJoins m (joinScope s j) path
    | none => do
      let ent ← present (entityOf m s.q.entity) s!"entity {s.q.entity}"
      fail .entityNotJoined s!"{ent.name}.{seg}"

/-- The place that a column reference names: the statement root, the query around a
subquery, or the join at the end of a path of names. -/
def resolvePath (m : RuntimeModel) (s : Scope) (path : String) : Except Failure Scope :=
  if path = "^" then match s.root.outer with
    | some outer => pure outer
    | none => fail .irInvalid "^ reference outside a subquery"
  else if path = "" then pure s.root
  else walkJoins m s.root ((path.toList.splitOn '/').map String.ofList)

/-- How the executor encodes a bound value. -/
inductive HostStyle where
  | stage (s : Stage)
  | blindIndex
  deriving DecidableEq, Repr

inductive SlotSource where
  | param | config | now | audit | parent
  deriving DecidableEq, Repr

def SlotSource.text : SlotSource → String
  | .param => "param"
  | .config => "config"
  | .now => "now"
  | .audit => "audit"
  | .parent => "parent"

structure BindSlot where
  source : SlotSource
  param : Int := 0
  transform : Transform := .none
  name : String := ""
  step : Nat := 0
  column : String := ""
  hostStyles : List HostStyle := []
  colType : Option FieldType := none
  precision : Option Nat := none
  scale : Option Nat := none
  length : Option Nat := none
  notNull : Bool := false
  keyTypes : List FieldType := []
  deriving DecidableEq, Repr

/-- The relation that a step loads. -/
structure RelationContext where
  parentStep : Nat
  parentKeys : List String
  childKeys : List String
  kind : RelationKind
  deriving DecidableEq, Repr

/-- The state of one statement. -/
structure Builder where
  binds : List BindSlot := []
  subs : Nat := 0
  tables : List String := []

abbrev Build := StateT Builder (Except Failure)

structure Planner where
  m : RuntimeModel
  d : Dialect
  assigns : Bool

namespace Build

def push (d : Dialect) (s : BindSlot) : Build Text := fun b =>
  pure (d.placeholder (b.binds.length + 1), { b with binds := b.binds ++ [s] })

/-- Adds a slot that has a type. -/
def typed (d : Dialect) (s : BindSlot) : Build Text := fun b =>
  match s.colType with
  | some _ => push d s b
  | none => fail .irInvalid s!"bind slot {b.binds.length} ({s.source.text}) has no declared type"

/-- The parameter `i` of a type; a time of six fraction digits. -/
def param (d : Dialect) (i : Int) (type : FieldType) : Build Text :=
  typed d { source := .param, param := i, colType := type,
            precision := if type = .datetime ∨ type = .time then some 6 else none }

def transformed (d : Dialect) (i : Int) (transform : Transform) : Build Text :=
  typed d { source := .param, param := i, transform, colType := some .text }

/-- The parameter `i` compared with or assigned to a column. -/
def colParam (d : Dialect) (i : Int) (col : Field) (transform : Transform) : Build Text :=
  typed d { source := .param, param := i, transform, colType := col.type,
            precision := if col.type = .decimal ∨ col.type = .time ∨ col.type = .datetime
              then some col.precision else none,
            scale := if col.type = .decimal then some col.scale else none,
            length := if col.type = .varchar then some col.length else none }

def config (d : Dialect) (name : String) (type : FieldType) : Build Text :=
  typed d { source := .config, name, colType := type }

def now (d : Dialect) (precision : Nat) : Build Text :=
  typed d { source := .now, precision := some precision, colType := some .datetime }

/-- The one placeholder that the executor expands to the parent values. -/
def parentList (d : Dialect) (step : Nat) (keyTypes : List FieldType) : Build Text :=
  push d { source := .parent, step, keyTypes }

/-- Sets the host styles of the last slot. -/
def setHostStyles (styles : List HostStyle) : Build PUnit := fun b =>
  match b.binds.getLast? with
  | none => .error (.plain "the last bind slot is missing")
  | some s => .ok (⟨⟩, { b with binds := b.binds.dropLast ++ [{ s with hostStyles := styles }] })

/-- Quotes the table of an entity and records it. -/
def table (d : Dialect) (ent : Entity) : Build Text := fun b =>
  pure ([.ident (d.quote ent.table)],
    { b with tables := if ent.table ∈ b.tables then b.tables else b.tables ++ [ent.table] })

/-- Counts a subquery and returns its number, from 1. -/
def nextSub : Build Nat := fun b => pure (b.subs + 1, { b with subs := b.subs + 1 })

end Build

end Orm.Engine
