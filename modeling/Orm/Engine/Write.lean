import Orm.Engine.Select
import Orm.Engine.Validate

/-! The INSERT, UPDATE and DELETE statements of a write request, and the plan of any request. -/
namespace Orm.Engine

open Orm.Sql (Tok Text)
open Orm.Sql.Text (commaSep andSep)

def assigned (set : List Assignment) (column : String) : Bool := set.any (·.column = column)

def assignsAES (ent : Entity) (set : List Assignment) : Bool :=
  set.any fun a => ((fieldOf ent a.column).map fun c => c.stages.contains .aes).getD false

/-- One key version describes the whole row: an AES update replaces every AES column. -/
def validateAESAssignments (ent : Entity) (set : List Assignment) (requireComplete : Bool) :
    Except Failure PUnit := do
  if ent.aesVersion = "" then pure ⟨⟩
  else do
    refuse (assigned set ent.aesVersion = true) .irInvalid
      s!"{ent.aesVersion} is managed by the AES writer"
    if requireComplete && assignsAES ent set then
      ent.fields.forM fun col => refuse (col.stages.contains .aes ∧ !assigned set col.name)
        .irInvalid s!"AES update must assign every AES column; missing {col.name}"

/-- Whether a database that assigns keys allocates the key of an entity. -/
def allocatedKey (ent : Entity) : Bool := ent.keyPrefix ≠ "" && ent.primaryKey.length = 1

/-- An insert assigns every required column. -/
def validateRequiredAssignments (ent : Entity) (set : List Assignment) (assigns : Bool) :
    Except Failure PUnit :=
  ent.fields.forM fun col => do
    let given := col.nullable || col.hasDefault || col.identity || col.name = ent.aesVersion ||
      col.name = ent.auditColumn || assigned set col.name
    let allocated := assigns && ((allocatedKey ent && ent.primaryKey.head? = some col.name) ||
      col.name = ent.order)
    refuse (!given ∧ !allocated) .irInvalid s!"required column {ent.name}.{col.name} is not set"

/-- The blind index assignment that the assignment of an AES column derives, unless the index is
assigned explicitly or already derived. -/
def deriveBlindIndex (ent : Entity) (explicit : List String) (derived : List (String × String))
    (a : Assignment) : Except Failure (Option Assignment) :=
  match fieldOf ent a.column with
  | none => pure none
  | some col =>
    if col.blindIndex = "" ∨ col.blindIndex ∈ explicit then pure none
    else match derived.lookup col.blindIndex with
      | some previous => do
        refuse (previous ≠ a.column) .irInvalid
          s!"blind index {col.blindIndex} is derived from both {previous} and {a.column}"
        pure none
      | none => pure (some ⟨col.blindIndex, a.p, a.null, none, none⟩)

/-- The derived blind index assignments with the positions of their sources. -/
def blindIndexAssignments (ent : Entity) (explicit : List String) :
    Nat → List (String × String) → List Assignment → Except Failure (List (Assignment × Nat))
  | _, _, [] => pure []
  | i, derived, a :: rest => do
    match ← deriveBlindIndex ent explicit derived a with
    | none => blindIndexAssignments ent explicit (i + 1) derived rest
    | some d => do
      let more ← blindIndexAssignments ent explicit (i + 1) ((d.column, a.column) :: derived) rest
      pure ((d, i) :: more)

/-- The assignments with the derived ones after them, each with the position of its source. -/
def addBlindIndexAssignments (ent : Entity) (input : List Assignment) :
    Except Failure (List (Assignment × Nat)) := do
  let derived ← blindIndexAssignments ent (input.map Assignment.column) 0 [] input
  pure (input.mapIdx (fun i a => (a, i)) ++ derived)

def isBlindIndexTarget (ent : Entity) (target : String) : Bool :=
  ent.fields.any (·.blindIndex = target)

namespace Planner
variable (P : Planner)

/-- Marks the parameter slots from `start` on as the assignment of a column that is not null. -/
def markAssigned (start : Nat) (col : Field) (sql : Text) : Build Text := fun b =>
  let mark (s : BindSlot) : BindSlot :=
    if s.source = .param then { s with notNull := true, column := col.name } else s
  pure (sql, if col.nullable then b
    else { b with binds := b.binds.take start ++ (b.binds.drop start).map mark })

/-- The key of the transaction's audit record. -/
def audit (ent : Entity) : Build Text := do
  let col ← columnIn ent ent.auditColumn
  Build.typed P.d { source := .audit, name := ent.auditRecord, colType := some col.type }

/-- The value that an assignment gives its column. -/
def renderAssign (ent : Entity) (col : Field) (a : Assignment) : Build Text := do
  let start := (← get).binds.length
  if isBlindIndexTarget ent col.name then
    if a.plusP.isSome || a.minusP.isSome then
      throw (.orm .irInvalid "blind index assignment must use its AES source value")
    if a.null then pure [.word "NULL"]
    else
      let p ← present a.p s!"the value of {a.column}"
      let value ← P.renderBlindIndexValue col p
      markAssigned start col value
  else
    -- qualified by the table: a bare name is ambiguous in an upsert
    let q : Text := [.col (P.d.quote ent.table) (P.d.quote col.name)]
    match a.plusP, a.minusP with
    | some plus, _ =>
      let ph ← Build.colParam P.d plus col .none
      pure (q ++ .word "+" :: ph)
    | none, some minus =>
      let ph ← Build.colParam P.d minus col .none
      let ph' ← Build.colParam P.d minus col .none
      pure [.caseEnd (.word "WHEN" :: q ++ .word ">" :: ph ++ .word "THEN" :: q ++
        .word "-" :: ph' ++ [.word "ELSE", .word "0"])]
    | none, none =>
      if a.null then pure [.word "NULL"]
      else
        let p ← present a.p s!"the value of {a.column}"
        let value ← P.renderValue col p
        markAssigned start col value

/-- The clock that update time and soft deletion write. -/
def clock (col : Field) : Build Text :=
  if P.d.hostNow then Build.now P.d col.precision else pure (P.d.now col.precision)

/-- `column = value` in a SET list. -/
def setText (column : String) (value : Text) : Text :=
  .ident (P.d.quote column) :: .word "=" :: value

/-- The assignment of the audit column of an audited table. -/
def auditAssignment (ent : Entity) : Build (List Text) := do
  if ent.auditColumn = "" then pure []
  else
    let value ← P.audit ent
    pure [P.setText ent.auditColumn value]

/-- The assignment of the key version that the AES assignments of a set need. -/
def versionAssignment (ent : Entity) (set : List Assignment) : Build (List Text) := do
  if ent.aesVersion ≠ "" && assignsAES ent set && !assigned set ent.aesVersion then
    let col ← columnIn ent ent.aesVersion
    let value ← Build.config P.d "aes_version" col.type
    pure [P.setText ent.aesVersion value]
  else pure []

/-- The assignment of the update time, which the set may give itself. -/
def updatedAssignment (ent : Entity) (set : List Assignment) : Build (List Text) := do
  if ent.updated ≠ "" && !assigned set ent.updated then
    let col ← columnIn ent ent.updated
    let value ← P.clock col
    pure [P.setText ent.updated value]
  else pure []

def setTexts (ent : Entity) (set : List Assignment) : Build (List Text) :=
  set.mapM fun a => do
    let col ← columnIn ent a.column
    let value ← P.renderAssign ent col a
    pure (P.setText a.column value)

/-- The columns that an insert writes besides the assignments. -/
def managedInsertColumns (ent : Entity) (set : List Assignment) : List (String × Build Text) :=
  (if ent.aesVersion ≠ "" && !assigned set ent.aesVersion then
    [(ent.aesVersion, do
      let col ← columnIn ent ent.aesVersion
      Build.config P.d "aes_version" col.type)] else []) ++
  (if ent.auditColumn ≠ "" then [(ent.auditColumn, P.audit ent)] else []) ++
  (if P.d.hostNow then (ent.fields.filter fun f => f.defaultNow && !assigned set f.name).map
    fun f => (f.name, Build.now P.d f.precision) else [])

/-- One more row of an insert: each assignment takes the parameter of its source. -/
def insertRow (ent : Entity) (set : List (Assignment × Nat)) (row : List Int) :
    Build (List Text) :=
  set.mapM fun x => do
    let col ← present (fieldOf ent x.1.column) s!"column {x.1.column}"
    let p ← present row.toArray[x.2]? s!"the parameter of {x.1.column} in a row"
    P.renderAssign ent col ⟨x.1.column, some p, false, none, none⟩

/-- What an insert does on a duplicate key. -/
def onDuplicate (ent : Entity) (set : List Assignment) (input : List Assignment) :
    Build Text := do
  let duplicate ← addBlindIndexAssignments ent input
  let duplicate := duplicate.map Prod.fst
  validateAESAssignments ent duplicate true
  let sets ← P.setTexts ent duplicate
  let version ← P.versionAssignment ent duplicate
  let op ← P.auditAssignment ent
  -- the last insert id reports the row that an update meets
  let lastId : List Text := if ent.identity ≠ "" ∧ !P.d.insertReturningId then
    [P.setText ent.identity [.call "LAST_INSERT_ID" [.ident (P.d.quote ent.identity)]]] else []
  let conflict ← conflictKey ent set
  pure (P.d.upsert conflict (commaSep (sets ++ version ++ op ++ lastId)))

def insertText (r : Request) : Build Text := do
  let ent ← P.entity r.query.entity
  let sourced ← addBlindIndexAssignments ent r.set
  let set := sourced.map Prod.fst
  validateAESAssignments ent set false
  validateRequiredAssignments ent set P.assigns
  if r.load && ent.identity ≠ "" && !set.any fun a => a.column = ent.identity && a.p.isSome then
    throw (.orm .irInvalid
      s!"load of {ent.name} needs a value for the identity column {ent.identity}")
  let vals ← set.mapM fun a => do
    let col ← columnIn ent a.column
    if col.identity && !r.load then
      throw (.orm .irInvalid s!"cannot set identity column {a.column}")
    P.renderAssign ent col a
  let managed := P.managedInsertColumns ent set
  let more ← managed.mapM Prod.snd
  let cols := (set.map Assignment.column ++ managed.map Prod.fst).map fun c =>
    ([.ident (P.d.quote c)] : Text)
  let table ← Build.table P.d ent
  let sql := .word "INSERT INTO" :: table ++ [.paren (commaSep cols), .word "VALUES",
    .paren (commaSep (vals ++ more))]
  if r.rows ≠ [] then
    let rows ← r.rows.mapM fun row => do
      let vals ← P.insertRow ent sourced row
      let more ← managed.mapM Prod.snd
      pure ([.comma, .paren (commaSep (vals ++ more))] : Text)
    pure (sql ++ rows.flatten)
  else
    let duplicate ← if r.onDuplicate = [] then pure [] else P.onDuplicate ent set r.onDuplicate
    let returning ← if P.d.insertReturningId && ent.identity ≠ "" then
        pure [.word "RETURNING", .ident (P.d.quote ent.identity)]
      else if P.assigns && allocatedKey ent then do
        let pk ← present ent.primaryKey.head? "the primary key"
        pure [.word "RETURNING", .ident (P.d.quote pk)]
      else pure []
    pure (sql ++ duplicate ++ returning)

/-- The where group of a write, without its outer parentheses. -/
def writeWhere (root : Scope) (kind : String) (where_ : Option Group) : Build Text := do
  let g ← present where_ s!"the where of {kind}"
  P.renderGroup (P.placedOf root root.q.joins) root true g

/-- The condition on the version that a write has read. -/
def optimisticCondition (root : Scope) (ent : Entity) (o : Optimistic) : Build Text := do
  let col ← columnIn ent o.column
  let value ← Build.colParam P.d o.p col .none
  pure (P.qcol root o.column ++ .word "=" :: value)

/-- `where AND condition AND …`, with the where group as it is. -/
def andWhere (text : Text) (conditions : List Text) : Text :=
  text ++ (conditions.map fun c => .word "AND" :: c).flatten

def updateText (r : Request) : Build Text := do
  let ent ← P.entity r.query.entity
  let sourced ← addBlindIndexAssignments ent r.set
  let set := sourced.map Prod.fst
  validateAESAssignments ent set true
  buildScopes P.m r.query
  let root := rootScope r.query ent.table
  let sets ← P.setTexts ent set
  let version ← P.versionAssignment ent set
  let updated ← P.updatedAssignment ent r.set
  let op ← P.auditAssignment ent
  let where_ ← P.writeWhere root "update" r.query.where_
  let optimistic ← r.optimistic.toList.mapM (P.optimisticCondition root ent)
  let text := andWhere where_ (optimistic ++ P.softDeleteConditions root ent)
  let table ← Build.table P.d ent
  pure (.word "UPDATE" :: table ++ .word "SET" :: commaSep (sets ++ version ++ updated ++ op) ++
    .word "WHERE" :: text)

def deleteText (r : Request) : Build Text := do
  let ent ← P.entity r.query.entity
  buildScopes P.m r.query
  let root := rootScope r.query ent.table
  if ent.softDelete = "" then
    let table ← Build.table P.d ent
    let where_ ← P.writeWhere root "delete" r.query.where_
    pure (.word "DELETE FROM" :: table ++ .word "WHERE" :: where_)
  else
    let col ← columnIn ent ent.softDelete
    let value ← P.clock col
    let op ← P.auditAssignment ent
    let where_ ← P.writeWhere root "delete" r.query.where_
    let text := andWhere where_ (P.softDeleteConditions root ent)
    let table ← Build.table P.d ent
    pure (.word "UPDATE" :: table ++ .word "SET" ::
      commaSep (P.setText ent.softDelete value :: op) ++ .word "WHERE" :: text)

def restoreText (r : Request) : Build Text := do
  let ent ← P.entity r.query.entity
  let parts ← restoreKey ent r
  let sourced ← addBlindIndexAssignments ent parts.set
  let set := sourced.map Prod.fst
  validateAESAssignments ent set true
  buildScopes P.m r.query
  let root := rootScope r.query ent.table
  let sets ← P.setTexts ent set
  let version ← if ent.aesVersion ≠ "" && assignsAES ent set then do
      let col ← columnIn ent ent.aesVersion
      let value ← Build.config P.d "aes_version" col.type
      pure [P.setText ent.aesVersion value]
    else pure []
  let op ← P.auditAssignment ent
  let where_ ← P.writeWhere root "restore" (some parts.where_)
  let text := andWhere where_
    [P.qcol root ent.softDelete ++ [.word "IS", .word "NOT", .word "NULL"]]
  let table ← Build.table P.d ent
  pure (.word "UPDATE" :: table ++ .word "SET" ::
    commaSep (sets ++ version ++ [P.setText ent.softDelete [.word "NULL"]] ++ op) ++
    .word "WHERE" :: text)

def restartIdentityText (r : Request) : Build Text := do
  let ent ← P.entity r.query.entity
  if ent.identity = "" then
    throw (.orm .irInvalid s!"restart_identity of {ent.name}, which has no identity column")
  let _ ← Build.table P.d ent
  pure (P.d.restartIdentity ent.table ent.identity)

/-- Adds the one step of a write request. -/
def writeStep (text : Build Text) : Steps PUnit := fun steps => do
  let (sql, b) ← text {}
  let st : PlanStep :=
    { id := steps.length, role := .main, sql, tables := sortedEntries id b.tables,
      bindSlots := b.binds, lock := .none, parent := none, assemble := none }
  pure (⟨⟩, steps ++ [st])

/-- The steps of a request. -/
def requestSteps (r : Request) : Steps PUnit :=
  match r.kind with
  | .insert => writeStep (P.insertText r)
  | .update => writeStep (P.updateText r)
  | .delete => writeStep (P.deleteText r)
  | .restore => writeStep (P.restoreText r)
  | .restartIdentity => writeStep (P.restartIdentityText r)
  | _ => P.readSteps r

structure Plan where
  manifestHash : String
  kind : Kind
  steps : List PlanStep

def compile (r : Request) : Except Failure Plan := do
  let (_, steps) ← P.requestSteps r []
  pure ⟨P.m.manifestHash, r.kind, steps⟩

end Planner

theorem requestSteps_read {P : Planner} {r : Request} (h : r.kind.isWrite = false) :
    P.requestSteps r = P.readSteps r := by
  unfold Planner.requestSteps
  cases hk : r.kind <;> first
    | rfl
    | simp [hk, Kind.isWrite] at h

section Books

/-- A column of the example table; only the key is required. -/
def exampleColumn (name : String) (type : FieldType) : Field where
  name := name
  type := type
  nullable := name ≠ "id"
  identity := false
  hasDefault := false
  defaultNow := false
  precision := 0
  scale := 0
  length := 0
  stages := []
  selected := true
  primary := name = "id"
  foreign := false
  blindIndex := ""

/-- A table of books with a soft delete. -/
def bookEntity : Entity where
  name := "book"
  table := "book"
  fields := [exampleColumn "id" .i64, exampleColumn "title" .text, exampleColumn "gone" .datetime]
  primaryKey := ["id"]
  identity := ""
  uniques := []
  indexes := []
  updated := ""
  softDelete := "gone"
  aesVersion := ""
  keyPrefix := ""
  order := ""
  auditColumn := ""
  auditRecord := ""
  external := false

def bookModel : RuntimeModel := ⟨"h", [("book", bookEntity)]⟩

def bookHead : Head where
  entity := "book"
  order := []
  groupBy := none
  limit := none
  forceIndex := ""
  lock := .none
  keyBy := ""
  flatten := false
  limitPerParent := 0
  ifParent := none
  noCascadeDelete := false

/-- The item `id = ?` with a connector before it. -/
def idItem (conn : Conn) (p : Int) : Item :=
  .mk (some (.mk ⟨conn, some "id", .eq, some p, [], none, none, none, []⟩ none)) none none

/-- `id = ? <conn> id = ?` over the books. -/
def bookQuery (conn : Conn) : Query :=
  .mk bookHead none none (some (.mk .none false [idItem .none 0, idItem conn 1])) [] []

def bookRequest (kind : Kind) (conn : Conn) : Request where
  irVersion := 1
  manifestHash := "h"
  kind := kind
  load := false
  query := bookQuery conn
  set := []
  onDuplicate := []
  rows := []
  optimistic := none
  agg := ""
  nParams := 2

def bookPlanner : Planner := ⟨bookModel, .mysql, false⟩

/-- Sets the title of the books `id = ? <conn> id = ?`. -/
def bookUpdate (conn : Conn) : Request :=
  { bookRequest .update conn with set := [⟨"title", some 2, false, none, none⟩], nParams := 3 }

end Books

end Orm.Engine
