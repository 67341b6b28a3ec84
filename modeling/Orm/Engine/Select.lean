import Orm.Engine.Render

/-! The SELECT statements of a read request: the root with its joins, and one statement for
each relation. -/
namespace Orm.Engine

open Orm.Sql (Tok Text)
open Orm.Sql.Text (commaSep)

structure KeyReference where
  column : String
  index : Nat
  deriving DecidableEq, Repr

structure OutputColumn where
  index : Nat
  name : String
  column : String
  type : FieldType
  styles : List Stage
  hidden : Bool
  deriving DecidableEq, Repr

inductive ChildKind where
  | join
  | relation (kind : RelationKind)
  deriving DecidableEq, Repr

mutual
/-- How the rows of a step become models: the columns of the entity, its children and its key. -/
structure Assemble where
  entity : String
  aliasName : String
  columns : List OutputColumn
  children : List Child
  key : List KeyReference
  aesVersion : Option Nat
structure Child where
  rel : String
  kind : ChildKind
  step : Nat
  parentKeys : List KeyReference
  childKeys : List KeyReference
  key : List KeyReference
  flatten : Bool
  cascade : Bool
  assemble : Option Assemble
end

/-- One column of a projection: an entity column, a column function or a subquery. -/
structure OutColumn where
  name : String
  column : String
  fn : Option Func
  sub : Option Subquery

def indexOf (a : Assemble) (name : String) : Except Failure Nat :=
  match a.columns.find? (·.name = name) with
  | some c => pure c.index
  | none => .error (.plain s!"planner: column {name} not projected in {a.entity}")

def keyRefs (a : Assemble) (columns : List String) : Except Failure (List KeyReference) :=
  columns.mapM fun column => do
    let index ← indexOf a column
    pure ⟨column, index⟩

/-- Appends a name that the list does not hold. -/
def pushNew (base : List String) (name : String) : List String :=
  if name ∈ base then base else base ++ [name]

/-- The columns that a mode selects, in declared order. -/
def modeColumns (ent : Entity) (mode : Mode) : List String :=
  (ent.fields.filter fun col => match mode with
    | .all => true
    | .none => col.primary || col.foreign
    | _ => col.selected).map Field.name

/-- Whether `remove` keeps a column: it never removes a key column. -/
def keeps (ent : Entity) (remove : List String) (name : String) : Bool :=
  !remove.contains name || ((fieldOf ent name).map Field.primary).getD false

/-- The columns of the entity that a query selects, in order. -/
def baseColumns (ent : Entity) (q : Query) (extra : List String) : List String :=
  let base := modeColumns ent ((q.columns.map Projection.mode).getD .selected)
  let base := match q.columns with
    | none => base
    | some c => (c.add.foldl pushNew base).filter (keeps ent c.remove)
  let base := extra.foldl pushNew base
  let base := q.relations.foldl (fun base r =>
    let base := (r.keys.map KeyPair.left).foldl pushNew base
    match r.query.head.ifParent with
    | some i => pushNew base i.column
    | none => base) base
  ent.primaryKey.foldl (fun base pk => if pk ∈ base then base else pk :: base) base

/-- The projection of a scope: its columns, then its functions and its subqueries by name. -/
def projection (ent : Entity) (s : Scope) : List OutColumn :=
  (baseColumns ent s.q s.extra).map (fun x => ⟨x, x, none, none⟩) ++
  match s.q.columns with
  | none => []
  | some c =>
    (sortedEntries Prod.fst c.fn).map (fun x => ⟨x.1, x.2.column, some x.2.fn, none⟩) ++
    (sortedEntries NamedSub.name c.sub).map (fun x => ⟨x.name, "", none, some x.sub⟩)

/-- The select list of a scope: its texts, their output names and what assembles them. -/
structure Selected where
  parts : List Text
  outNames : List String
  columns : List OutputColumn
  aesVersion : Option Nat

namespace Planner
variable (P : Planner)

def subType (sub : Subquery) : Except Failure FieldType :=
  match sub.agg with
  | .count => pure .i64
  | .avg => pure .f64
  | agg => match entityOf P.m sub.query.entity with
    | none => fail .internal s!"scalar subquery entity {sub.query.entity} is missing"
    | some ent => match fieldOf ent (sub.column.getD "") with
      | none =>
        let column := sub.column.getD ""
        fail .internal s!"{ent.name}.{column} is missing from a validated scalar subquery"
      | some col => pure (if agg = .sum ∧ (col.type = .i16 ∨ col.type = .i32) then .i64 else col.type)

/-- One column of the select list: its text, type and the stages that the client decodes. -/
def selectColumn (s : Scope) (ent : Entity) (c : OutColumn) :
    Build (Text × FieldType × List Stage) := do
  let col := if c.column = "" then none else fieldOf ent c.column
  match c.fn, c.sub with
  | some fn, _ => do
    let what := s!"{ent.name}.{c.column}"
    match col with
    | none => fail .internal s!"{what} is missing from validated column-function metadata"
    | some col =>
      let expr ← P.columnFunction s c.column fn
      pure (expr, functionType fn.name col.type, [])
  | none, some sub => do
    let text ← P.subSelect s sub
    let type ← P.subType sub
    pure ([.paren text], type, [])
  | none, none => do
    let own ← present col s!"column {ent.name}.{c.column}"
    pure (P.readColumn (P.qcol s c.column) own, own.type, P.clientStyles own.stages)

def outName (s : Scope) (name : String) : String := s.aliasName ++ "__" ++ name

def named (s : Scope) (expr : Text) (name : String) : Text :=
  expr ++ [.word "AS", .ident (P.d.quote (outName s name))]

def selectColumns (s : Scope) (ent : Entity) : Nat → List OutColumn → Build Selected
  | _, [] => pure ⟨[], [], [], none⟩
  | idx, c :: cs => do
    let (expr, type, styles) ← P.selectColumn s ent c
    let rest ← selectColumns s ent (idx + 1) cs
    pure ⟨P.named s expr c.name :: rest.parts, outName s c.name :: rest.outNames,
      ⟨idx, c.name, c.column, type, styles, false⟩ :: rest.columns, none⟩

/-- The version column of a selection that holds an AES column: a selected one that no codec
decodes, or a hidden one. -/
def selectVersion (s : Scope) (ent : Entity) (idx : Nat) (sel : Selected) :
    Except Failure Selected :=
  match fieldOf ent ent.aesVersion with
  | none => fail .schemaInvalid s!"{ent.name}: AES column requires an aes_version column"
  | some version =>
    match sel.columns.findIdx? fun c => c.column = version.name ∧ c.styles = [] with
    | some chosen => pure { sel with aesVersion := some chosen }
    | none => pure
      { parts := sel.parts ++ [P.named s (P.qcol s version.name) version.name]
        outNames := sel.outNames ++ [outName s version.name]
        columns := sel.columns ++
          [⟨idx + sel.columns.length, version.name, version.name, version.type, [], true⟩]
        aesVersion := some sel.columns.length }

/-- Whether a projected column is an AES column. -/
def isAes (ent : Entity) (c : OutColumn) : Bool :=
  c.column ≠ "" && ((fieldOf ent c.column).map fun f => f.stages.contains .aes).getD false

/-- The own columns of a scope, from the output index `idx` on. -/
def selectOwn (s : Scope) (idx : Nat) : Build (Selected × Assemble) := do
  let ent ← P.entOf s
  let cols := projection ent s
  let sel ← P.selectColumns s ent idx cols
  let sel ← if cols.any (isAes ent) then P.selectVersion s ent idx sel else pure sel
  pure (sel, ⟨ent.name, s.aliasName, sel.columns, [], [], sel.aesVersion⟩)

mutual
/-- The projection of a scope and its joins; the columns of a join become a join child. -/
def selectList (s : Scope) (idx : Nat) :
    Query → Build (List Text × List String × Nat × Assemble)
  | .mk _ _ _ _ joins _ => do
    let (sel, asm) ← P.selectOwn s idx
    let (parts, outNames, next, children) ← selectJoins s (idx + sel.columns.length) joins
    let ent ← P.entOf s
    let asm := { asm with children }
    let key ← keyRefs asm ent.primaryKey
    pure (sel.parts ++ parts, sel.outNames ++ outNames, next, { asm with key })
def selectJoins (s : Scope) (idx : Nat) :
    List Join → Build (List Text × List String × Nat × List Child)
  | [] => pure ([], [], idx, [])
  | .mk rel kind q left right :: joins => do
    let js := joinScope s (.mk rel kind q left right)
    let (parts, outNames, next, asm) ← selectList js idx q
    let (parts', outNames', last, children) ← selectJoins s next joins
    pure (parts ++ parts', outNames ++ outNames', last,
      ⟨rel, .join, 0, [], [], [], false, false, some asm⟩ :: children)
end

/-- The parent-key condition of a relation step. -/
def parentCondition (root : Scope) (ent : Entity) (rc : RelationContext) : Build Text := do
  let keyTypes ← rc.childKeys.mapM fun key => do pure (← columnIn ent key).type
  let ph ← Build.parentList P.d rc.parentStep keyTypes
  pure (match rc.childKeys with
    | [only] => P.qcol root only ++ [.word "IN", .paren ph]
    | keys => [.paren (commaSep (keys.map (P.qcol root))), .word "IN", .paren [.paren ph]])

/-- The rows that a relation step keeps for each parent; 0 keeps all. -/
def perParent (q : Query) : Option RelationContext → Int
  | none => 0
  | some rc =>
    if q.head.limitPerParent = 0 ∧ rc.kind = .one ∧ q.head.order ≠ [] then 1
    else q.head.limitPerParent

/-- The number of a row among the rows of its parent. -/
def rowNumber (root : Scope) (ent : Entity) (rc : RelationContext) : Except Failure Text := do
  let order ← P.renderOrder root root.q
  let order ← if order.isEmpty then do
      let pk ← present ent.primaryKey.head? s!"the primary key of {ent.name}"
      pure (.word "ORDER BY" :: P.qcol root pk ++ [.word "ASC"])
    else pure order
  pure [.comma, .call "ROW_NUMBER" [], .word "OVER", .paren (.word "PARTITION BY" ::
    commaSep (rc.childKeys.map (P.qcol root)) ++ order), .word "AS", .ident (P.d.quote "orm_rn")]

/-- The statement around a numbered one that keeps `n` rows of each parent. -/
def perParentWrap (root : Scope) (rc : RelationContext) (n : Int) (outNames : List String)
    (sql : Text) : Text :=
  let w (name : String) : Text := [.col (P.d.quote "orm_w") (P.d.quote name)]
  .word "SELECT" :: commaSep (outNames.map w) ++ [.word "FROM", .paren sql, .word "AS",
    .ident (P.d.quote "orm_w"), .word "WHERE"] ++ w "orm_rn" ++ [.word "<=", .word (toString n),
    .word "ORDER BY"] ++ commaSep (rc.childKeys.map fun key => w (outName root key)) ++
    .comma :: w "orm_rn"

def lockText (mode : RowLock) : Except Failure Text :=
  let unsupported := s!"{P.d.name} row lock \"{mode.text}\" is not supported"
  if mode = .none then pure []
  else match P.d.rowLock mode with
    | some suffix => pure suffix
    | none => fail .capabilityUnsupported unsupported

/-- ORDER BY, LIMIT and the row lock of a statement that returns rows. -/
def renderPage (root : Scope) (kind : Kind) (isRelation : Bool) : Build Text := do
  let q := root.q
  let order ← P.renderOrder root q
  let limit ← if kind = .one ∧ !isRelation then pure (P.d.limit [.word "0"] [.word "1"])
    else match q.head.limit with
    | none => pure []
    | some (.values offset count) =>
      pure (P.d.limit [.word (toString offset)] [.word (toString count)])
    | some (.params offset count) => do
      -- the binds stand in the order of the placeholders
      if P.d = .mysql then
        let offset ← Build.param P.d offset .i64
        let count ← Build.param P.d count .i64
        pure (P.d.limit offset count)
      else
        let count ← Build.param P.d count .i64
        let offset ← Build.param P.d offset .i64
        pure (P.d.limit offset count)
  let lock ← P.lockText q.head.lock
  pure (order ++ limit ++ lock)

def returnsRows : Kind → Bool
  | .one | .all | .groupCount => true
  | _ => false

/-- The select list of a grouped count. -/
def selectGroupCountList (s : Scope) (ent : Entity) :
    Except Failure (List Text × List String × Assemble) := do
  let groupBy := s.q.head.groupBy.getD []
  let cols ← groupBy.mapM fun name => match fieldOf ent name with
    | some col => pure (name, col)
    | none => fail .columnUnknown s!"{ent.name}.{name}"
  let parts := cols.map fun x => P.named s (P.readColumn (P.qcol s x.1) x.2) x.1
  let columns := cols.mapIdx fun i x =>
    (⟨i, x.1, x.1, x.2.type, P.clientStyles x.2.stages, false⟩ : OutputColumn)
  let asm : Assemble := ⟨ent.name, s.aliasName,
    columns ++ [⟨cols.length, "row_count", "", .i64, [], false⟩], [], [], none⟩
  let key ← keyRefs asm groupBy
  pure (parts ++ [P.named s [.call "COUNT" [.word "*"]] "row_count"],
    groupBy.map (outName s) ++ [outName s "row_count"], { asm with key })

/-- The select list of a statement that returns rows, with the key of its assembly. -/
def selectRows (root : Scope) (ent : Entity) : Build (Text × List String × Assemble) := do
  let (parts, outNames, _, asm) ← P.selectList root 0 root.q
  let key ← keyRefs asm ent.primaryKey
  pure (commaSep parts, outNames, { asm with key })

/-- The select list of a statement kind. -/
def selectHead (root : Scope) (ent : Entity) (kind : Kind) (agg : String) :
    Build (Text × List String × Assemble) := do
  let asm : Assemble := ⟨ent.name, root.aliasName, [], [], [], none⟩
  match kind with
  | .count => pure (if root.q.hasGroupBy then [.word "1"] else [.call "COUNT" [.word "*"]], [], asm)
  | .sum => pure (aggregateText (P.qcol root agg) .sum, [], asm)
  | .avg => pure (aggregateText (P.qcol root agg) .avg, [], asm)
  | .groupCount => do
    let (parts, outNames, asm) ← P.selectGroupCountList root ent
    pure (commaSep parts, outNames, asm)
  | _ => P.selectRows root ent

/-- The root scope of a statement. -/
def selectRoot (q : Query) (rc : Option RelationContext) : Scope :=
  match rc with
  | none => rootScope q "a"
  | some rc => { rootScope q "a" with
      extra := rc.childKeys ++ if q.head.keyBy = "" then [] else [q.head.keyBy] }

/-- The conditions of the WHERE clause of a statement. -/
def selectConditions (root : Scope) (ent : Entity) (rc : Option RelationContext) :
    Build (List Text) := do
  let parents ← match rc with
    | none => pure []
    | some rc => do
      let text ← P.parentCondition root ent rc
      pure [text]
  let own ← P.renderWhere (P.placedOf root root.q.joins) root rc.isNone root.q.where_
  let nested ← P.collectJoinWhere root (placedIn root.q.where_) root.q.joins
  pure (parents ++ P.softDeleteConditions root ent ++ own ++ nested)

def numberText (root : Scope) (ent : Entity) (rc : Option RelationContext) (n : Int) :
    Except Failure Text :=
  match rc with
  | some rc => if 0 < n then P.rowNumber root ent rc else pure []
  | none => pure []

/-- A statement that returns rows with its page, or cut to `n` rows of each parent. -/
def pageText (root : Scope) (kind : Kind) (rc : Option RelationContext) (n : Int)
    (outNames : List String) (sql : Text) : Build Text :=
  if !returnsRows kind then pure sql
  else match rc with
    | none => do
      let page ← P.renderPage root kind false
      pure (sql ++ page)
    | some rc => if 0 < n then pure (P.perParentWrap root rc n outNames sql) else do
      let page ← P.renderPage root kind true
      pure (sql ++ page)

/-- The text and the assembly of one SELECT statement. -/
def selectText (q : Query) (kind : Kind) (agg : String) (rc : Option RelationContext) :
    Build (Text × Assemble) := do
  buildScopes P.m q
  let root := selectRoot q rc
  let ent ← P.entOf root
  let (out, outNames, asm) ← P.selectHead root ent kind agg
  let n := perParent q rc
  let number ← P.numberText root ent rc n
  let table ← Build.table P.d ent
  let force := if q.head.forceIndex = "" then [] else P.d.forceIndex q.head.forceIndex
  let joins ← P.renderJoins root q.joins
  let conditions ← P.selectConditions root ent rc
  let whereText := whereClause conditions
  let group : Text := if q.hasGroupBy then
    .word "GROUP BY" :: commaSep ((q.head.groupBy.getD []).map (P.qcol root)) else []
  let sql := .word "SELECT" :: out ++ number ++ .word "FROM" :: table ++
    [.word "AS", .ident (P.d.quote root.aliasName)] ++ force ++ joins ++ whereText ++ group
  let sql := if kind = .count ∧ q.hasGroupBy then [.word "SELECT", .call "COUNT" [.word "*"],
    .word "FROM", .paren sql, .word "AS", .ident (P.d.quote "orm_g")] else sql
  let sql ← P.pageText root kind rc n outNames sql
  pure (sql, asm)

end Planner

inductive Role where
  | main | count | relation
  deriving DecidableEq, Repr

structure IfParentReference where
  column : String
  index : Nat
  param : Int
  deriving DecidableEq, Repr

structure StepParent where
  step : Nat
  keys : List KeyReference
  ifParent : Option IfParentReference
  deriving DecidableEq, Repr

/-- One statement of a plan. -/
structure PlanStep where
  id : Nat
  role : Role
  sql : Text
  tables : List String
  bindSlots : List BindSlot
  lock : RowLock
  parent : Option StepParent
  assemble : Option Assemble

abbrev Steps := StateT (List PlanStep) (Except Failure)

/-- Sets the assembly of a step. -/
def setAssemble (id : Nat) (asm : Assemble) : Steps PUnit := fun steps =>
  pure (⟨⟩, steps.map fun st => if st.id = id then { st with assemble := some asm } else st)

namespace Planner
variable (P : Planner)

/-- The parent of a relation step. -/
def stepParent (q : Query) : Option (RelationContext × Assemble) → Except Failure (Option StepParent)
  | none => pure none
  | some (rc, parentAsm) => do
    let keys ← keyRefs parentAsm rc.parentKeys
    match q.head.ifParent with
    | none => pure (some ⟨rc.parentStep, keys, none⟩)
    | some i => do
      let index ← indexOf parentAsm i.column
      pure (some ⟨rc.parentStep, keys, some ⟨i.column, index, i.p⟩⟩)

/-- Adds the statement of a query without its relation steps. -/
def addSelect (q : Query) (kind : Kind) (agg : String)
    (rc : Option (RelationContext × Assemble)) : Steps (Nat × Assemble) := fun steps => do
  let ((sql, asm), b) ← P.selectText q kind agg (rc.map Prod.fst) {}
  let parent ← stepParent q rc
  let role := if kind = .count ∧ steps ≠ [] then .count else if rc.isSome then .relation else .main
  let st : PlanStep :=
    { id := steps.length, role, sql, tables := sortedEntries id b.tables, bindSlots := b.binds,
      lock := q.head.lock, parent, assemble := if returnsRows kind then some asm else none }
  pure ((steps.length, asm), steps ++ [st])

/-- How the rows of a relation step attach to the rows of `s`. -/
def relationChild (s : Scope) (asm : Assemble) (rc : RelationContext) (rel : String) (q : Query)
    (step : Nat) (assembled : Assemble) : Except Failure Child := do
  let ent ← P.entOf s
  let target ← P.entity q.entity
  let parentKeys ← keyRefs asm rc.parentKeys
  let childKeys ← keyRefs assembled rc.childKeys
  let keyed ← P.entity assembled.entity
  let key ← keyRefs assembled (if q.head.keyBy = "" then keyed.primaryKey else [q.head.keyBy])
  pure
    { rel, kind := .relation rc.kind, step, parentKeys, childKeys, key, flatten := q.head.flatten,
      cascade := !q.head.noCascadeDelete && rc.parentKeys = ent.primaryKey &&
        rc.childKeys ≠ target.primaryKey,
      assemble := none }

mutual
/-- A step for each relation of a scope and of its joins. -/
def relationSteps (s : Scope) (stepId : Nat) (asm : Assemble) : Query → Steps Assemble
  | .mk _ _ _ _ joins relations => do
    let children ← relationChildren s stepId asm relations
    joinRelationSteps s stepId { asm with children := asm.children ++ children } joins
def relationChildren (s : Scope) (stepId : Nat) (asm : Assemble) :
    List Relation → Steps (List Child)
  | [] => pure []
  | .mk rel q kind keys :: relations => do
    let rc : RelationContext := ⟨stepId, keys.map KeyPair.left, keys.map KeyPair.right, kind⟩
    let (id, assembled) ← P.addSelect q .all "" (some (rc, asm))
    let assembled ← relationSteps (selectRoot q (some rc)) id assembled q
    setAssemble id assembled
    let child ← P.relationChild s asm rc rel q id assembled
    let children ← relationChildren s stepId asm relations
    pure (child :: children)
def joinRelationSteps (s : Scope) (stepId : Nat) (asm : Assemble) : List Join → Steps Assemble
  | [] => pure asm
  | .mk rel kind q left right :: joins => do
    let js := joinScope s (.mk rel kind q left right)
    let children ← asm.children.mapM fun ch => do
      if ch.kind = .join ∧ ch.rel = rel then
        let inner ← present ch.assemble s!"the assemble of join {rel}"
        let inner ← relationSteps js stepId inner q
        pure { ch with assemble := some inner }
      else pure ch
    joinRelationSteps s stepId { asm with children } joins
end

/-- Adds the relation steps of a root statement. -/
def appendRelations (q : Query) (id : Nat) (asm : Assemble) : Steps PUnit := do
  let asm ← P.relationSteps (selectRoot q none) id asm q
  setAssemble id asm

/-- The steps of a read request. A page runs its rows, then the count, then the relations. -/
def readSteps (r : Request) : Steps PUnit := do
  match r.kind with
  | .paginate =>
    let (id, asm) ← P.addSelect r.query .all "" none
    let _ ← P.addSelect r.query .count "" none
    P.appendRelations r.query id asm
  | kind =>
    let (id, asm) ← P.addSelect r.query kind r.agg none
    if returnsRows kind then P.appendRelations r.query id asm

end Planner

end Orm.Engine
