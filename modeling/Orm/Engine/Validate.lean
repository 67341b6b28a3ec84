import Orm.Engine.Build

/-! The validation of a request against the runtime model. The members of a request have
their types here, so the shape check of untyped requests has no counterpart. -/
namespace Orm.Engine

/-- Fails with an error when `p` holds. -/
def refuse (p : Prop) [Decidable p] (code : Code) (message : String) : Except Failure PUnit :=
  if p then fail code message else pure ⟨⟩

theorem ok_refuse {p : Prop} [Decidable p] {code : Code} {message : String} {u : PUnit}
    (h : refuse p code message = .ok u) : ¬ p := by
  intro hp
  simp [refuse, hp, fail] at h

def comparable : List Op :=
  [.eq, .notEq, .gt, .gte, .lt, .lte, .in_, .notIn, .between, .isNull, .isNotNull]

def equality : List Op := [.eq, .notEq, .in_, .notIn, .isNull, .isNotNull]

/-- The operators of a column type. -/
def opsByType : FieldType → List Op
  | .i16 | .i32 | .i64 | .f64 | .decimal | .date | .time | .datetime => comparable
  | .uuid | .bytes => equality
  | .varchar => [.eq, .notEq, .gt, .gte, .lt, .lte, .in_, .notIn, .contains, .containsBinary,
      .isNull, .isNotNull]
  | .text => [.eq, .notEq, .gt, .gte, .lt, .lte, .contains, .containsBinary, .isNull, .isNotNull]
  | .bool => [.eq, .notEq, .isNull, .isNotNull]

def Op.isColumn : Op → Bool
  | .eqCol | .notEqCol | .gtCol | .gteCol | .ltCol | .lteCol => true
  | _ => false

def Op.isOrdering : Op → Bool
  | .eq | .notEq | .gt | .gte | .lt | .lte => true
  | _ => false

def FieldType.isNumeric : FieldType → Bool
  | .i16 | .i32 | .i64 | .f64 | .decimal => true
  | _ => false

def FieldType.name : FieldType → String
  | .i16 => "i16" | .i32 => "i32" | .i64 => "i64" | .bool => "bool" | .f64 => "f64"
  | .text => "text" | .bytes => "bytes" | .uuid => "uuid" | .date => "date"
  | .decimal => "decimal" | .varchar => "varchar" | .time => "time" | .datetime => "datetime"

def Conn.text : Conn → String
  | .none => ""
  | .and => "and"
  | .or => "or"
  | .other s => s

def Agg.text : Agg → String
  | .none => ""
  | .sum => "sum"
  | .avg => "avg"
  | .count => "count"
  | .other s => s

/-- Whether an operator is valid for a column. -/
def opAllowed (c : Field) (op : Op) : Bool :=
  if op.isColumn then true
  else if c.stages ≠ [] then
    if c.stages.all Stage.host then equality.contains op else op = .isNull || op = .isNotNull
  else (opsByType c.type).contains op

/-- Whether two columns compare alike on the three databases. -/
def meets (a b : Field) : Bool :=
  meetKind a.type a.scale a.precision = meetKind b.type b.scale b.precision

/-- The operator that a column comparison compares by. -/
def Op.compared : Op → Op
  | .eqCol => .eq
  | .notEqCol => .notEq
  | .gtCol => .gt
  | .gteCol => .gte
  | .ltCol => .lt
  | .lteCol => .lte
  | op => op

/-- Whether a column comparison may compare two columns. -/
def colPairOpAllowed (left right : Field) (op : Op) : Bool :=
  if left.stages = [] ∧ right.stages = [] then (opsByType left.type).contains op.compared
  else left.stages = [.ip] && right.stages = [.ip] && (op.compared = .eq || op.compared = .notEq)

def columnFunctionArity : FuncName → Nat := fun _ => 0

/-- A safe integer of the source's number type. -/
def isSafe (i : Int) : Bool := -9007199254740991 ≤ i && i ≤ 9007199254740991

/-- The column of an entity; `place` names the entity in the error. -/
def knownColumn (ent : Entity) (place name : String) : Except Failure Field :=
  match fieldOf ent name with
  | some col => pure col
  | none => fail .columnUnknown s!"{place}.{name}"

structure Validator where
  m : RuntimeModel
  n : Int

namespace Validator
variable (V : Validator)

def params (ps : List Int) : Except Failure PUnit :=
  ps.forM fun i => refuse (!isSafe i ∨ i < 0 ∨ V.n ≤ i) .irInvalid
    s!"param index {i} out of range (n_params {V.n})"

def entity (name : String) : Except Failure Entity :=
  match entityOf V.m name with
  | some ent => pure ent
  | none => fail .entityUnknown name

/-- The place that a path of join names leads to. -/
def walk : Scope → List String → Except Failure Scope
  | s, [] => pure s
  | s, seg :: path => match joinNamed s.q.joins seg with
    | some j => walk (joinScope s j) path
    | none => fail .entityNotJoined s!"{s.q.entity}.{seg}"

/-- The column that a column reference names. -/
def ref (s : Scope) (path name : String) : Except Failure Field := do
  let target ← if path = "^" then match s.root.outer with
      | some outer => pure outer
      | none => fail .irInvalid "^ reference outside a subquery"
    else if path = "" then pure s.root
    else walk s.root ((path.toList.splitOn '/').map String.ofList)
  let ent ← V.entity target.q.entity
  knownColumn ent target.q.entity name

def columnFunction (ent : Entity) (c : Field) (f : Func) : Except Failure PUnit :=
  match columnFunctionTypes f.name with
  | none => fail .functionUnknown f.name.text
  | some types => do
    refuse (c.type ∉ types) .operatorNotAllowed
      s!"{f.name.text} on {ent.name}.{c.name} ({c.type.name})"
    refuse (f.ps.length ≠ columnFunctionArity f.name) .irInvalid s!"{f.name.text} takes 0 arguments"
    V.params f.ps

def tuple (ent : Entity) (t : Test) : Except Failure PUnit := do
  refuse (t.cols.length < 2) .irInvalid s!"{t.op.text} needs at least two columns"
  t.cols.forM fun name => do
    let c ← knownColumn ent ent.name name
    refuse (c.stages ≠ []) .operatorNotAllowed s!"{t.op.text} on {ent.name}.{name}"
  let cols := ",".intercalate t.cols
  refuse (t.ps = []) .emptyIn s!"{ent.name}({cols})"
  refuse (t.ps.length % t.cols.length ≠ 0) .irInvalid
    s!"{t.op.text}: {t.ps.length} values for {t.cols.length} columns"

def fulltext (ent : Entity) (t : Test) (hasSub : Bool) : Except Failure PUnit := do
  refuse (t.cols = [] ∨ t.p = none ∨ t.column ≠ none ∨ t.ps ≠ [] ∨ t.ref ≠ none ∨ t.fn ≠ none ∨
    t.value ≠ none ∨ hasSub = true) .irInvalid s!"{t.op.text} takes cols and p only"
  t.cols.forM fun name => do
    let c ← knownColumn ent ent.name name
    refuse ((c.type ≠ .varchar ∧ c.type ≠ .text) ∨ c.stages ≠ []) .operatorNotAllowed
      s!"{t.op.text} on {ent.name}.{name}"

/-- A predicate on a function of the column. -/
def functionTest (ent : Entity) (t : Test) (column : String) (c : Field) (fn : Func) :
    Except Failure PUnit := do
  V.columnFunction ent c fn
  match t.op with
  | .eq | .notEq | .gt | .gte | .lt | .lte =>
    refuse (t.p = none) .irInvalid s!"{t.op.text} needs a value (p)"
  | .in_ | .notIn => refuse (t.ps = []) .emptyIn s!"{ent.name}.{column}"
  | .between => refuse (t.ps.length ≠ 2) .irInvalid "between needs 2 params (ps)"
  | op => fail .operatorNotAllowed s!"{op.text} with a column function"

/-- A predicate that compares a column with a function of the clock. -/
def clockTest (ent : Entity) (t : Test) (column : String) (c : Field) (fn : Func) :
    Except Failure PUnit := do
  refuse (!isValueFunction fn.name) .functionUnknown fn.name.text
  refuse (c.type ≠ .date ∧ c.type ≠ .datetime) .operatorNotAllowed
    s!"{fn.name.text} on {ent.name}.{column} ({c.type.name})"
  let want := if (valueFunctionUnit fn.name).isSome then 1 else 0
  refuse (fn.ps.length ≠ want) .irInvalid s!"{fn.name.text} takes {want} arguments"
  refuse (t.p ≠ none ∨ t.ps ≠ []) .irInvalid "value function pred may not carry p or ps"
  refuse (!t.op.isOrdering) .operatorNotAllowed s!"{t.op.text} with a value function"
  V.params fn.ps

/-- A predicate that compares a column with values or with another column. -/
def plainTest (s : Scope) (ent : Entity) (t : Test) (column : String) (c : Field) :
    Except Failure PUnit := do
  refuse (!opAllowed c t.op) .operatorNotAllowed
    s!"{t.op.text} on {ent.name}.{column} ({c.type.name})"
  match t.op with
  | .isNull | .isNotNull => pure ⟨⟩
  | .in_ | .notIn => refuse (t.ps = []) .emptyIn s!"{ent.name}.{column}"
  | .between => refuse (t.ps.length ≠ 2) .irInvalid "between needs 2 params (ps)"
  | op =>
    if op.isColumn then match t.ref with
      | none => fail .irInvalid s!"{op.text} needs ref"
      | some r => do
        let other ← V.ref s r.path r.column
        refuse (!meets c other) .operatorNotAllowed
          s!"{ent.name}.{column} does not meet {r.path}.{r.column}"
        let pair := s!"{ent.name}.{column} ({c.type.name}) and {r.path}.{r.column}"
        refuse (!colPairOpAllowed c other op) .operatorNotAllowed
          s!"{op.text} on {pair} ({other.type.name})"
    else refuse (t.p = none) .irInvalid s!"{op.text} {ent.name}.{column} needs a value (p)"

/-- A predicate without a subquery. -/
def test (s : Scope) (ent : Entity) (t : Test) : Except Failure PUnit := do
  refuse (t.cols ≠ []) .irInvalid "cols is only valid with tuple_in or tuple_not_in"
  let column := t.column.getD ""
  let c ← knownColumn ent ent.name column
  match t.fn, t.value with
  | some _, some _ => fail .irInvalid "fn and value cannot be combined"
  | some fn, none => V.functionTest ent t column c fn
  | none, some fn => V.clockTest ent t column c fn
  | none, none => V.plainTest s ent t column c

/-- A predicate with a subquery, which `sub` checks. -/
def subTest (ent : Entity) (t : Test) (entity : String) (subColumn : Option String)
    (sub : Except Failure PUnit) : Except Failure PUnit := do
  refuse (t.cols ≠ []) .irInvalid "cols is only valid with tuple_in or tuple_not_in"
  let column := t.column.getD ""
  let compared ← knownColumn ent ent.name column
  refuse (t.op ≠ .in_ ∧ t.op ≠ .notIn) .irInvalid "subquery needs in or not_in"
  refuse (t.p ≠ none ∨ t.ps ≠ [] ∨ t.fn ≠ none ∨ t.value ≠ none) .irInvalid
    "subquery pred may not carry values"
  sub
  let target ← V.entity entity
  let name := subColumn.getD ""
  refuse ((fieldOf target name).any fun c => !meets compared c) .operatorNotAllowed
    s!"{ent.name}.{column} does not meet the subquery column {entity}.{name}"

/-- Whether the columns of a subquery and its limit make at most one row certain. -/
def scalarColumn (ent : Entity) (head : Head) : Except Failure PUnit := do
  let one := match head.limit with
    | some (.values _ count) => decide (count = 1)
    | _ => false
  refuse (!one) .irInvalid "a scalar column subquery needs limit with count 1"
  refuse (head.order.any (·.random)) .irInvalid "a scalar column subquery may not order by random"
  ent.primaryKey.forM fun pk => refuse (!head.order.any fun o => o.column = pk && o.fn = none)
    .irInvalid s!"a scalar column subquery needs an order that includes the primary key column {pk}"

/-- The members of a subquery besides its query. -/
def subHead (head : Head) (hasColumns hasRelations : Bool) (column : Option String) (agg : Agg)
    (scalar : Bool) : Except Failure PUnit := do
  let ent ← V.entity head.entity
  let name := column.getD ""
  match agg with
  | .none => refuse (name = "") .irInvalid "subquery needs a column"
  | .sum | .avg => do
    refuse (!scalar) .irInvalid s!"{agg.text} subquery is only valid as a column"
    let c ← knownColumn ent ent.name name
    refuse (!c.type.isNumeric) .operatorNotAllowed
      s!"{agg.text} on {ent.name}.{name} ({c.type.name})"
  | .count => refuse (!scalar) .irInvalid "count subquery is only valid as a column"
  | .other s => fail .irInvalid s!"subquery agg \"{s}\""
  refuse (name ≠ "" ∧ fieldOf ent name = none) .columnUnknown s!"{ent.name}.{name}"
  let isScalarColumn := scalar && agg = .none
  refuse (hasRelations = true ∨ head.lock ≠ .none ∨ hasColumns = true ∨
    (head.limit ≠ none ∧ !isScalarColumn)) .irInvalid
    "subquery may not use limit, relations, lock or columns"
  if isScalarColumn then scalarColumn ent head

def projectionHead (ent : Entity) (entity : String) (mode : Mode) (add remove : List String)
    (fn : List (String × ColumnFunction)) : Except Failure PUnit := do
  match mode with
  | .other s => fail .irInvalid s!"columns.mode \"{s}\""
  | _ => pure ⟨⟩
  (add ++ remove).forM fun c => refuse (fieldOf ent c = none) .columnUnknown s!"{entity}.{c}"
  fn.forM fun x => do
    refuse ((fieldOf ent x.1).isSome = true ∨ 1 < (fn.map Prod.fst).count x.1) .columnAliasConflict
      s!"{entity}.{x.1} is already a row name"
    let col ← knownColumn ent entity x.2.column
    V.columnFunction ent col x.2.fn

/-- The members of a join besides its query. -/
def joinHead (ent : Entity) (seen : List String) (rel : String) (kind : JoinKind)
    (entity : String) (left right : Option String) : Except Failure PUnit := do
  match kind with
  | .other s => fail .irInvalid s!"join kind \"{s}\""
  | _ => pure ⟨⟩
  refuse (rel = "" ∨ rel ∈ seen) .irInvalid s!"join name \"{rel}\" is empty or used twice"
  let left := left.getD ""
  let right := right.getD ""
  refuse (left = "" ∨ right = "") .irInvalid s!"join {rel}: left, right and query are required"
  let target ← V.entity entity
  let lcol ← knownColumn ent ent.name left
  let rcol ← knownColumn target target.name right
  refuse (!meets lcol rcol) .operatorNotAllowed
    s!"join {rel}: {ent.name}.{left} does not meet {target.name}.{right}"

/-- The key columns of a relation; no column is in two of them. -/
def relationKeys (ent target : Entity) (entity rel : String) (keys : List KeyPair) :
    Except Failure PUnit :=
  (keys.mapIdx fun i k => (i, k)).forM fun x => do
    let k := x.2
    refuse (k.left = "" ∨ k.right = "") .irInvalid
      s!"relation {rel}: every key needs left and right"
    let left ← knownColumn ent entity k.left
    let right ← knownColumn target target.name k.right
    refuse (!meets left right) .operatorNotAllowed
      s!"relation {rel}: {entity}.{k.left} does not meet {target.name}.{k.right}"
    let before := keys.take x.1
    refuse (k.left ∈ before.map KeyPair.left ∨ k.right ∈ before.map KeyPair.right) .irInvalid
      s!"relation {rel}: key column {k.left} or {k.right} is used twice"

/-- The members of a relation besides its query. -/
def relationHead (ent : Entity) (entity : String) (seen : List String) (rel : String)
    (head : Head) (kind : RelationKind) (keys : List KeyPair) : Except Failure PUnit := do
  refuse (rel = "" ∨ rel ∈ seen) .columnAliasConflict
    s!"relation name \"{rel}\" is empty or used twice"
  refuse ((fieldOf ent rel).isSome = true) .columnAliasConflict s!"{entity}.{rel} is already a column"
  refuse (keys = [] ∨ (kind ≠ .one ∧ kind ≠ .many)) .irInvalid
    s!"relation {rel}: keys and kind one|many are required"
  let target ← V.entity head.entity
  relationKeys ent target entity rel keys
  refuse (head.limit ≠ none) .limitInRelation s!"{rel}: use limit_per_parent"
  refuse (head.flatten = true ∧ kind ≠ .one) .irInvalid
    s!"relation {rel}: flatten needs a one relation"
  refuse (head.keyBy ≠ "" ∧ kind ≠ .many) .irInvalid s!"relation {rel}: key_by needs a many relation"
  head.ifParent.toList.forM fun i =>
    refuse (fieldOf ent i.column = none) .columnUnknown s!"{entity}.{i.column} (if_parent)"

def orderItem (ent : Entity) (entity : String) (o : Order) : Except Failure PUnit := do
  refuse (o.column ≠ "" ↔ o.random = true) .irInvalid "order needs exactly one of column, random"
  if o.column ≠ "" then do
    let col ← knownColumn ent entity o.column
    match o.fn with
    | some fn => V.columnFunction ent col fn
    | none => pure ⟨⟩
  else refuse (o.fn ≠ none) .irInvalid "order function needs a column"

def limit : Limit → Except Failure PUnit
  | .params offset count => refuse (!isSafe offset ∨ !isSafe count ∨ offset < 0 ∨ V.n ≤ offset ∨
      count < 0 ∨ V.n ≤ count) .irInvalid "limit parameter indexes must be in range"
  | .values offset count => refuse (!isSafe offset ∨ !isSafe count ∨ offset < 0 ∨ count ≤ 0)
      .irInvalid "limit offset>=0, count>0"

/-- The members of a query that its columns, groups, joins and relations do not hold. -/
def queryTail (ent : Entity) (head : Head) (isJoin isRelation isRoot : Bool) :
    Except Failure PUnit := do
  if head.keyBy ≠ "" then do
    let c ← knownColumn ent head.entity head.keyBy
    refuse (c.nullable = true) .irInvalid s!"key_by {head.keyBy} is nullable"
  V.params (head.ifParent.toList.map IfParent.p)
  refuse (!isRelation ∧ (head.keyBy ≠ "" ∨ head.flatten = true ∨ 0 < head.limitPerParent ∨
    head.ifParent ≠ none ∨ head.noCascadeDelete = true)) .irInvalid
    s!"relation-only options on {head.entity}"
  head.order.forM (V.orderItem ent head.entity)
  let groupBy := head.groupBy.getD []
  groupBy.forM fun g => refuse (fieldOf ent g = none) .columnUnknown s!"{head.entity}.{g}"
  if groupBy ≠ [] then do
    refuse (!isRoot) .irInvalid "group_by is only valid on the request's root query"
    head.order.forM fun o => refuse (o.column ≠ "" ∧ o.column ∉ groupBy) .irInvalid
      s!"order by {o.column}, which is not a group column"
  head.limit.toList.forM V.limit
  refuse (head.lock ≠ .none ∧ lockSuffix head.lock = none) .irInvalid
    s!"lock \"{head.lock.text}\": want update, share, update_nowait or share_nowait"
  refuse (head.lock ≠ .none ∧ (isJoin = true ∨ head.groupBy ≠ none ∨ 0 < head.limitPerParent))
    .irInvalid ("row lock is only valid on a root row select or a relation step without " ++
      "limit_per_parent or group_by")
  refuse (head.forceIndex ≠ "" ∧ head.forceIndex ∉ ent.indexes) .indexUnknown
    s!"{head.entity}.{head.forceIndex}"

/-- A top-level group is not negated and has no connective. -/
def topGroup : Option Group → Except Failure PUnit
  | none => pure ⟨⟩
  | some g => refuse (g.conn ≠ .none) .irInvalid
      s!"the top-level group takes no conn (\"{g.conn.text}\")"

/-- The connective of the `i`-th item of a group. -/
def itemConn (i : Nat) (conn : Conn) : Except Failure PUnit := do
  match conn with
  | .other s => fail .irInvalid s!"conn \"{s}\""
  | _ => pure ⟨⟩
  refuse (i = 0 ∧ conn = .or) .orAtGroupStart "a group may not start with OR"
  refuse (i = 0 ∧ conn ≠ .none) .irInvalid
    s!"the first item of a group takes no conn (\"{conn.text}\")"

/-- An item that places the where group of a join. -/
def joinedItem (joins : List Join) (rel : String) : Except Failure PUnit :=
  match joinNamed joins rel with
  | none => fail .entityNotJoined s!"{rel} is not joined in this statement"
  | some j => refuse (((j.query.where_.map Group.items).getD []).isEmpty = true) .irInvalid
      s!"joined {rel} has no conditions"

/-- The entity of the place that a predicate stands in. -/
def scopeEntity (s : Scope) : Except Failure Entity :=
  match entityOf V.m s.q.entity with
  | some ent => pure ent
  | none => fail .irInvalid s!"scope {s.q.entity} has no entity"

/-- A predicate; `sub` is the check of its subquery with the entity and column of it. -/
def predicate (s : Scope) (t : Test)
    (sub : Option (String × Option String × Except Failure PUnit)) : Except Failure PUnit := do
  let ent ← V.scopeEntity s
  V.params t.ps
  V.params t.p.toList
  match t.op, sub with
  | .tupleIn, _ | .tupleNotIn, _ => tuple ent t
  | .fulltext, _ | .fulltextBoolean, _ => fulltext ent t sub.isSome
  | _, none => V.test s ent t
  | _, some (entity, column, check) => V.subTest ent t entity column check

end Validator

mutual
/-- The joins that a group places, from left to right. -/
def joinedRefs : Group → List String
  | .mk _ _ items => joinedRefsItems items
def joinedRefsItems : List Item → List String
  | [] => []
  | .mk _ group joined :: items =>
    joined.toList.map JoinedReference.join ++ joinedRefsGroup group ++ joinedRefsItems items
def joinedRefsGroup : Option Group → List String
  | none => []
  | some g => joinedRefs g
end

/-- Each join that a group places appears once. -/
def placedOnce (g : Group) : Except Failure PUnit :=
  ((joinedRefs g).mapIdx fun i rel => (i, rel)).forM fun x =>
    refuse (x.2 ∈ (joinedRefs g).take x.1) .irInvalid s!"joined {x.2} is placed twice"

namespace Validator
variable (V : Validator)

mutual
def query (s : Scope) (isJoin isRelation isRoot : Bool) : Query → Except Failure PUnit
  | .mk head columns on where_ joins relations => do
    let ent ← V.entity head.entity
    projection s ent head.entity columns
    queryJoins s ent [] joins
    refuse (!isJoin ∧ on.isSome = true) .irInvalid "on[] is only valid on join children"
    refuse ((on.map Group.not).getD false = true ∨ (where_.map Group.not).getD false = true)
      .irInvalid "not applies to a nested group"
    topGroup on
    topGroup where_
    optGroup s joins on
    optGroup s joins where_
    where_.toList.forM placedOnce
    queryRelations ent head.entity [] relations
    V.queryTail ent head isJoin isRelation isRoot
  termination_by structural x => x
def projection (s : Scope) (ent : Entity) (entity : String) : Option Projection → Except Failure PUnit
  | none => pure ⟨⟩
  | some (.mk mode add remove fn sub) => do
    V.projectionHead ent entity mode add remove fn
    namedSubs s ent entity (fn.map Prod.fst) sub
  termination_by structural x => x
def namedSubs (s : Scope) (ent : Entity) (entity : String) (outputs : List String) :
    List NamedSub → Except Failure PUnit
  | [] => pure ⟨⟩
  | .mk name sub :: subs => do
    refuse ((fieldOf ent name).isSome = true ∨ name ∈ outputs) .columnAliasConflict
      s!"{entity}.{name} is already a row name"
    subquery s true sub
    namedSubs s ent entity (name :: outputs) subs
  termination_by structural x => x
def subquery (outer : Scope) (scalar : Bool) : Subquery → Except Failure PUnit
  | .mk q column agg => do
    V.subHead q.head q.columns.isSome (!q.relations.isEmpty) column agg scalar
    query { rootScope q "" with outer := some outer } false false false q
  termination_by structural x => x
def queryJoins (s : Scope) (ent : Entity) (seen : List String) : List Join → Except Failure PUnit
  | [] => pure ⟨⟩
  | .mk rel kind q left right :: rest => do
    V.joinHead ent seen rel kind q.entity left right
    query (joinScope s (.mk rel kind q left right)) true false false q
    queryJoins s ent (rel :: seen) rest
  termination_by structural x => x
def optGroup (s : Scope) (joins : List Join) : Option Group → Except Failure PUnit
  | none => pure ⟨⟩
  | some g => group s joins g
  termination_by structural x => x
def group (s : Scope) (joins : List Join) : Group → Except Failure PUnit
  | .mk _ _ items => groupItems s joins 0 items
  termination_by structural x => x
def groupItems (s : Scope) (joins : List Join) (i : Nat) : List Item → Except Failure PUnit
  | [] => pure ⟨⟩
  | it :: items => do
    groupItem s joins i it
    groupItems s joins (i + 1) items
  termination_by structural x => x
def groupItem (s : Scope) (joins : List Join) (i : Nat) : Item → Except Failure PUnit
  | .mk (some pred) none none => do
    itemConn i pred.test.conn
    predicateItem s pred
  | .mk none (some g) none => do
    itemConn i g.conn
    refuse (g.items.isEmpty = true) .irInvalid "empty group"
    group s joins g
  | .mk none none (some joined) => do
    itemConn i joined.conn
    joinedItem joins joined.join
  | _ => fail .irInvalid "where item must be exactly one of pred/group/joined"
  termination_by structural x => x
def predicateItem (s : Scope) : Predicate → Except Failure PUnit
  | .mk test none => V.predicate s test none
  | .mk test (some sub) => V.predicate s test
      (some (sub.query.entity, sub.column, subquery s false sub))
  termination_by structural x => x
def queryRelations (ent : Entity) (entity : String) (seen : List String) :
    List Relation → Except Failure PUnit
  | [] => pure ⟨⟩
  | .mk rel q kind keys :: rest => do
    V.relationHead ent entity seen rel q.head kind keys
    query (rootScope q "") false true false q
    queryRelations ent entity (rel :: seen) rest
  termination_by structural x => x
end

/-- One assignment of a write request. -/
def assign (ent : Entity) (entity : String) (a : Assignment) : Except Failure PUnit := do
  let c ← knownColumn ent entity a.column
  let n := [a.p.isSome, a.null, a.plusP.isSome, a.minusP.isSome].count true
  refuse (n ≠ 1) .irInvalid s!"set {a.column}: exactly one of p/null/plus_p/minus_p"
  refuse (a.null = true ∧ c.nullable = false) .irInvalid
    s!"set {entity}.{a.column} to null but column is NOT NULL"
  refuse (a.column = ent.auditColumn) .irInvalid
    s!"{entity}.{a.column} is written by the executor from the audit of the transaction"
  refuse ((a.plusP ≠ none ∨ a.minusP ≠ none) ∧ !c.type.isNumeric) .operatorNotAllowed
    s!"plus/minus on {entity}.{a.column} ({c.type.name})"
  V.params (a.p.toList ++ a.plusP.toList ++ a.minusP.toList)

end Validator

/-- The columns that the assignments of an insert give a value: the blind index of an assigned
AES column among them. -/
def assignedColumns (ent : Entity) (set : List Assignment) : List String :=
  ent.fields.foldl (fun assigned f =>
    if f.blindIndex ≠ "" ∧ f.name ∈ assigned then assigned ++ [f.blindIndex] else assigned)
    (set.map Assignment.column)

/-- The one key that an insert with on_duplicate conflicts on. -/
def conflictKey (ent : Entity) (set : List Assignment) : Except Failure (List String) := do
  let assigned := assignedColumns ent set
  let listed (columns : List String) : String := ", ".intercalate columns
  let key : List (String × List String) :=
    if ent.primaryKey.any (assigned.contains ·) then
      [("primary key (" ++ listed ent.primaryKey ++ ")", ent.primaryKey)] else []
  let candidates := key ++ ent.uniques.map fun u => ("unique (" ++ listed u ++ ")", u)
  match candidates with
  | [] => fail .irInvalid "on_duplicate needs exactly one conflict key; no key can meet the row"
  | [candidate] => match candidate.2.find? fun c => !assigned.contains c with
    | none => pure candidate.2
    | some missing =>
      let what := s!"{candidate.1} can meet the row but the insert does not assign {missing}"
      fail .irInvalid s!"on_duplicate needs exactly one conflict key; {what}"
  | _ =>
    let names := listed (candidates.map Prod.fst)
    fail .irInvalid s!"on_duplicate needs exactly one conflict key; {names} can meet the row"

def Item.conn : Item → Conn
  | .mk (some p) _ _ => p.test.conn
  | .mk none (some g) _ => g.conn
  | .mk none none (some j) => j.conn
  | .mk none none none => .none

/-- The column that an item compares with a parameter for equality. -/
def Item.eqColumn : Item → Option String
  | .mk (some (.mk t none)) _ _ =>
    if t.op = .eq ∧ t.p.isSome = true ∧ t.fn = none ∧ t.value = none ∧ t.ref = none
    then some (t.column.getD "") else none
  | _ => none

/-- The parts of a restore request: its key, its conditions and its new values. -/
structure RestoreParts where
  key : List String
  where_ : Group
  set : List Assignment

/-- The condition that a set value of a key column becomes. -/
def eqItem (first : Bool) (column : String) (p : Int) : Item :=
  .mk (some (.mk ⟨if first then .none else .and, some column, .eq, some p, [], none, none, none, []⟩
    none)) none none

/-- The set values of a restore that are not values of its key, and the conditions of those
that are. -/
def restoreSet (ent : Entity) (key : List String) :
    List Assignment → List Item → Except Failure (List Item × List Assignment)
  | [], items => pure (items, [])
  | a :: set, items => match a.p, key.contains a.column with
    | some p, true => restoreSet ent key set (items ++ [eqItem items.isEmpty a.column p])
    | _, _ => do
      let c ← knownColumn ent ent.name a.column
      refuse (c.primary = true ∨ c.identity = true ∨ a.column = ent.softDelete) .irInvalid
        s!"restore cannot assign {a.column}"
      let (items, rest) ← restoreSet ent key set items
      pure (items, a :: rest)

/-- The parts of a restore request; its conditions are joined by and. -/
def restoreKey (ent : Entity) (r : Request) : Except Failure RestoreParts := do
  refuse (ent.softDelete = "") .irInvalid s!"restore of {ent.name}, which has no soft_delete setting"
  let items := (r.query.where_.map Group.items).getD []
  refuse ((items.drop 1).any fun it => it.conn = .or) .irInvalid
    s!"restore of {ent.name} joins the conditions of its where with and"
  let valued := items.filterMap Item.eqColumn ++
    (r.set.filter fun a => a.p.isSome).map Assignment.column
  let covered (columns : List String) : Bool :=
    !columns.isEmpty && columns.all (valued.contains ·)
  let uniques ← (ent.uniques.mapIdx fun i columns => (i, columns)).mapM fun x =>
    match ent.indexes.toArray[x.1]? with
    | some name => pure (name, x.2)
    | none => fail .irInvalid s!"{ent.name} has no index name for unique key {x.1 + 1}"
  let none_ := s!"restore of {ent.name} gives no primary key or unique key a value in its set or"
  let key ← if covered ent.primaryKey then pure ent.primaryKey
    else match (sortedEntries Prod.fst uniques).find? fun u => covered u.2 with
    | some u => pure u.2
    | none => fail .irInvalid s!"{none_} in an eq condition of its where"
  let (items, set) ← restoreSet ent key r.set items
  pure ⟨key, .mk .none false items, set⟩

def Kind.isWrite : Kind → Bool
  | .insert | .update | .delete | .restore | .restartIdentity => true
  | _ => false

def Kind.text : Kind → String
  | .one => "one" | .all => "all" | .count => "count" | .groupCount => "group_count"
  | .sum => "sum" | .avg => "avg" | .paginate => "paginate" | .insert => "insert"
  | .update => "update" | .delete => "delete" | .restore => "restore"
  | .restartIdentity => "restart_identity"

/-- The assignments of a write request. -/
def validateSet (V : Validator) (ent : Entity) (r : Request) : Except Failure PUnit := do
  let entity := r.query.entity
  refuse (r.set = [] ∧ r.kind ≠ .restore) .irInvalid s!"{r.kind.text} needs set[]"
  r.set.forM fun a => do
    V.assign ent entity a
    refuse (r.kind = .insert ∧ (a.plusP ≠ none ∨ a.minusP ≠ none)) .irInvalid
      s!"insert cannot assign {a.column} by plus or minus"
    if r.kind = .update then do
      let c ← knownColumn ent entity a.column
      refuse (c.primary = true ∨ c.identity = true) .irInvalid s!"cannot update {a.column}"

/-- The additional rows of an insert. -/
def validateRows (V : Validator) (r : Request) : Except Failure PUnit := do
  refuse (r.kind ≠ .insert ∨ r.onDuplicate ≠ []) .irInvalid
    "rows are only valid on insert without on_duplicate"
  r.set.forM fun a => refuse (a.p = none) .irInvalid
    s!"multi-row insert assigns {r.query.entity}.{a.column} without a value"
  (r.rows.mapIdx fun i row => (i, row)).forM fun x => do
    refuse (x.2.length ≠ r.set.length) .irInvalid
      s!"insert row {x.1 + 1} has {x.2.length} values for {r.set.length} columns"
    V.params x.2

def validateOnDuplicate (V : Validator) (ent : Entity) (r : Request) : Except Failure PUnit := do
  refuse (r.kind ≠ .insert) .irInvalid "on_duplicate is only valid on insert"
  r.onDuplicate.forM fun a => do
    V.assign ent r.query.entity a
    let c ← knownColumn ent r.query.entity a.column
    refuse (c.primary = true ∨ c.identity = true) .irInvalid
      s!"on_duplicate cannot assign {r.query.entity}.{a.column}"
  let _ ← conflictKey ent r.set

/-- The request members that are checked before the query. -/
def validateHead (m : RuntimeModel) (r : Request) : Except Failure PUnit := do
  refuse (r.irVersion ≠ 1) .versionMismatch s!"ir_version {r.irVersion}, engine 1"
  refuse (r.manifestHash ≠ m.manifestHash) .schemaHashMismatch
    s!"client {r.manifestHash}, engine {m.manifestHash}"
  (entityOf m r.query.entity).toList.forM fun target =>
    refuse (target.external = true ∧ r.kind.isWrite = true) .config
      s!"{target.table} is owned by another document set"
  refuse (r.load = true ∧ (r.kind ≠ .insert ∨ r.onDuplicate ≠ [])) .irInvalid
    "load is only valid on insert without on_duplicate"
  refuse (r.kind = .restartIdentity ∧ (r.set ≠ [] ∨ r.rows ≠ [] ∨ r.onDuplicate ≠ [] ∨
    r.query.where_.isSome = true ∨ r.optimistic ≠ none)) .irInvalid
    "restart_identity takes no set, rows, on_duplicate, where or optimistic"

/-- The aggregate and the grouping of a read request. -/
def validateAggregate (ent : Entity) (r : Request) : Except Failure PUnit := do
  if r.kind = .sum ∨ r.kind = .avg then do
    let c ← knownColumn ent r.query.entity r.agg
    refuse (!c.type.isNumeric) .operatorNotAllowed
      s!"{r.kind.text} on {r.query.entity}.{r.agg} ({c.type.name})"
  refuse (r.kind = .groupCount ∧ !r.query.hasGroupBy) .irInvalid "group_count needs group_by"
  refuse (r.query.hasGroupBy = true ∧ r.kind ≠ .count ∧ r.kind ≠ .groupCount) .irInvalid
    s!"group_by is only valid on count or group_count, not {r.kind.text}"

/-- The assignments and rows of a write request. -/
def validateWrite (V : Validator) (ent : Entity) (r : Request) : Except Failure PUnit := do
  if r.kind = .insert ∨ r.kind = .update ∨ r.kind = .restore then validateSet V ent r
  if r.rows ≠ [] then validateRows V r
  if r.onDuplicate ≠ [] then validateOnDuplicate V ent r

def validateOptimistic (V : Validator) (ent : Entity) (r : Request) : Except Failure PUnit :=
  r.optimistic.toList.forM fun o => do
    refuse (fieldOf ent o.column = none) .columnUnknown s!"{r.query.entity}.{o.column}"
    V.params [o.p]

def validateRestore (ent : Entity) (r : Request) : Except Failure PUnit := do
  if r.kind = .restore then do
    refuse (r.optimistic ≠ none) .irInvalid "restore takes no optimistic"
    let _ ← restoreKey ent r

/-- The request members that are checked after the query. -/
def validateTail (V : Validator) (r : Request) : Except Failure PUnit := do
  refuse (r.query.head.lock ≠ .none ∧ r.kind ≠ .one ∧ r.kind ≠ .all) .irInvalid
    "row lock is only valid on one or all"
  let ent ← V.entity r.query.entity
  validateAggregate ent r
  validateWrite V ent r
  validateOptimistic V ent r
  refuse ((r.kind = .update ∨ r.kind = .delete) ∧
    ((r.query.where_.map Group.items).getD []).isEmpty = true) .irInvalid
    s!"{r.kind.text} without where"
  validateRestore ent r

/-- Checks a request against the model. -/
def validate (m : RuntimeModel) (r : Request) : Except Failure PUnit := do
  validateHead m r
  let V : Validator := ⟨m, r.nParams⟩
  V.query (rootScope r.query "") false false true r.query
  validateTail V r

end Orm.Engine
