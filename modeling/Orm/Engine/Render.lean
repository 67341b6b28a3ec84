import Orm.Engine.Predicate

/-! The rendering of groups, joins and subqueries. A place that the source reaches through a
scope is reached here through the query that the scope holds, so the recursion follows the
request. -/
namespace Orm.Engine

open Orm.Sql (Tok Text)
open Orm.Sql.Text (commaSep joined andSep)

mutual
/-- The joins that a group places. -/
def placedJoins : Group → List String
  | .mk _ _ items => placedJoinsItems items
def placedJoinsItems : List Item → List String
  | [] => []
  | it :: items => placedJoinsItem it ++ placedJoinsItems items
def placedJoinsItem : Item → List String
  | .mk _ group joined => (match joined with
      | some j => [j.join]
      | none => []) ++ placedJoinsGroup group
def placedJoinsGroup : Option Group → List String
  | none => []
  | some g => placedJoins g
end

/-- The joins that the where group of a query places. -/
def placedIn (where_ : Option Group) : List String := placedJoinsGroup where_

mutual
/-- Whether every entity of a query and of its joins is in the model. -/
def buildScopes (m : RuntimeModel) : Query → Except Failure PUnit
  | .mk head _ _ _ joins _ => do
    let _ ← present (entityOf m head.entity) s!"entity {head.entity}"
    buildJoinScopes m joins
def buildJoinScopes (m : RuntimeModel) : List Join → Except Failure PUnit
  | [] => pure ⟨⟩
  | .mk _ _ q _ _ :: joins => do
    buildScopes m q
    buildJoinScopes m joins
end

namespace Planner
variable (P : Planner)

/-- The order items of one scope. -/
def orderItems (s : Scope) (order : List Order) : Except Failure (List Text) :=
  order.mapM fun o => do
    if o.random then pure P.d.random
    else
      let target ← match o.fn with
        | some fn => P.columnFunction s o.column fn
        | none => pure (P.qcol s o.column)
      let ent ← P.entOf s
      let col ← columnIn ent o.column
      pure (target ++ [.word (if o.desc then "DESC" else "ASC")] ++
        if col.nullable then P.d.nullsOrder o.desc else [])

mutual
def orderParts (s : Scope) : Query → Except Failure (List Text)
  | .mk head _ _ _ joins _ => do
    let own ← P.orderItems s head.order
    let nested ← joinOrderParts s joins
    pure (own ++ nested)
def joinOrderParts (s : Scope) : List Join → Except Failure (List Text)
  | [] => pure []
  | .mk rel kind q left right :: joins => do
    let own ← orderParts (joinScope s (.mk rel kind q left right)) q
    let rest ← joinOrderParts s joins
    pure (own ++ rest)
end

/-- The ORDER BY of a query and its joins. -/
def renderOrder (s : Scope) (q : Query) : Except Failure Text := do
  let parts ← P.orderParts s q
  pure (if parts.isEmpty then [] else .word "ORDER BY" :: commaSep parts)

/-- The conditions that a soft delete adds for a place. -/
def softDeleteConditions (s : Scope) (ent : Entity) : List Text :=
  if ent.softDelete = "" then [] else [P.qcol s ent.softDelete ++ [.word "IS", .word "NULL"]]

def limitText (limit : Limit) : Except Failure Text :=
  match limit with
  | .params _ _ => fail .irInvalid "only the root page limit may use parameter slots"
  | .values offset count =>
    pure (P.d.limit [.word (toString offset)] [.word (toString count)])

def aggregateText (col : Text) : Agg → Text
  | .sum => [.call "COALESCE" [.call "SUM" col, .comma, .word "0"]]
  | .avg => [.call "AVG" col]
  | .count => [.call "COUNT" [.word "*"]]
  | _ => col

/-- The output column of a subquery. -/
def subOutput (root : Scope) (column : Option String) (agg : Agg) : Except Failure Text :=
  if agg = .count then pure (aggregateText [] agg)
  else do
    let column ← present column s!"the column of a subquery of {root.q.entity}"
    pure (aggregateText (P.qcol root column) agg)

/-- The order and the limit of a scalar column subquery. -/
def subPage (root : Scope) (agg : Agg) : Except Failure Text :=
  match agg, root.q.head.limit with
  | .none, some limit => do
    let limit ← P.limitText limit
    let order ← P.renderOrder root root.q
    pure (order ++ limit)
  | _, _ => pure []

/-- The WHERE clause of the conditions. -/
def whereClause (conditions : List Text) : Text :=
  if conditions.isEmpty then [] else .word "WHERE" :: andSep conditions

/-- The text of a group whose items read `out`. -/
def groupText (top not : Bool) (out : Text) : Text :=
  let grouped := if top then out else [.paren out]
  if not then .word "NOT" :: grouped else grouped

mutual
/-- A group; `top` omits the outer parentheses. `placed` renders the where group of a join. -/
def renderGroup (placed : String → Build Text) (s : Scope) (top : Bool) : Group → Build Text
  | .mk _ not items => do
    let items ← renderItems placed s items
    pure (groupText top not (joined items))
def renderItems (placed : String → Build Text) (s : Scope) :
    List Item → Build (List (Bool × Text))
  | [] => pure []
  | it :: items => do
    let x ← renderItem placed s it
    let xs ← renderItems placed s items
    pure (x :: xs)
def renderItem (placed : String → Build Text) (s : Scope) : Item → Build (Bool × Text)
  | .mk (some pred) _ _ => do
    let text ← renderPred s pred
    pure (pred.test.conn = .or, text)
  | .mk none (some group) _ => do
    let text ← renderGroup placed s false group
    pure (group.conn = .or, text)
  | .mk none none (some joined) => do
    let text ← placed joined.join
    pure (joined.conn = .or, text)
  | .mk none none none => present none "a where item of pred, group or joined"
def renderPred (s : Scope) : Predicate → Build Text
  | .mk test none => P.renderTest s test none
  | .mk test (some sub) => P.renderTest s test (some (subSelect s sub))
/-- A group of conditions as one more condition, unless it is absent or empty. -/
def renderWhere (placed : String → Build Text) (s : Scope) (top : Bool) :
    Option Group → Build (List Text)
  | none => pure []
  | some g => if g.items.isEmpty then pure [] else do
    let text ← renderGroup placed s top g
    pure [text]
/-- A subquery for an IN list or a scalar column. -/
def subSelect (outer : Scope) : Subquery → Build Text
  | .mk (.mk head columns on where_ joins relations) column agg => do
    let n ← Build.nextSub
    let q := Query.mk head columns on where_ joins relations
    buildScopes P.m q
    let root : Scope := { rootScope q s!"s{n}" with outer := some outer }
    let ent ← P.entOf root
    let out ← P.subOutput root column agg
    let table ← Build.table P.d ent
    let joinText ← renderJoins root joins
    let own ← renderWhere (placedOf root joins) root true where_
    let nested ← collectJoinWhere root (placedIn where_) joins
    let whereText := whereClause (P.softDeleteConditions root ent ++ own ++ nested)
    let page ← P.subPage root agg
    pure (.word "SELECT" :: out ++ .word "FROM" :: table ++
      [.word "AS", .ident (P.d.quote root.aliasName)] ++ joinText ++ whereText ++ page)
def renderJoins (s : Scope) : List Join → Build Text
  | [] => pure []
  | .mk rel kind (.mk head columns on where_ joins relations) left right :: rest => do
    let j := Join.mk rel kind (.mk head columns on where_ joins relations) left right
    let js := joinScope s j
    let left ← present left s!"the left column of join {rel}"
    let right ← present right s!"the right column of join {rel}"
    let ent ← P.entOf js
    let key := P.qcol s left ++ .word "=" :: P.qcol js right
    let table ← Build.table P.d ent
    let force := if head.forceIndex = "" then [] else P.d.forceIndex head.forceIndex
    let own ← renderWhere (placedOf js joins) js true on
    let text := andSep (key :: P.softDeleteConditions js ent ++ own)
    let nested ← renderJoins js joins
    let others ← renderJoins s rest
    pure (.word (if kind = .left then "LEFT JOIN" else "INNER JOIN") :: table ++
      [.word "AS", .ident (P.d.quote js.aliasName)] ++ force ++ .word "ON" :: text ++
      nested ++ others)
/-- The where group of each join and of its joins, unless a group places it. -/
def collectJoinWhere (s : Scope) (placed : List String) : List Join → Build (List Text)
  | [] => pure []
  | .mk rel kind (.mk head columns on where_ joins relations) left right :: rest => do
    let js := joinScope s (.mk rel kind (.mk head columns on where_ joins relations) left right)
    let own ← (if rel ∈ placed then pure [] else renderWhere (placedOf js joins) js false where_)
    let nested ← collectJoinWhere js (placedIn where_) joins
    let others ← collectJoinWhere s placed rest
    pure (own ++ nested ++ others)
/-- The where group of a join that an item places. -/
def placedOf (s : Scope) : List Join → String → Build Text
  | [], rel => present none s!"the scope of join {rel}"
  | .mk name kind (.mk head columns on where_ joins relations) left right :: rest, rel =>
    -- a map of joins keeps the last one of a name
    if (joinNamed rest rel).isSome || name ≠ rel then placedOf s rest rel
    else
      let js := joinScope s (.mk name kind (.mk head columns on where_ joins relations) left right)
      renderPlaced (placedOf js joins) js rel where_
def renderPlaced (placed : String → Build Text) (s : Scope) (rel : String) :
    Option Group → Build Text
  | none => present none s!"the where of joined {rel}"
  | some g => renderGroup placed s false g
end

end Planner

end Orm.Engine
