import Orm.Engine.Model

/-! Value-free requests. An enumeration of the source's texts keeps an `other` case for
the texts that only the validator refuses. -/
namespace Orm.Engine

inductive Kind where
  | one | all | count | groupCount | sum | avg | paginate
  | insert | update | delete | restore | restartIdentity
  deriving DecidableEq, Repr

/-- The connector of an item to the item before it; an omitted one is `none`. -/
inductive Conn where
  | none | and | or | other (s : String)
  deriving DecidableEq, Repr

inductive Op where
  | eq | notEq | gt | gte | lt | lte
  | eqCol | notEqCol | gtCol | gteCol | ltCol | lteCol
  | in_ | notIn | between | isNull | isNotNull | contains | containsBinary
  | tupleIn | tupleNotIn | fulltext | fulltextBoolean
  | other (s : String)
  deriving DecidableEq, Repr

inductive Unit where
  | second | minute | hour | day | month
  deriving DecidableEq, Repr

/-- The name of a column function, of a value function, or any other text. -/
inductive FuncName where
  | dayOfWeek | year | month | date
  | now | today | ago (unit : Unit) | later (unit : Unit)
  | other (s : String)
  deriving DecidableEq, Repr

structure Func where
  name : FuncName
  ps : List Int
  deriving DecidableEq, Repr

structure ColumnFunction where
  column : String
  fn : Func
  deriving DecidableEq, Repr

structure ColumnReference where
  path : String
  column : String
  deriving DecidableEq, Repr

structure JoinedReference where
  conn : Conn
  join : String
  deriving DecidableEq, Repr

structure Order where
  column : String
  desc : Bool
  random : Bool
  fn : Option Func
  deriving DecidableEq, Repr

/-- A page limit: literal values, or the indexes of two parameters. -/
inductive Limit where
  | values (offset count : Int)
  | params (offset count : Int)
  deriving DecidableEq, Repr

structure IfParent where
  column : String
  p : Int
  deriving DecidableEq, Repr

structure KeyPair where
  left : String
  right : String
  deriving DecidableEq, Repr

inductive Mode where
  | selected | all | none | other (s : String)
  deriving DecidableEq, Repr

inductive JoinKind where
  | inner | left | other (s : String)
  deriving DecidableEq, Repr

inductive RelationKind where
  | one | many | other (s : String)
  deriving DecidableEq, Repr

inductive Agg where
  | none | sum | avg | count | other (s : String)
  deriving DecidableEq, Repr

inductive RowLock where
  | none | update | share | updateNowait | shareNowait | other (s : String)
  deriving DecidableEq, Repr

/-- The members of a predicate besides its subquery. -/
structure Test where
  conn : Conn
  column : Option String
  op : Op
  p : Option Int
  ps : List Int
  ref : Option ColumnReference
  fn : Option Func
  value : Option Func
  cols : List String
  deriving DecidableEq, Repr

/-- The members of a query that hold no group and no other query. -/
structure Head where
  entity : String
  order : List Order
  groupBy : Option (List String)
  limit : Option Limit
  forceIndex : String
  lock : RowLock
  keyBy : String
  flatten : Bool
  limitPerParent : Int
  ifParent : Option IfParent
  noCascadeDelete : Bool
  deriving DecidableEq, Repr

mutual
inductive Query where
  | mk (head : Head) (columns : Option Projection) (on : Option Group) (where_ : Option Group)
      (joins : List Join) (relations : List Relation)
inductive Projection where
  | mk (mode : Mode) (add remove : List String) (fn : List (String × ColumnFunction))
      (sub : List NamedSub)
inductive NamedSub where
  | mk (name : String) (sub : Subquery)
inductive Group where
  | mk (conn : Conn) (not : Bool) (items : List Item)
inductive Item where
  | mk (pred : Option Predicate) (group : Option Group) (joined : Option JoinedReference)
inductive Predicate where
  | mk (test : Test) (sub : Option Subquery)
inductive Subquery where
  | mk (query : Query) (column : Option String) (agg : Agg)
inductive Join where
  | mk (rel : String) (kind : JoinKind) (query : Query) (left right : Option String)
inductive Relation where
  | mk (rel : String) (query : Query) (kind : RelationKind) (keys : List KeyPair)
end

namespace Query

def head : Query → Head
  | .mk h .. => h

def columns : Query → Option Projection
  | .mk _ c .. => c

def where_ : Query → Option Group
  | .mk _ _ _ w .. => w

def joins : Query → List Join
  | .mk _ _ _ _ js _ => js

def relations : Query → List Relation
  | .mk _ _ _ _ _ rs => rs

def entity (q : Query) : String := q.head.entity

def hasGroupBy (q : Query) : Bool := !(q.head.groupBy.getD []).isEmpty

end Query

namespace Group

def conn : Group → Conn
  | .mk c .. => c

def not : Group → Bool
  | .mk _ n _ => n

def items : Group → List Item
  | .mk _ _ items => items

end Group

namespace Projection

def mode : Projection → Mode
  | .mk m .. => m

def add : Projection → List String
  | .mk _ a .. => a

def remove : Projection → List String
  | .mk _ _ r .. => r

def fn : Projection → List (String × ColumnFunction)
  | .mk _ _ _ f _ => f

def sub : Projection → List NamedSub
  | .mk _ _ _ _ s => s

end Projection

namespace Join

def rel : Join → String
  | .mk r .. => r

def kind : Join → JoinKind
  | .mk _ k .. => k

def query : Join → Query
  | .mk _ _ q .. => q

end Join

namespace Relation

def rel : Relation → String
  | .mk r .. => r

def query : Relation → Query
  | .mk _ q .. => q

def kind : Relation → RelationKind
  | .mk _ _ k _ => k

def keys : Relation → List KeyPair
  | .mk _ _ _ ks => ks

end Relation

def Predicate.test : Predicate → Test
  | .mk t _ => t

def Predicate.sub : Predicate → Option Subquery
  | .mk _ s => s

def NamedSub.name : NamedSub → String
  | .mk n _ => n

def NamedSub.sub : NamedSub → Subquery
  | .mk _ s => s

def Subquery.query : Subquery → Query
  | .mk q .. => q

def Subquery.column : Subquery → Option String
  | .mk _ c _ => c

def Subquery.agg : Subquery → Agg
  | .mk _ _ a => a

structure Assignment where
  column : String
  p : Option Int
  null : Bool
  plusP : Option Int
  minusP : Option Int
  deriving DecidableEq, Repr

structure Optimistic where
  column : String
  p : Int
  deriving DecidableEq, Repr

structure Request where
  irVersion : Int
  manifestHash : String
  kind : Kind
  load : Bool
  query : Query
  set : List Assignment
  onDuplicate : List Assignment
  rows : List (List Int)
  optimistic : Option Optimistic
  agg : String
  nParams : Int

end Orm.Engine
