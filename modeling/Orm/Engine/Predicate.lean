import Orm.Engine.Build

/-! The rendering of one predicate and of the values that it binds. -/
namespace Orm.Engine

open Orm.Sql (Tok Text)
open Orm.Sql.Text (commaSep chain andSep)

def cmp : Op → Except Failure Text
  | .eq => pure [.word "="]
  | .notEq => pure [.word "!="]
  | .gt => pure [.word ">"]
  | .gte => pure [.word ">="]
  | .lt => pure [.word "<"]
  | .lte => pure [.word "<="]
  | op => .error (.plain s!"cmp: {op.text}")

/-- The comparison that a column comparison makes. -/
def Op.base : Op → Option Op
  | .eqCol => some .eq
  | .notEqCol => some .notEq
  | .gtCol => some .gt
  | .gteCol => some .gte
  | .ltCol => some .lt
  | .lteCol => some .lte
  | _ => none

/-- The index where the end of `list` that `sql` accepts at every stage begins. -/
def sqlStart (list : List Stage) (sql : Stage → Bool) : Nat :=
  list.length - (list.reverse.takeWhile sql).length

/-- The type of the value that a SQL-side stage takes from its placeholder. -/
def styleInputType (style : Stage) : FieldType := if style = .ip then .text else .bytes

/-- The columns of a list in rows of `n`. -/
def tupleRows {α : Type} (n : Nat) : List α → List (List α)
  | [] => []
  | a :: as =>
    if n = 0 then [] else (a :: as.take (n - 1)) :: tupleRows n (as.drop (n - 1))
  termination_by l => l.length
  decreasing_by
    simp only [List.length_drop, List.length_cons]
    omega

namespace Planner
variable (P : Planner)

def entity (name : String) : Except Failure Entity :=
  present (entityOf P.m name) s!"entity {name}"

def entOf (s : Scope) : Except Failure Entity := P.entity s.q.entity

def qcol (s : Scope) (col : String) : Text :=
  [.col (P.d.quote s.aliasName) (P.d.quote col)]

/-- The column of an entity, which the validator has checked. -/
def columnIn (ent : Entity) (name : String) : Except Failure Field :=
  present (fieldOf ent name) s!"column {ent.name}.{name}"

def sqlStyles (list : List Stage) : List Stage :=
  list.drop (sqlStart list P.d.handlesStage)

def readSqlStyles (list : List Stage) : List Stage :=
  list.drop (sqlStart list P.d.decodesStage)

def clientStyles (list : List Stage) : List Stage :=
  list.take (sqlStart list P.d.decodesStage)

/-- The stages that the executor applies to a bound value before the SQL-side stages. -/
def hostStyles (list : List Stage) : List Stage :=
  (list.take (sqlStart list P.d.handlesStage)).filter Stage.host

/-- A column read with its SQL-side read stages. -/
def readColumn (qcol : Text) (col : Field) : Text :=
  let expr := P.d.readExpr qcol (P.readSqlStyles col.stages)
  match col.type with
  | .uuid => P.d.readUuid expr
  | .time => P.d.readTime expr col.precision
  | _ => expr

/-- The SQL around the placeholder of a written value. -/
def writtenValue (col : Field) (ph : Text) : Text :=
  let sql := P.sqlStyles col.stages
  match sql.head?, col.type with
  | none, .time => P.d.writeTime ph
  | none, .uuid => P.d.writeUuid ph
  | _, _ => P.d.writeExpr ph sql

/-- Binds one value. -/
def renderValue (col : Field) (i : Int) : Build Text := do
  let sql := P.sqlStyles col.stages
  let ph ← match sql.head? with
    | none => Build.colParam P.d i col .none
    | some first => Build.param P.d i (styleInputType first)
  Build.setHostStyles ((P.hostStyles col.stages).map .stage)
  pure (P.writtenValue col ph)

/-- Binds plaintext that the executor hashes with the blind index key. -/
def renderBlindIndexValue (index : Field) (i : Int) : Build Text := do
  let ph ← Build.param P.d i index.type
  Build.setHostStyles [.blindIndex]
  pure ph

def columnFunction (s : Scope) (column : String) (f : Func) : Except Failure Text :=
  match P.d.columnFunction f.name (P.qcol s column) with
  | some text => pure text
  | none => fail .capabilityUnsupported s!"{f.name.text} is not available on {P.d.name}"

/-- The two values of a between predicate. -/
def between (t : Test) : Except Failure (Int × Int) :=
  match t.ps with
  | low :: high :: _ => pure (low, high)
  | _ => fail .irInvalid "between needs 2 params (ps)"

def inWords (negate : Bool) : Text := if negate then [.word "NOT", .word "IN"] else [.word "IN"]

/-- A predicate over tuples of columns. -/
def renderTuple (s : Scope) (ent : Entity) (t : Test) : Build Text := do
  let cols ← t.cols.mapM fun name => (columnIn ent name : Build Field)
  let rows ← (tupleRows t.cols.length t.ps).mapM fun row => do
    if row.length < cols.length then
      throw (.plain s!"value {t.ps.length + 1} of {t.op.text} is missing")
    (cols.zip row).mapM fun x => P.renderValue x.1 x.2
  pure (P.d.tupleIn (t.cols.map (P.qcol s)) rows (t.op = .tupleNotIn))

def renderFulltext (s : Scope) (ent : Entity) (t : Test) : Build Text := do
  let value (transform : Transform) : Build Text := do
    let p ← present t.p s!"the value of {t.op.text}"
    Build.transformed P.d p transform
  let sql ← P.d.fulltext (t.cols.map (P.qcol s)) value (t.op = .fulltextBoolean)
  match sql with
  | some text => pure text
  | none => fail .operatorNotAllowed s!"{t.op.text} on {ent.name}"

/-- The column compared with a function of the clock. -/
def renderClock (s : Scope) (t : Test) (column : String) (col : Field) (fn : Func) :
    Build Text := do
  let arg : Build Text := do
    let i ← present fn.ps.head? s!"the argument of {fn.name.text}"
    Build.param P.d i (intervalType fn.name)
  let value ← P.d.valueFunction fn.name arg (Build.now P.d 6)
  match value with
  | none => fail .capabilityUnsupported s!"{fn.name.text} is not available on {P.d.name}"
  | some value =>
    let lhs := P.qcol s column
    let lhs := if col.type = .datetime ∧ fn.name ≠ .today then P.d.clockOperand lhs col.precision
      else lhs
    pure (lhs ++ (← cmp t.op) ++ value)

/-- A function of the column compared with values. -/
def renderFunction (s : Scope) (t : Test) (column : String) (col : Field) (f : Func) :
    Build Text := do
  let fn ← P.columnFunction s column f
  let type := functionType f.name col.type
  match t.op with
  | .in_ | .notIn =>
    let values ← t.ps.mapM fun i => Build.param P.d i type
    pure (fn ++ inWords (t.op = .notIn) ++ [.paren (commaSep values)])
  | .between =>
    let (low, high) ← between t
    let low ← Build.param P.d low type
    let high ← Build.param P.d high type
    pure (fn ++ .word "BETWEEN" :: low ++ .word "AND" :: high)
  | _ =>
    let op ← cmp t.op
    let p ← present t.p s!"the value of {t.op.text}"
    let value ← Build.param P.d p type
    pure (fn ++ op ++ value)

/-- The blind index column of an AES column. -/
def blindIndexOf (ent : Entity) (col : Field) : Except Failure Field :=
  if col.blindIndex = "" then
    fail .irInvalid s!"{ent.name}.{col.name} requires a declared blind index for equality search"
  else columnIn ent col.blindIndex

/-- A column, or the blind index of an AES column, compared with one bound value. -/
def renderOrdering (s : Scope) (ent : Entity) (t : Test) (column : String) (col : Field) :
    Build Text := do
  let value : Except Failure Int := present t.p s!"the value of {t.op.text}"
  if .aes ∈ col.stages then
    if t.op ≠ .eq ∧ t.op ≠ .notEq then
      throw (.orm .operatorNotAllowed
        "AES columns support only equality through a declared blind index")
    let index ← blindIndexOf ent col
    let op ← cmp t.op
    let value ← P.renderBlindIndexValue index (← value)
    pure (P.qcol s col.blindIndex ++ op ++ value)
  else
    let op ← cmp t.op
    let value ← P.renderValue col (← value)
    pure (P.qcol s column ++ op ++ value)

/-- A column compared with another column. -/
def renderColumns (s : Scope) (t : Test) (column : String) : Build Text := do
  let ref ← present t.ref s!"the reference of {t.op.text}"
  let rs ← resolvePath P.m s ref.path
  let rent ← P.entOf rs
  if (fieldOf rent ref.column).isNone then
    throw (.orm .columnUnknown s!"{rent.name}.{ref.column}")
  let op ← cmp (t.op.base.getD t.op)
  pure (P.qcol s column ++ op ++ P.qcol rs ref.column)

/-- A column, or the blind index of an AES column, in a list of bound values. -/
def renderList (s : Scope) (ent : Entity) (t : Test) (column : String) (col : Field) :
    Build Text := do
  if .aes ∈ col.stages then
    let index ← blindIndexOf ent col
    let values ← t.ps.mapM fun i => P.renderBlindIndexValue index i
    pure (P.qcol s col.blindIndex ++ inWords (t.op = .notIn) ++ [.paren (commaSep values)])
  else
    let values ← t.ps.mapM fun i => P.renderValue col i
    pure (P.qcol s column ++ inWords (t.op = .notIn) ++ [.paren (commaSep values)])

/-- A column compared with bound values or with another column. -/
def renderPlain (s : Scope) (ent : Entity) (t : Test) (column : String) (col : Field) :
    Build Text := do
  let lhs := P.qcol s column
  let value : Except Failure Int := present t.p s!"the value of {t.op.text}"
  match t.op with
  | .eq | .notEq | .gt | .gte | .lt | .lte => P.renderOrdering s ent t column col
  | .eqCol | .notEqCol | .gtCol | .gteCol | .ltCol | .lteCol => P.renderColumns s t column
  | .in_ | .notIn => P.renderList s ent t column col
  | .between =>
    let (low, high) ← between t
    let low ← P.renderValue col low
    let high ← P.renderValue col high
    pure (lhs ++ .word "BETWEEN" :: low ++ .word "AND" :: high)
  | .isNull => pure (lhs ++ [.word "IS", .word "NULL"])
  | .isNotNull => pure (lhs ++ [.word "IS", .word "NOT", .word "NULL"])
  | .contains =>
    let ph ← Build.colParam P.d (← value) col .likeContains
    pure (P.d.like lhs ph)
  | .containsBinary =>
    P.d.containsBinary lhs fun transform => do Build.colParam P.d (← value) col transform
  | op => fail .operatorUnknown op.text

/-- The compared column of a predicate that is neither a tuple nor a full-text one. -/
def testColumn (ent : Entity) (t : Test) : Except Failure (String × Field) := do
  let column ← present t.column s!"the column of {t.op.text}"
  let col ← match fieldOf ent column with
    | some col => pure col
    | none =>
      if t.fn.isSome then
        let what := s!"{ent.name}.{column}"
        fail .internal s!"{what} is missing from validated column-function metadata"
      else present none s!"column {ent.name}.{column}"
  pure (column, col)

/-- A predicate; `sub` renders its subquery, if it has one. -/
def renderTest (s : Scope) (t : Test) (sub : Option (Build Text)) : Build Text := do
  let ent ← P.entOf s
  match t.op with
  | .tupleIn | .tupleNotIn => P.renderTuple s ent t
  | .fulltext | .fulltextBoolean => P.renderFulltext s ent t
  | _ =>
    let (column, col) ← testColumn ent t
    match sub, t.value, t.fn with
    | some sub, _, _ =>
      let text ← sub
      pure (P.qcol s column ++ inWords (t.op = .notIn) ++ [.paren text])
    | none, some fn, _ => P.renderClock s t column col fn
    | none, none, some fn => P.renderFunction s t column col fn
    | none, none, none => P.renderPlain s ent t column col

end Planner

end Orm.Engine
