import Orm.Sql.Text
import Orm.Engine.Request

/-! Database-specific SQL pieces. A piece that binds values takes the binding as an action,
run once for each placeholder it writes. -/
namespace Orm.Engine

open Orm.Sql (Tok Text)
open Orm.Sql.Text (commaSep)

inductive Dialect where
  | mysql | postgres | sqlite
  deriving DecidableEq, Repr

/-- How the executor changes a bound value. -/
inductive Transform where
  | none | likeContains | fulltextBoolean
  deriving DecidableEq, Repr

/-- The parts of an identifier between its dots, each in quotes with its quotes doubled. -/
def quoteWith (q : Char) (ident : String) : String :=
  let part (cs : List Char) : List Char :=
    q :: cs.flatMap (fun c => if c = q then [q, q] else [c]) ++ [q]
  String.ofList (List.intercalate ['.'] ((ident.toList.splitOn '.').map part))

/-- Text as an SQL string literal. -/
def literal (text : String) : Tok :=
  .str (String.ofList ('\'' :: text.toList.flatMap (fun c => if c = '\'' then [c, c] else [c]) ++
    ['\'']))

def Unit.bound : Unit → String
  | .second => "315537897600"
  | .minute => "5258964960"
  | .hour => "87649416"
  | .day => "3652059"
  | .month => "119988"

def Unit.lower : Unit → String
  | .second => "second"
  | .minute => "minute"
  | .hour => "hour"
  | .day => "day"
  | .month => "month"

def Unit.upper : Unit → String
  | .second => "SECOND"
  | .minute => "MINUTE"
  | .hour => "HOUR"
  | .day => "DAY"
  | .month => "MONTH"

/-- The column types that a column function accepts; none for any other function. -/
def columnFunctionTypes : FuncName → Option (List FieldType)
  | .dayOfWeek | .year | .month | .date => some [.date, .datetime]
  | _ => none

def valueFunctionUnit : FuncName → Option Unit
  | .ago u | .later u => some u
  | _ => none

def isValueFunction : FuncName → Bool
  | .now | .today | .ago _ | .later _ => true
  | _ => false

/-- The type of the interval of a relative time function. -/
def intervalType (name : FuncName) : FieldType :=
  if valueFunctionUnit name = some .second then .f64 else .i32

/-- The type of a column function's result on a column of type `t`. -/
def functionType (name : FuncName) (t : FieldType) : FieldType :=
  match name with
  | .dayOfWeek | .year | .month => .i64
  | .date => .date
  | _ => t

/-- `CAST(x AS t)`. -/
def cast (x : Text) (t : Text) : Text := [.call "CAST" (x ++ .word "AS" :: t)]

section Guards
variable {M : Type → Type} [Monad M]

/-- The interval argument of a relative time function, NULL past its bound. -/
def guardInterval (unit : Unit) (operandCast : Option Text) (arg : M Text) : M Text := do
  let casted (x : Text) : Text := match operandCast with
    | none => x
    | some t => cast x t
  let operand ← arg
  let value ← arg
  pure [.caseEnd (.word "WHEN" :: casted operand ++
    [.word "BETWEEN", .word ("-" ++ unit.bound), .word "AND", .word unit.bound, .word "THEN"] ++
    casted value)]

/-- A relative time value, NULL outside 0001-01-01 to 9999-12-31. -/
def guardResult (value : M Text) : M Text := do
  let tested ← value
  let result ← value
  pure [.caseEnd (.word "WHEN" :: tested ++
    [.word "BETWEEN", .str "'0001-01-01 00:00:00'", .word "AND",
      .str "'9999-12-31 23:59:59.999999'", .word "THEN"] ++ result)]

end Guards

/-- One REPLACE for each of A to Z with its lower case, the innermost for A. -/
def asciiLower (x : Text) : Text :=
  (List.range 26).foldl (fun s i =>
    [.call "REPLACE" (s ++ [.comma, .str s!"'{Char.ofNat (65 + i)}'", .comma,
      .str s!"'{Char.ofNat (97 + i)}'"])]) x

/-- The suffix of a row lock; none for an unknown mode. -/
def lockSuffix : RowLock → Option Text
  | .update => some [.word "FOR UPDATE"]
  | .share => some [.word "FOR SHARE"]
  | .updateNowait => some [.word "FOR UPDATE NOWAIT"]
  | .shareNowait => some [.word "FOR SHARE NOWAIT"]
  | _ => none

def RowLock.text : RowLock → String
  | .none => ""
  | .update => "update"
  | .share => "share"
  | .updateNowait => "update_nowait"
  | .shareNowait => "share_nowait"
  | .other s => s

def FuncName.text : FuncName → String
  | .dayOfWeek => "day_of_week"
  | .year => "year"
  | .month => "month"
  | .date => "date"
  | .now => "now"
  | .today => "today"
  | .ago u => u.lower ++ "s_ago"
  | .later u => u.lower ++ "s_later"
  | .other s => s

def Op.text : Op → String
  | .eq => "eq" | .notEq => "not_eq" | .gt => "gt" | .gte => "gte" | .lt => "lt" | .lte => "lte"
  | .eqCol => "eq_col" | .notEqCol => "not_eq_col" | .gtCol => "gt_col" | .gteCol => "gte_col"
  | .ltCol => "lt_col" | .lteCol => "lte_col"
  | .in_ => "in" | .notIn => "not_in" | .between => "between"
  | .isNull => "is_null" | .isNotNull => "is_not_null"
  | .contains => "contains" | .containsBinary => "contains_binary"
  | .tupleIn => "tuple_in" | .tupleNotIn => "tuple_not_in"
  | .fulltext => "fulltext" | .fulltextBoolean => "fulltext_boolean"
  | .other s => s

namespace Dialect

def name : Dialect → String
  | .mysql => "mysql"
  | .postgres => "postgres"
  | .sqlite => "sqlite"

def quote : Dialect → String → String
  | .mysql, ident => quoteWith '`' ident
  | .postgres, ident => quoteWith '"' ident
  | .sqlite, ident =>
    quoteWith '"' (String.ofList (List.intercalate ['_', '_'] (ident.toList.splitOn '.')))

/-- The placeholder of the `n`-th bind, counted from 1. -/
def placeholder : Dialect → Nat → Text
  | .postgres, n => [.bind n s!"${n}"]
  | _, n => [.bind n "?"]

def like (d : Dialect) (col ph : Text) : Text :=
  match d with
  | .mysql => asciiLower col ++ .word "LIKE" :: asciiLower ph
  | .postgres => col ++ .word "ILIKE" :: ph
  | .sqlite => col ++ .word "LIKE" :: ph ++ [.word "ESCAPE", .str "'\\'"]

def limit (d : Dialect) (offset count : Text) : Text :=
  match d with
  | .mysql => .word "LIMIT" :: offset ++ .comma :: count
  | _ => .word "LIMIT" :: count ++ .word "OFFSET" :: offset

def forceIndex : Dialect → String → Text
  | .mysql, name => [.word "FORCE INDEX", .paren [.ident (quoteWith '`' name)]]
  | .postgres, _ => []
  | .sqlite, name => [.word "INDEXED BY", .ident (quoteWith '"' name)]

def insertReturningId : Dialect → Bool
  | .mysql => false
  | _ => true

def upsert (d : Dialect) (conflict : List String) (assigns : Text) : Text :=
  match d with
  | .mysql => .word "ON DUPLICATE KEY UPDATE" :: assigns
  | _ => [.word "ON CONFLICT", .paren (commaSep (conflict.map fun c => [.ident (quoteWith '"' c)])),
      .word "DO UPDATE SET"] ++ assigns

/-- A column behind its SQL-side read stages, the last written stage innermost. -/
def readExpr (d : Dialect) (col : Text) (stages : List Stage) : Text :=
  match d with
  | .mysql => stages.foldr (fun s expr => if s = .ip then [.call "INET6_NTOA" expr] else expr) col
  | _ => col

/-- A bound value in its SQL-side write stages, the first written stage innermost. -/
def writeExpr (d : Dialect) (ph : Text) (stages : List Stage) : Text :=
  match d with
  | .mysql => stages.foldl (fun expr s => if s = .ip then [.call "INET6_ATON" expr] else expr) ph
  | _ => ph

def readTime (d : Dialect) (col : Text) (precision : Nat) : Text :=
  match d with
  | .mysql => cast col [.word "CHAR"]
  | .postgres =>
    if precision = 0 then [.call "to_char" (col ++ [.comma, .str "'HH24:MI:SS'"])]
    else [.call "substr" [.call "to_char" (col ++ [.comma, .str "'HH24:MI:SS.US'"]), .comma,
      .word "1", .comma, .word (toString (9 + precision))]]
  | .sqlite => col

def writeTime (d : Dialect) (ph : Text) : Text :=
  match d with
  | .postgres => cast (cast ph [.word "text"]) [.word "time"]
  | _ => ph

def readUuid (d : Dialect) (col : Text) : Text :=
  match d with
  | .postgres => cast col [.word "text"]
  | _ => col

def writeUuid (d : Dialect) (ph : Text) : Text :=
  match d with
  | .postgres => cast (cast ph [.word "text"]) [.word "uuid"]
  | _ => ph

/-- The database clock. -/
def now (d : Dialect) (precision : Nat) : Text :=
  if d = .mysql ∧ 0 < precision then [.call "CURRENT_TIMESTAMP" [.word (toString precision)]]
  else [.word "CURRENT_TIMESTAMP"]

def handlesStage : Dialect → Stage → Bool
  | .mysql, .ip => true
  | _, _ => false

def decodesStage : Dialect → Stage → Bool
  | .mysql, .ip => true
  | _, _ => false

def hostNow : Dialect → Bool
  | .mysql => false
  | _ => true

def clockOperand (d : Dialect) (col : Text) (precision : Nat) : Text :=
  match d with
  | .sqlite =>
    if 6 ≤ precision then col
    else if precision = 0 then [.paren (col ++ [.word "||", .str "'.000000'"])]
    else
      let zeros := String.ofList (List.replicate (6 - precision) '0')
      [.paren (col ++ [.word "||", .str s!"'{zeros}'"])]
  | _ => col

def rowLock (d : Dialect) (mode : RowLock) : Option Text :=
  match d with
  | .sqlite => (lockSuffix mode).map fun _ => []
  | _ => lockSuffix mode

def columnFunction (d : Dialect) (name : FuncName) (col : Text) : Option Text :=
  match d, name with
  | .mysql, .dayOfWeek => some [.call "DAYOFWEEK" col]
  | .mysql, .year => some [.call "YEAR" col]
  | .mysql, .month => some [.call "MONTH" col]
  | .mysql, .date => some [.call "DATE" col]
  | .postgres, .dayOfWeek => some [.paren [.call "EXTRACT" (.word "DOW" :: .word "FROM" :: col),
      .glue "::int", .word "+", .word "1"]]
  | .postgres, .year => some [.call "EXTRACT" (.word "YEAR" :: .word "FROM" :: col), .glue "::int"]
  | .postgres, .month => some [.call "EXTRACT" (.word "MONTH" :: .word "FROM" :: col), .glue "::int"]
  | .postgres, .date => some (cast col [.word "date"])
  | .sqlite, .dayOfWeek => some [.paren (cast [.call "strftime" (.str "'%w'" :: .comma :: col)]
      [.word "INTEGER"] ++ [.word "+", .word "1"])]
  | .sqlite, .year => some (cast [.call "strftime" (.str "'%Y'" :: .comma :: col)] [.word "INTEGER"])
  | .sqlite, .month => some (cast [.call "strftime" (.str "'%m'" :: .comma :: col)] [.word "INTEGER"])
  | .sqlite, .date => some [.call "date" col]
  | _, _ => none

/-- The make_interval field of a unit, and the types of its argument and of its guard. -/
def intervalField : Unit → String × Text × Text
  | .second => ("secs", [.word "double precision"], [.word "double precision"])
  | .minute => ("mins", [.word "integer"], [.word "bigint"])
  | .hour => ("hours", [.word "integer"], [.word "bigint"])
  | .day => ("days", [.word "integer"], [.word "bigint"])
  | .month => ("months", [.word "integer"], [.word "bigint"])

section Actions
variable {M : Type → Type} [Monad M]

def relativeTime (d : Dialect) (later : Bool) (unit : Unit) (arg now : M Text) : M Text :=
  match d with
  | .mysql => guardResult do
    let interval ← guardInterval unit none arg
    pure [.call (if later then "DATE_ADD" else "DATE_SUB")
      ([.call "NOW" [.word "6"], .comma, .word "INTERVAL"] ++ interval ++ [.word unit.upper])]
  | .postgres => guardResult do
    let clock ← now
    let (field, type, operand) := intervalField unit
    let interval ← guardInterval unit (some operand) arg
    pure [.paren (cast clock [.call "timestamp" [.word "6"]] ++
      [.word (if later then "+" else "-"), .call "make_interval"
        (.word field :: .word "=>" :: cast interval type)])]
  | .sqlite => guardResult do
    let clock ← now
    let value ← arg
    let fraction ← now
    let floor : Text := if unit = .month then [.comma, .str "'floor'"] else []
    pure [.paren [.call "datetime" (clock ++ .comma :: .str (if later then "'+'" else "'-'") ::
        .word "||" :: cast value [.word "TEXT"] ++ [.word "||", .str s!"' {unit.lower}s'"] ++ floor),
      .word "||", .call "substr" (fraction ++ [.comma, .word "20"])]]

def valueFunction (d : Dialect) (name : FuncName) (arg now : M Text) : M (Option Text) :=
  match name with
  | .now => match d with
    | .mysql => pure (some [.call "NOW" [.word "6"]])
    | .postgres => do
      let clock ← now
      pure (some (cast clock [.call "timestamp" [.word "6"]]))
    | .sqlite => some <$> now
  | .today => match d with
    | .mysql => pure (some [.call "CURDATE" []])
    | .postgres => pure (some [.word "CURRENT_DATE"])
    | .sqlite => do
      let clock ← now
      pure (some [.call "date" clock])
  | .ago unit => some <$> d.relativeTime false unit arg now
  | .later unit => some <$> d.relativeTime true unit arg now
  | _ => pure none

def containsBinary (d : Dialect) (col : Text) (value : Transform → M Text) : M Text :=
  match d with
  | .sqlite => do
    let v ← value .none
    pure [.call "instr" (col ++ .comma :: v), .word ">", .word "0"]
  | _ => do
    let v ← value .likeContains
    pure (col ++ .word "LIKE" :: v)

def fulltext (d : Dialect) (cols : List Text) (value : Transform → M Text) (boolean : Bool) :
    M (Option Text) :=
  match d with
  | .mysql => do
    let v ← value (if boolean then .fulltextBoolean else .none)
    let mode := if boolean then "IN BOOLEAN MODE" else "IN NATURAL LANGUAGE MODE"
    pure (some [.word "MATCH", .paren (commaSep cols), .word "AGAINST", .paren (v ++ [.word mode])])
  | .postgres => do
    let v ← value .none
    let joined := List.intercalate [.word "||", .str "' '", .word "||"]
      (cols.map fun c => [.call "coalesce" (c ++ [.comma, .str "''"])])
    pure (some [.call "to_tsvector" (.str "'simple'" :: .comma :: joined), .word "@@",
      .call (if boolean then "websearch_to_tsquery" else "plainto_tsquery")
        (.str "'simple'" :: .comma :: v)])
  | .sqlite => pure none

end Actions

def tupleIn (d : Dialect) (cols : List Text) (rows : List (List Text)) (negate : Bool) : Text :=
  let list := commaSep (rows.map fun row => [.paren (commaSep row)])
  let list := if d = .sqlite then .word "VALUES" :: list else list
  .paren (commaSep cols) :: (if negate then [.word "NOT", .word "IN"] else [.word "IN"]) ++
    [.paren list]

def random : Dialect → Text
  | .mysql => [.call "RAND" []]
  | _ => [.call "random" []]

def nullsOrder (d : Dialect) (desc : Bool) : Text :=
  match d with
  | .postgres => [.word (if desc then "NULLS LAST" else "NULLS FIRST")]
  | _ => []

/-- The statement that restarts a table's identity after its largest key. -/
def restartIdentity (d : Dialect) (table column : String) : Text :=
  match d with
  | .mysql => [.word "ALTER TABLE", .ident (quoteWith '`' table), .word "AUTO_INCREMENT", .word "=",
      .word "1"]
  | .postgres => [.word "SELECT", .call "setval"
      [.call "pg_get_serial_sequence" [literal (quoteWith '"' table), .comma, literal column], .comma,
        .call "COALESCE" [.call "MAX" [.ident (quoteWith '"' column)], .comma, .word "0"], .word "+",
        .word "1", .comma, .word "false"],
      .word "FROM", .ident (quoteWith '"' table)]
  | .sqlite => [.word "UPDATE", .word "sqlite_sequence", .word "SET", .word "seq", .word "=",
      .paren [.word "SELECT", .call "COALESCE" [.call "MAX" [.ident (quoteWith '"' column)], .comma,
        .word "0"], .word "FROM", .ident (quoteWith '"' table)],
      .word "WHERE", .word "name", .word "=", literal table]

end Dialect

end Orm.Engine
