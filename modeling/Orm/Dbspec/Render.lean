import Orm.Engine.Dialect
import Orm.Dbspec.Schema

/-! The names and the type CHECKs that the renderer writes for a table. -/
namespace Orm.Dbspec

open Orm.Engine (Dialect)

/-- One rendered trigger: its name, its statement and, on PostgreSQL, its function. -/
structure TriggerPart where
  name : String
  create : String
  fn : String
  deriving DecidableEq, Repr

/-- What the renderer takes as given: the rendered triggers of a table, and the SHA-256 of a text in
hexadecimal digits. -/
structure Renderer where
  triggers : Dialect → Table → List TriggerPart
  digest : String → String

def maxNameBytes : Nat := 63

def hashDigits : Nat := 8

/-- The characters of a shortened name before its digest. -/
def keptChars : Nat := maxNameBytes - 1 - hashDigits

def takeText (n : Nat) (s : String) : String := String.ofList (s.toList.take n)

/-- The name for the suffix (a column or an event) of a table: the plain form when it has at most 63
bytes, otherwise its beginning and the beginning of its digest. -/
def rendererName (digest : String → String) (table suffix : String) : String :=
  let plain := table ++ "$" ++ suffix
  if plain.utf8ByteSize ≤ maxNameBytes then plain
  else takeText keptChars plain ++ "$" ++ takeText hashDigits (digest plain)

def Renderer.rendererName (R : Renderer) : String → String → String :=
  Orm.Dbspec.rendererName R.digest

/-- The condition of a renderer CHECK: the texts around the places of its column. -/
structure TypeCheck where
  column : String
  parts : List String
  deriving DecidableEq, Repr

def uuidPattern : String :=
  "^[0-9a-f]\x7b8\x7d-[0-9a-f]\x7b4\x7d-[0-9a-f]\x7b4\x7d-[0-9a-f]\x7b4\x7d-[0-9a-f]\x7b12\x7d$"

/-- A text some times over. -/
def repeatText (n : Nat) (s : String) : String := String.join (List.replicate n s)

/-- The texts around the column in the type CHECK on SQLite. -/
def sqliteCheck : ColumnType → Option (List String)
  | .i16 => some ["typeof(", ") IN ('integer', 'null') AND ", " BETWEEN -32768 AND 32767"]
  | .i32 => some ["typeof(", ") IN ('integer', 'null') AND ", " BETWEEN -2147483648 AND 2147483647"]
  | .i64 => some ["typeof(", ") IN ('integer', 'null')"]
  | .bool => some ["", " IN (0, 1)"]
  | .decimal precision _ =>
    let limit := repeatText precision "9"
    some ["typeof(", ") IN ('integer', 'null') AND ", " BETWEEN -" ++ limit ++ " AND " ++ limit]
  | .f64 => some ["typeof(", ") IN ('real', 'null')"]
  | .varchar length => some ["length(", ") <= " ++ toString length]
  | .uuid =>
    let hex (n : Nat) : String := repeatText n "[0-9a-f]"
    some ["", " GLOB '" ++ "-".intercalate [hex 8, hex 4, hex 4, hex 4, hex 12] ++ "'"]
  | .date => some ["", " IS date(", ")"]
  | .time precision =>
    if precision = 0 then some ["", " IS time(", ") AND ", " < '24:00:00'"]
    else some ["length(", ") = " ++ toString (9 + precision) ++ " AND substr(",
      ", 1, 8) IS time(substr(", ", 1, 8)) AND substr(", ", 1, 8) < '24:00:00' AND substr(",
      ", 9, 1) = '.' AND substr(", ", 10) GLOB '" ++ repeatText precision "[0-9]" ++ "'"]
  | .datetime precision =>
    if precision = 0 then some ["length(", ") = 19 AND ", " IS datetime(", ") AND substr(",
      ", 12, 2) < '24'"]
    else some ["length(", ") = " ++ toString (20 + precision) ++ " AND substr(",
      ", 1, 19) IS datetime(substr(", ", 1, 19)) AND substr(", ", 12, 2) < '24' AND substr(",
      ", 20, 1) = '.' AND substr(", ", 21) GLOB '" ++ repeatText precision "[0-9]" ++ "'"]
  | .text | .bytes => none

/-- The texts around the column in the type CHECK of a dialect, for a type that the dialect does not
enforce itself. -/
def typeCheckParts : Dialect → ColumnType → Option (List String)
  | .mysql, .bool => some ["", " IN (0, 1)"]
  | .mysql, .uuid => some ["REGEXP_LIKE(", ", '" ++ uuidPattern ++ "', 'c')"]
  | .mysql, .time _ => some ["", " >= '00:00:00' AND ", " < '24:00:00'"]
  | .postgres, .time _ => some ["", " < '24:00:00'"]
  | .sqlite, type => sqliteCheck type
  | _, _ => none

/-- The renderer CHECK of a column. -/
def typeCheck (d : Dialect) (c : Column) : Option TypeCheck :=
  if c.identity then none else (typeCheckParts d c.type).map (⟨c.name, ·⟩)

theorem typeCheck_column {d : Dialect} {c : Column} {k : TypeCheck} (h : typeCheck d c = some k) :
    k.column = c.name := by
  unfold typeCheck at h
  split at h
  · cases h
  · obtain ⟨parts, _, rfl⟩ := Option.map_eq_some_iff.mp h
    rfl

end Orm.Dbspec
