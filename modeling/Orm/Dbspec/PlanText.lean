import Orm.Dbspec.Valid
import Orm.Logic.Holds

/-! Plan documents: the header lines, the target schema text and what an accepted plan keeps. -/
namespace Orm.Dbspec

open Orm.Logic (ok_bind)

/-- A diagnostic of a plan document at a line. -/
structure Diagnostic where
  line : Nat
  message : String
  deriving DecidableEq, Repr

/-- How the target of a plan is read: a schema document or its diagnostics, whether a document is a
schema text, and the canonical text of a document. The document reader is a given; it accepts only
valid documents. -/
structure SchemaReader (digest : String → String) where
  parseDbspec : String → Except (List Diagnostic) { d : Document // d.Valid digest }
  isSchemaText : Document → Bool
  emitDbspec : Document → String

inductive HeaderLine where
  | renameTable (old new : String)
  | renameColumn (table old new : String)
  | dropTable (name : String)
  | dropColumn (table name : String)
  deriving DecidableEq, Repr

/-- The parts of a text between a character. -/
def splitText (sep : Char) (s : String) : List String := (s.toList.splitOn sep).map String.ofList

/-- `<table>.<name>` -/
def dotted (s : String) : Option (String × String) :=
  match splitText '.' s with
  | [table, name] => if nameForm table && nameForm name then some (table, name) else none
  | _ => none

def headerLine (line : String) : Option HeaderLine :=
  match splitText ' ' line with
  | ["rename", "table", old, new] =>
    if nameForm old && nameForm new then some (.renameTable old new) else none
  | ["rename", "column", column, new] =>
    if nameForm new then (dotted column).map fun c => .renameColumn c.1 c.2 new else none
  | ["allow", "drop", "table", name] => if nameForm name then some (.dropTable name) else none
  | ["allow", "drop", "column", column] => (dotted column).map fun c => .dropColumn c.1 c.2
  | _ => none

def HeaderLine.names : HeaderLine → List String
  | .renameTable old new => [old, new]
  | .renameColumn table old new => [table, old, new]
  | .dropTable name => [name]
  | .dropColumn table name => [table, name]

/-- The first of the names that is reserved or too long. -/
def planNames (names : List String) : Option String :=
  (names.find? fun n => n ∈ reserved || maxNameBytes < n.utf8ByteSize).map fun n =>
    "name \"" ++ n ++ "\" is reserved or longer than 63 bytes"

/-- What the header lines so far give, and the lines at which a line and a new name stand. -/
structure Header where
  renameTables : List TableRename
  renameColumns : List ColumnRename
  dropTables : List String
  dropColumns : List ColumnName
  seen : List (String × Nat)
  given : List (String × Nat)
  deriving DecidableEq, Repr

def Header.empty : Header := ⟨[], [], [], [], [], []⟩

/-- Refuses with a message at a line. -/
def failed {α : Type} (line : Nat) (message : String) : Except Diagnostic α := .error ⟨line, message⟩

/-- Refuses a key that an earlier line has. -/
def refuseAgain (keys : List (String × Nat)) (key : String) (line : Nat) (message : Nat → String) :
    Except Diagnostic Unit :=
  match keys.lookup key with
  | some at_ => failed line (message at_)
  | none => pure ()

def refuseNames (line : Nat) (names : List String) : Except Diagnostic Unit :=
  match planNames names with
  | some message => failed line message
  | none => pure ()

/-- Reads one header line. -/
def Header.add (h : Header) (n : Nat) (line : String) : Except Diagnostic Header := do
  refuseAgain h.seen line n fun at_ => s!"line {at_} repeats this line"
  let h := { h with seen := (line, n) :: h.seen }
  match headerLine line with
  | none =>
    failed n "a header line is `rename table`, `rename column`, `allow drop table` or `allow drop column`"
  | some (.renameTable old new) =>
    refuseNames n [old, new]
    refuseAgain h.given ("table " ++ new) n fun other =>
      s!"line {other} renames another table to {new}"
    pure { h with
      given := ("table " ++ new, n) :: h.given
      renameTables := h.renameTables ++ [⟨old, new⟩] }
  | some (.renameColumn table old new) =>
    refuseNames n [table, old, new]
    let key := "column " ++ table ++ "." ++ new
    refuseAgain h.given key n fun other =>
      s!"line {other} renames another column to {table}.{new}"
    pure { h with
      given := (key, n) :: h.given
      renameColumns := h.renameColumns ++ [⟨table, old, new⟩] }
  | some (.dropTable name) =>
    refuseNames n [name]
    pure { h with dropTables := h.dropTables ++ [name] }
  | some (.dropColumn table name) =>
    refuseNames n [table, name]
    pure { h with dropColumns := h.dropColumns ++ [⟨table, name⟩] }

/-- Reads the header lines from line `n` to the blank line, and gives its number and what follows. -/
def Header.read (h : Header) (n : Nat) : List String → Except Diagnostic (Header × Nat × List String)
  | [] => failed n "a blank line and the target schema text follow the header"
  | line :: rest =>
    if line = "" then pure (h, n, rest) else do
      let h ← h.add n line
      h.read (n + 1) rest

/-- The name of the plan in its first line. -/
def planName (line : String) : Option String :=
  match splitText ' ' line with
  | ["dbplan", "1", name] => if validName name then some name else none
  | _ => none

def hexDigit (c : Char) : Bool := ('0' ≤ c && c ≤ '9') || ('a' ≤ c && c ≤ 'f')

/-- The schema that the plan starts from in its second line. -/
def planFrom (line : String) : Option (Option String) :=
  match splitText ' ' line with
  | ["from", "empty"] => some none
  | ["from", hash] => match splitText ':' hash with
    | ["sha256", digits] =>
      if digits.toList.length = 64 && digits.toList.all hexDigit then some (some hash) else none
    | _ => none
  | _ => none

/-- The document that a `use` line names. -/
def usedDocument (line : String) : String :=
  String.ofList (((line.toList.drop "use".length).dropWhile Char.isWhitespace).takeWhile
    fun c => !c.isWhitespace)

/-- Refuses a target that uses an external document; its lines start after line `n`. -/
def refuseUses (n : Nat) : List String → Except Diagnostic Unit
  | [] => pure ()
  | line :: rest =>
    if "use ".toList.isPrefixOf line.toList then
      failed (n + 1) ("a plan targets a whole database, and its target uses the external document " ++
        usedDocument line ++
        ": install a set that uses external documents with install or addTablesAndColumns")
    else refuseUses (n + 1) rest

/-- The lines joined as a text. -/
def joinLines (lines : List String) : String := "\n".intercalate lines ++ "\n"

/-- Sets the target of a plan. -/
def planTo (p : Plan) : Except Diagnostic Plan :=
  if some p.to = p.from_ then failed 2 "the plan starts from its own target schema" else pure p

/-- The lines of a plan document, which ends with a line end. -/
def planLines (text : String) : Except Diagnostic (List String) :=
  let lines := splitText '\n' text
  if lines.getLast? = some "" && 1 < lines.length then pure lines.dropLast
  else failed lines.length "a plan ends with a line end"

/-- One diagnostic as the diagnostics of a document. -/
def one {α : Type} (x : Except Diagnostic α) : Except (List Diagnostic) α := x.mapError ([·])

/-- Parses a plan document. -/
def parsePlan {digest : String → String} (r : SchemaReader digest) (text : String) :
    Except (List Diagnostic) Plan := do
  let lines ← one (planLines text)
  let some name := lines.head?.bind planName
    | .error [⟨1, "the first line is exactly `dbplan 1 <name>`"⟩]
  let some from_ := (lines[1]?).bind planFrom
    | .error [⟨2, "the second line is `from empty` or `from <schemaHash>`"⟩]
  let (h, offset, rest) ← one (Header.empty.read 3 (lines.drop 2))
  one (refuseUses offset rest)
  let schemaText := joinLines rest
  match r.parseDbspec schemaText with
  | .error diagnostics => .error (diagnostics.map fun d => ⟨d.line + offset, d.message⟩)
  | .ok ⟨schema, _⟩ =>
    if !r.isSchemaText schema || r.emitDbspec schema ≠ schemaText then
      .error [⟨offset + 1, "the target is not a schema text: one document named schema in canonical form with its tables in name order and only the immutable and audit settings"⟩]
    else
      one (planTo ⟨name, from_, h.renameTables, h.renameColumns, h.dropTables, h.dropColumns, schema⟩)

/-- What an accepted plan keeps: a valid target, and no new name given twice. -/
structure Plan.Parsed (digest : String → String) (p : Plan) : Prop where
  target : p.schema.Valid digest
  tables : (p.renameTables.map TableRename.new).Nodup
  columns : (p.renameColumns.map fun r => (r.table, r.new)).Nodup

/-- The new names of the header stand among the given ones. -/
structure Header.Apart (h : Header) : Prop where
  tables : (h.renameTables.map TableRename.new).Nodup
  columns : (h.renameColumns.map fun r => (r.table, r.new)).Nodup
  tablesGiven : ∀ r ∈ h.renameTables, ("table " ++ r.new) ∈ h.given.map Prod.fst
  columnsGiven : ∀ r ∈ h.renameColumns,
    ("column " ++ r.table ++ "." ++ r.new) ∈ h.given.map Prod.fst

theorem Header.apart_empty : Header.empty.Apart where
  tables := List.nodup_nil
  columns := List.nodup_nil
  tablesGiven := by simp [Header.empty]
  columnsGiven := by simp [Header.empty]

theorem refuseAgain_ok {keys : List (String × Nat)} {key : String} {n : Nat} {message : Nat → String}
    (h : refuseAgain keys key n message = .ok ()) : key ∉ keys.map Prod.fst := by
  unfold refuseAgain at h
  split at h
  · cases h
  · next hnone =>
    rw [List.lookup_eq_none_iff] at hnone
    rintro hmem
    obtain ⟨e, he, rfl⟩ := List.mem_map.mp hmem
    simpa using hnone e he

theorem nodup_map_concat {α β : Type} {f : α → β} {l : List α} {a : α} (hl : (l.map f).Nodup)
    (ha : ∀ b ∈ l, f b ≠ f a) : ((l ++ [a]).map f).Nodup := by
  rw [List.map_append, List.map_singleton]
  refine List.nodup_append.mpr ⟨hl, List.nodup_singleton _, ?_⟩
  intro x hx y hy
  obtain ⟨b, hb, rfl⟩ := List.mem_map.mp hx
  rw [List.mem_singleton.mp hy]
  exact ha b hb

theorem Header.Apart.add {h h' : Header} {n : Nat} {line : String} (ha : h.Apart)
    (hadd : h.add n line = .ok h') : h'.Apart := by
  unfold Header.add at hadd
  obtain ⟨_, _, hadd⟩ := ok_bind.mp hadd
  split at hadd
  · cases hadd
  · next old new _ =>
    obtain ⟨_, _, hadd⟩ := ok_bind.mp hadd
    obtain ⟨_, hnew, hadd⟩ := ok_bind.mp hadd
    have hfresh := refuseAgain_ok hnew
    cases hadd
    refine ⟨nodup_map_concat ha.tables fun r hr heq => ?_, ha.columns, ?_, ?_⟩
    · have hkey := ha.tablesGiven r hr
      rw [show r.new = new from heq] at hkey
      exact hfresh hkey
    · intro r hr
      rcases List.mem_append.mp hr with hr | hr
      · exact List.mem_cons_of_mem _ (ha.tablesGiven r hr)
      · rw [List.mem_singleton.mp hr]
        exact List.mem_cons_self
    · exact fun r hr => List.mem_cons_of_mem _ (ha.columnsGiven r hr)
  · next table old new _ =>
    obtain ⟨_, _, hadd⟩ := ok_bind.mp hadd
    obtain ⟨_, hnew, hadd⟩ := ok_bind.mp hadd
    have hfresh := refuseAgain_ok hnew
    cases hadd
    refine ⟨ha.tables, nodup_map_concat ha.columns fun r hr heq => ?_, ?_, ?_⟩
    · have hkey := ha.columnsGiven r hr
      rw [(Prod.mk.inj heq).1, (Prod.mk.inj heq).2] at hkey
      exact hfresh hkey
    · exact fun r hr => List.mem_cons_of_mem _ (ha.tablesGiven r hr)
    · intro r hr
      rcases List.mem_append.mp hr with hr | hr
      · exact List.mem_cons_of_mem _ (ha.columnsGiven r hr)
      · rw [List.mem_singleton.mp hr]
        exact List.mem_cons_self
  all_goals
    obtain ⟨_, _, hadd⟩ := ok_bind.mp hadd
    cases hadd
    exact ⟨ha.tables, ha.columns, ha.tablesGiven, ha.columnsGiven⟩

theorem Header.Apart.read {h h' : Header} {n m : Nat} {lines rest : List String} (ha : h.Apart)
    (hread : h.read n lines = .ok (h', m, rest)) : h'.Apart := by
  induction lines generalizing h n with
  | nil => cases hread
  | cons line lines ih =>
    unfold Header.read at hread
    split at hread
    · cases hread
      exact ha
    · obtain ⟨h₁, hadd, hread⟩ := ok_bind.mp hread
      exact ih (ha.add hadd) hread

theorem one_ok {α : Type} {x : Except Diagnostic α} {a : α} (h : one x = .ok a) : x = .ok a := by
  cases x with
  | error e => cases h
  | ok b => simpa [one, Except.mapError] using h

theorem parsePlan_parsed {digest : String → String} {r : SchemaReader digest} {text : String}
    {p : Plan} (h : parsePlan r text = .ok p) : p.Parsed digest := by
  unfold parsePlan at h
  obtain ⟨lines, _, h⟩ := ok_bind.mp h
  split at h
  · split at h
    · obtain ⟨⟨header, offset, rest⟩, hread, h⟩ := ok_bind.mp h
      obtain ⟨_, _, h⟩ := ok_bind.mp h
      have hheader : header.Apart := Header.apart_empty.read (one_ok hread)
      dsimp only at h
      split at h
      · cases h
      · next schema hvalid _ =>
        split at h
        · cases h
        · have hplan := one_ok h
          unfold planTo at hplan
          split at hplan
          · cases hplan
          · cases hplan
            exact ⟨hvalid, hheader.tables, hheader.columns⟩
    · cases h
  · cases h

end Orm.Dbspec
