import Orm.Dbspec.Diff

/-! The rules of names and keys that every accepted schema document keeps. -/
namespace Orm.Dbspec

/-- The reserved words, which are not names. -/
def reserved : List String :=
  ["dbspec", "use", "table", "diagram", "primary", "unique", "index", "foreign", "check", "settings",
    "null", "identity", "default", "true", "false", "and", "or", "not", "in", "between", "is"]

def nameStart (c : Char) : Bool := 'a' ≤ c && c ≤ 'z'

def nameChar (c : Char) : Bool := nameStart c || ('0' ≤ c && c ≤ '9') || c = '_'

/-- Whether a word has the form `[a-z][a-z0-9_]*`. -/
def nameForm (s : String) : Bool :=
  match s.toList with
  | [] => false
  | c :: cs => nameStart c && cs.all nameChar

/-- Whether a word is a name: its form, no reserved word and at most 63 bytes. -/
def validName (s : String) : Bool :=
  nameForm s && s ∉ reserved && s.utf8ByteSize ≤ maxNameBytes

def Table.columnNames (t : Table) : List String := t.columns.map Column.name

/-- The names of the keys, indexes, foreign keys and checks of a table. -/
def Table.constraintNames (t : Table) : List String :=
  t.uniques.map Unique.name ++ t.indexes.map Index.name ++ t.foreignKeys.map ForeignKey.name ++
    t.checks.map Check.name

/-- The columns of the keys that a foreign key can reference. -/
def Table.keys (t : Table) : List (List String) := t.primaryKey :: t.uniques.map Unique.columns

/-- The columns of the keys and indexes of a table. -/
def Table.indexed (t : Table) : List (List String) :=
  t.keys ++ t.indexes.map fun x => x.columns.map IndexColumn.name

def Document.constraintNames (d : Document) : List String := d.tables.flatMap Table.constraintNames

/-- The suffixes of the trigger names of a table. -/
def Setting.events : Setting → List String
  | .immutable => ["immutable_update", "immutable_delete"]
  | .audit .. => ["audit_insert", "audit_update", "audit_delete"]

/-- The columns and events that the renderer may name. -/
def Table.generatedSuffixes (t : Table) : List String :=
  (t.columns.filter fun c => !c.identity && c.type ≠ .text && c.type ≠ .bytes).map Column.name ++
    t.settings.flatMap Setting.events

def Document.generatedNames (digest : String → String) (d : Document) : List String :=
  d.tables.flatMap fun t => t.generatedSuffixes.map (rendererName digest t.name)

/-- The rules of one table of a document. -/
structure Table.Valid (d : Document) (t : Table) : Prop where
  named : validName t.name
  columnsNamed : ∀ c ∈ t.columnNames, validName c
  columns : t.columnNames.Nodup
  keys : ∀ k ∈ t.indexed, k ≠ [] ∧ k.Nodup ∧ ∀ c ∈ k, c ∈ t.columnNames
  foreignKeys : ∀ f ∈ t.foreignKeys, f.columns ≠ [] ∧ f.columns.Nodup ∧
    (∀ c ∈ f.columns, c ∈ t.columnNames) ∧ f.columns.length = f.references.length ∧
    ∃ parent ∈ d.tables, parent.name = f.table ∧ f.references ∈ parent.keys
  checks : ∀ k ∈ t.checks, ∀ c ∈ exprColumns k.expression, c ∈ t.columnNames

/-- The rules of a whole document; the renderer shortens long names by the digest. -/
structure Document.Valid (digest : String → String) (d : Document) : Prop where
  tables : (d.tables.map Table.name).Nodup
  each : ∀ t ∈ d.tables, t.Valid d
  constraintsNamed : ∀ n ∈ d.constraintNames, validName n
  constraints : d.constraintNames.Nodup
  apart : ∀ t ∈ d.tables, t.name ∉ d.constraintNames
  generated : (d.generatedNames digest).Nodup

section Names

theorem validName_form {s : String} (h : validName s) : nameForm s := by
  simp only [validName, Bool.and_eq_true] at h
  exact h.1.1

theorem nameForm_chars {s : String} (h : nameForm s) : ∀ c ∈ s.toList, nameChar c := by
  unfold nameForm at h
  split at h
  · cases h
  · next c cs hs =>
    simp only [Bool.and_eq_true, List.all_eq_true] at h
    intro x hx
    rw [hs] at hx
    rcases List.mem_cons.mp hx with rfl | hx
    · simp [nameChar, h.1]
    · exact h.2 x hx

end Names

section Lookup
variable {d : Document} {t : Table} {name : String}

theorem table_mem (h : d.table name = some t) : t ∈ d.tables ∧ t.name = name := by
  have hname : decide (t.name = name) = true := @List.find?_some _ (fun x : Table => x.name = name) _ _ h
  exact ⟨List.mem_of_find?_eq_some h, of_decide_eq_true hname⟩

theorem table_isSome_iff : (d.table name).isSome ↔ name ∈ d.tables.map Table.name := by
  simp [Document.table]

theorem column_mem {c : Column} (h : t.column name = some c) : c ∈ t.columns ∧ c.name = name := by
  have hname : decide (c.name = name) = true := @List.find?_some _ (fun x : Column => x.name = name) _ _ h
  exact ⟨List.mem_of_find?_eq_some h, of_decide_eq_true hname⟩

theorem column_eq_some_iff {c : Column} (ht : t.columnNames.Nodup) :
    t.column name = some c ↔ c ∈ t.columns ∧ c.name = name := by
  refine ⟨column_mem, ?_⟩
  rintro ⟨hc, rfl⟩
  obtain ⟨u, hu⟩ : ∃ u, t.column c.name = some u :=
    Option.isSome_iff_exists.mp (List.find?_isSome.mpr ⟨c, hc, by simp⟩)
  obtain ⟨humem, huname⟩ := column_mem hu
  obtain rfl : u = c := List.inj_on_of_nodup_map ht humem hc huname
  exact hu

theorem column_isSome_iff : (t.column name).isSome ↔ name ∈ t.columnNames := by
  simp [Table.column, Table.columnNames]

end Lookup

end Orm.Dbspec
