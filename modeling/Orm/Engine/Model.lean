import Mathlib

/-! The runtime model of a document set: entities with their fields, keys and settings. -/
namespace Orm.Engine

/-- The UTF-16 code units of a text, by which the source orders texts. -/
def utf16 (s : String) : List Nat :=
  s.toList.flatMap fun c =>
    if c.toNat < 0x10000 then [c.toNat]
    else [0xD800 + (c.toNat - 0x10000) / 0x400, 0xDC00 + (c.toNat - 0x10000) % 0x400]

def utf16Le (s t : String) : Prop := utf16 s ≤ utf16 t

instance : DecidableRel utf16Le := fun s t => inferInstanceAs (Decidable (utf16 s ≤ utf16 t))

/-- Named entries in the order of their names. -/
def sortedEntries {α : Type} (name : α → String) (entries : List α) : List α :=
  entries.insertionSort fun a b => utf16Le (name a) (name b)

/-- The error codes that the engine raises. -/
inductive Code where
  | irInvalid | versionMismatch | schemaHashMismatch | schemaInvalid | entityUnknown | columnUnknown
  | columnAliasConflict | entityNotJoined | operatorNotAllowed | operatorUnknown | functionUnknown
  | indexUnknown | orAtGroupStart | emptyIn | limitInRelation | capabilityUnsupported | config
  | codecEncode | codecDecode | codecUnsupported | catalogValue | deadlock
  | internal
  deriving DecidableEq, Repr

/-- What a failed call throws: an `OrmError` with its code, or a plain `Error` of `present`. -/
inductive Failure where
  | orm (code : Code) (message : String)
  | plain (message : String)
  deriving DecidableEq, Repr

/-- The kinds of a dbspec type. -/
inductive FieldType where
  | i16 | i32 | i64 | bool | f64 | text | bytes | uuid | date | decimal | varchar | time | datetime
  deriving DecidableEq, Repr

/-- The codec stages of a column. -/
inductive Stage where
  | orderedJson | aes | hex | gz | base64 | serialize | yaml | ip
  deriving DecidableEq, Repr

/-- The stages that the executor runs when it binds a value; the client runs the others. -/
def Stage.host : Stage → Bool
  | .aes | .hex | .ip => true
  | _ => false

/-- One column of an entity. -/
structure Field where
  name : String
  type : FieldType
  nullable : Bool
  identity : Bool
  hasDefault : Bool
  defaultNow : Bool
  precision : Nat
  scale : Nat
  length : Nat
  stages : List Stage
  selected : Bool
  primary : Bool
  foreign : Bool
  blindIndex : String
  deriving DecidableEq, Repr

/-- One table of the document set; a setting that the table lacks is the empty name. -/
structure Entity where
  name : String
  table : String
  fields : List Field
  primaryKey : List String
  identity : String
  uniques : List (List String)
  indexes : List String
  updated : String
  softDelete : String
  aesVersion : String
  keyPrefix : String
  order : String
  auditColumn : String
  auditRecord : String
  external : Bool
  deriving DecidableEq, Repr

structure RuntimeModel where
  manifestHash : String
  entities : List (String × Entity)
  deriving DecidableEq, Repr

/-- The field of an entity: the map that the source builds keeps the last field of a name. -/
def fieldOf (e : Entity) (name : String) : Option Field :=
  e.fields.reverse.find? (·.name = name)

def entityOf (m : RuntimeModel) (name : String) : Option Entity := m.entities.lookup name

/-- The class of a column type: two columns compare alike when their classes are equal. -/
inductive MeetKind where
  | integer | string | decimal (scale : Nat) | time (precision : Nat) | datetime (precision : Nat)
  | own (type : FieldType)
  deriving DecidableEq, Repr

def meetKind (type : FieldType) (scale precision : Nat) : MeetKind :=
  match type with
  | .i16 | .i32 | .i64 => .integer
  | .varchar | .text => .string
  | .decimal => .decimal scale
  | .time => .time precision
  | .datetime => .datetime precision
  | t => .own t

end Orm.Engine
