import Orm.Logic.Reads
import Orm.Logic.Separated
import Orm.Client.Decimal
import Orm.Client.Stages

/-! The reader of PHP serialized values. -/
namespace Orm.Client

open Orm.Logic
open Orm.Engine (Failure Code)

section Values

/-- A value of the common model; an object is the map of its members. -/
inductive CodecValue (F : Type) where
  | null
  | bool (b : Bool)
  | int (i : Int)
  | float (x : F)
  | text (s : List Char)
  | list (items : List (CodecValue F))
  | map (members : List (List Char × CodecValue F))

/-- What the client uses of the number type of its language: `Number` of a text, finite numbers, and
numbers that are safe integers and not negative. -/
structure Numbers (F : Type) where
  ofText : List Char → F
  finite : F → Bool
  safe : F → Option Nat
  safe_nil : safe (ofText []) = some 0
  safe_digits : ∀ s, s ≠ [] → Digits s →
    safe (ofText s) = if number s < 2 ^ 53 then some (number s) else none

/-- Numbers that know only the texts of digits below `2 ^ 53`. -/
def digitNumbers : Numbers (Option Nat) where
  ofText s :=
    if s = [] then some 0 else if Digits s ∧ number s < 2 ^ 53 then some (number s) else none
  finite := Option.isSome
  safe x := x
  safe_nil := rfl
  safe_digits := by
    intro s hne hs
    simp [hne, hs]

def i64 (i : Int) : Bool := -2 ^ 63 ≤ i ∧ i ≤ 2 ^ 63 - 1

/-- An array key. -/
inductive Key where
  | int (i : Int)
  | text (s : List Char)
  deriving DecidableEq

/-- The decimal text of an integer. -/
def intDigits : Int → List Char
  | .ofNat n => digits n
  | .negSucc n => '-' :: digits (n + 1)

/-- The name of an object member. -/
def Key.name : Key → List Char
  | .int i => intDigits i
  | .text s => s

end Values

section Kept
variable {κ α : Type} [DecidableEq κ]

/-- The entries that no later entry of the same key replaces. -/
def kept : List (κ × α) → List (κ × α)
  | [] => []
  | e :: es => if e.1 ∈ es.map Prod.fst then kept es else e :: kept es

end Kept

section Model
variable {F : Type}

def CodecValue.key : CodecValue F → Option Key
  | .int i => some (.int i)
  | .text s => some (.text s)
  | _ => none

/-- Whether the keys are `0..n-1` in order. -/
def sequential (entries : List (Key × CodecValue F)) : Bool :=
  entries.map Prod.fst = (List.range entries.length).map fun i => .int i

/-- A list, or an object from its entries. -/
def arrayValue (entries : List (Key × CodecValue F)) : CodecValue F :=
  if sequential entries then .list (entries.map Prod.snd)
  else .map (kept (entries.map fun e => (e.1.name, e.2)))

/-- Whether a text is an optional sign and digits. -/
def intText (s : List Char) : Bool := unsignedText s ≠ [] ∧ Digits (unsignedText s)

/-- The integer of an optional sign and digits. -/
def signedInt : List Char → Int
  | '+' :: rest => number rest
  | s => bigInt s

/-- What a value starts with. -/
inductive Kind where
  | null | bool | int | float | text | array | object | unknown
  deriving DecidableEq

def kindOf (type : UInt8) : Kind :=
  if type = 78 then .null
  else if type = 98 then .bool
  else if type = 105 then .int
  else if type = 100 then .float
  else if type = 115 then .text
  else if type = 97 then .array
  else if type = 79 ∨ type = 67 ∨ type = 114 ∨ type = 82 then .object
  else .unknown

/-- Why a read ends without a value: the model's fuel is used up, or the source throws. -/
inductive ReadFailure where
  | fuel
  | failure (f : Failure)
  deriving DecidableEq

namespace PhpParser
variable {α : Type} (numbers : Numbers F) (total : Nat)

abbrev Parser (α : Type) := Reader UInt8 ReadFailure α

/-- The text of one code unit. -/
def charText (b : UInt8) : String := String.singleton (Char.ofNat b.toNat)

def fail (message : String) : Parser α := fun rest =>
  .error (.failure (.orm .codecDecode
    ("serialize: " ++ message ++ " at " ++ toString (total - rest.length))))

def byte : Parser UInt8
  | [] => fail total "unexpected end" []
  | b :: rest => .ok (b, rest)

def expect (expected : UInt8) : Parser Unit := do
  let b ← byte total
  if b = expected then pure () else fail total ("expected " ++ charText expected)

/-- Bytes as a text. -/
def text (bytes : Bytes) : Parser (List Char) := fun rest =>
  match string .codecDecode bytes with
  | .ok s => .ok (s, rest)
  | .error f => .error (.failure f)

/-- The text before the delimiter, which is taken too. -/
def readUntil (delimiter : UInt8) : Parser (List Char) := fun input =>
  match input.dropWhile (· ≠ delimiter) with
  | [] => fail total ("expected " ++ charText delimiter) []
  | _ :: rest => text (input.takeWhile (· ≠ delimiter)) rest

/-- A number of bytes. -/
def take (length : Nat) : Parser Bytes := fun rest =>
  if rest.length < length then fail total "string overruns input" rest
  else .ok (rest.take length, rest.drop length)

/-- A length or a count. -/
def readCount (message : String) : Parser Nat := do
  let raw ← readUntil total 58
  match numbers.safe (numbers.ofText raw) with
  | none => fail total message
  | some count => pure count

def readNull : Parser (CodecValue F) := do
  expect total 59
  pure .null

def readBool : Parser (CodecValue F) := do
  expect total 58
  let raw ← readUntil total 59
  if raw ≠ ['0'] ∧ raw ≠ ['1'] then fail total "bad bool"
  else pure (.bool (raw = ['1']))

def readInt : Parser (CodecValue F) := do
  expect total 58
  let raw ← readUntil total 59
  if intText raw = false then fail total "bad int"
  else if i64 (signedInt raw) = false then
    fail total ("integer " ++ String.ofList raw ++ " is outside the i64 range")
  else pure (.int (signedInt raw))

def readFloat : Parser (CodecValue F) := do
  expect total 58
  let raw ← readUntil total 59
  if numbers.finite (numbers.ofText raw) = false then fail total "non-finite float"
  else pure (.float (numbers.ofText raw))

def readText : Parser (CodecValue F) := do
  expect total 58
  let length ← readCount numbers total "bad string length"
  expect total 34
  let bytes ← take total length
  let s ← text bytes
  expect total 34
  expect total 59
  pure (.text s)

/-- A key and its value. -/
def entry (value : Parser (CodecValue F)) : Parser (Key × CodecValue F) := do
  let k ← value
  match k.key with
  | none => fail total "array key must be int or string"
  | some key => do
    let v ← value
    pure (key, v)

def array (value : Parser (CodecValue F)) : Parser (CodecValue F) := do
  expect total 58
  let count ← readCount numbers total "bad array length"
  expect total 123
  let entries ← times (entry total value) count
  expect total 125
  pure (arrayValue entries)

def objectFailure (type : UInt8) : ReadFailure := .failure (.orm .codecUnsupported
  ("serialize: objects and references are not supported (" ++ charText type ++ ")"))

/-- The value after its type byte. -/
def valueOf (value : Parser (CodecValue F)) (type : UInt8) : Parser (CodecValue F) :=
  match kindOf type with
  | .null => readNull total
  | .bool => readBool total
  | .int => readInt total
  | .float => readFloat numbers total
  | .text => readText numbers total
  | .array => array numbers total value
  | .object => fun _ => .error (objectFailure type)
  | .unknown => fail total ("unknown type " ++ charText type)

/-- A value in at most `fuel` levels of arrays. -/
def value : Nat → Parser (CodecValue F)
  | 0 => fun _ => .error .fuel
  | fuel + 1 => do
    let type ← byte total
    valueOf numbers total (value fuel) type

/-- The end of the input. -/
def done : Parser Unit := fun rest =>
  if rest = [] then .ok ((), []) else fail total "trailing data" rest

/-- A value up to the end. -/
def whole (fuel : Nat) : Parser (CodecValue F) := do
  let v ← value numbers total fuel
  done total
  pure v

/-- The value of an input; its levels are fewer than its bytes. -/
def parse (input : Bytes) : Except ReadFailure (CodecValue F) :=
  Prod.fst <$> whole numbers input.length (input.length + 1) input

end PhpParser

end Model

section Terms
variable {F : Type}

/-- An integer or a string as it is written. -/
inductive Word where
  | int (raw : Bytes)
  | text (length content : Bytes)

/-- A serialized value as it is written. -/
inductive Term where
  | null
  | bool (raw : Bytes)
  | float (raw : Bytes)
  | word (w : Word)
  | array (count : Bytes) (entries : List (Word × Term))

def Word.bytes : Word → Bytes
  | .int raw => 105 :: 58 :: (raw ++ [59])
  | .text length content => 115 :: 58 :: (length ++ 58 :: 34 :: (content ++ [34, 59]))

mutual

def Term.bytes : Term → Bytes
  | .null => [78, 59]
  | .bool raw => 98 :: 58 :: (raw ++ [59])
  | .float raw => 100 :: 58 :: (raw ++ [59])
  | .word w => w.bytes
  | .array count entries => 97 :: 58 :: (count ++ 58 :: 123 :: (entriesBytes entries ++ [125]))

def entriesBytes : List (Word × Term) → Bytes
  | [] => []
  | (k, t) :: es => k.bytes ++ t.bytes ++ entriesBytes es

end

variable (numbers : Numbers F) (chars : Bytes → List Char)

def Word.key : Word → Key
  | .int raw => .int (signedInt (chars raw))
  | .text _ content => .text (chars content)

def Key.value : Key → CodecValue F
  | .int i => .int i
  | .text s => .text s

mutual

/-- The value of a term, where `chars` reads the text of bytes. -/
def Term.value : Term → CodecValue F
  | .null => .null
  | .bool raw => .bool (chars raw = ['1'])
  | .float raw => .float (numbers.ofText (chars raw))
  | .word w => (w.key chars).value
  | .array _ entries => arrayValue (entriesValue entries)

def entriesValue : List (Word × Term) → List (Key × CodecValue F)
  | [] => []
  | (k, t) :: es => (k.key chars, t.value) :: entriesValue es

end

end Terms

section Accepted
variable {F : Type}

/-- A text without a leading byte order mark. -/
def dropMark (s : List Char) : List Char := if s.head? = some '\uFEFF' then s.tail else s

/-- The text of UTF-8 bytes as the client decodes it. -/
def stringOf (b : Bytes) : List Char := dropMark (Utf8.decode b)

theorem string_ok {c : Code} {b : Bytes} {s : List Char} :
    string c b = .ok s ↔ Utf8.Valid b ∧ s = stringOf b := by
  rw [← Utf8.encode_decode_iff, string]
  by_cases hvalid : Utf8.encode (Utf8.decode b) = b
  · rw [if_pos hvalid]
    constructor
    · intro h
      exact ⟨hvalid, (Except.ok.inj h).symm⟩
    · rintro ⟨-, rfl⟩
      rfl
  · rw [if_neg hvalid]
    simp [hvalid]

/-- Bytes that end before a delimiter and have a text. -/
structure Raw (delimiter : UInt8) (raw : Bytes) : Prop where
  free : delimiter ∉ raw
  valid : Utf8.Valid raw

variable (numbers : Numbers F)

/-- The bytes of a length or a count, as `Number` converts them. -/
def Counts (raw : Bytes) (n : Nat) : Prop :=
  Raw 58 raw ∧ numbers.safe (numbers.ofText (stringOf raw)) = some n

/-- A word that the reader takes. -/
inductive Word.Accepted : Word → Prop
  | int {raw : Bytes} (hraw : Raw 59 raw) (htext : intText (stringOf raw) = true)
      (hrange : i64 (signedInt (stringOf raw)) = true) : Accepted (.int raw)
  | text {length content : Bytes} (hlength : Counts numbers length content.length)
      (hcontent : Utf8.Valid content) : Accepted (.text length content)

/-- A term that the reader takes. -/
inductive Term.Accepted : Term → Prop
  | null : Accepted .null
  | bool {raw : Bytes} (hraw : Raw 59 raw) (htext : stringOf raw = ['0'] ∨ stringOf raw = ['1']) :
      Accepted (.bool raw)
  | float {raw : Bytes} (hraw : Raw 59 raw)
      (hfinite : numbers.finite (numbers.ofText (stringOf raw)) = true) : Accepted (.float raw)
  | word {w : Word} (hw : w.Accepted numbers) : Accepted (.word w)
  | array {count : Bytes} {entries : List (Word × Term)} (hcount : Counts numbers count entries.length)
      (hkeys : ∀ e ∈ entries, e.1.Accepted numbers) (hvalues : ∀ e ∈ entries, Accepted e.2) :
      Accepted (.array count entries)

end Accepted

namespace PhpParser
variable {F α : Type} {numbers : Numbers F} {total : Nat} {l r : Bytes}

theorem byte_ok {b : UInt8} : byte total l = .ok (b, r) ↔ l = b :: r := by
  cases l with
  | nil => simp [byte, fail]
  | cons c l => simp [byte]

theorem expect_ok {c : UInt8} {u : Unit} : expect total c l = .ok (u, r) ↔ l = c :: r := by
  unfold expect
  rw [reader_bind]
  constructor
  · rintro ⟨b, m, hb, h⟩
    obtain rfl := byte_ok.mp hb
    split at h
    · next hc =>
      obtain ⟨-, rfl⟩ := reader_pure.mp h
      rw [hc]
    · cases h
  · rintro rfl
    exact ⟨c, r, rfl, by rw [if_pos rfl]; rfl⟩

theorem text_ok {b : Bytes} {s : List Char} :
    text b l = .ok (s, r) ↔ Utf8.Valid b ∧ s = stringOf b ∧ l = r := by
  rw [← and_assoc, ← string_ok (c := .codecDecode), text]
  cases string .codecDecode b with
  | error f => simp
  | ok s' => simp [eq_comm]

theorem readUntil_ok {d : UInt8} {s : List Char} :
    readUntil total d l = .ok (s, r) ↔ ∃ raw, Raw d raw ∧ l = raw ++ d :: r ∧ s = stringOf raw := by
  unfold readUntil
  constructor
  · intro h
    split at h
    · cases h
    · next d' rest hdrop =>
      obtain ⟨hvalid, rfl, rfl⟩ := text_ok.mp h
      have hd : d' = d := by
        have hhead := List.head?_dropWhile_not (· ≠ d) l
        rw [hdrop] at hhead
        simpa using hhead
      refine ⟨l.takeWhile (· ≠ d), ⟨fun hmem => ?_, hvalid⟩, ?_, rfl⟩
      · simpa using List.mem_takeWhile_imp hmem
      · rw [← hd, ← hdrop, hd, List.takeWhile_append_dropWhile]
  · rintro ⟨raw, hraw, rfl, rfl⟩
    have hall : ∀ b ∈ raw, decide (b ≠ d) = true := by
      intro b hb
      rw [decide_eq_true_eq]
      rintro rfl
      exact hraw.free hb
    have htake : (raw ++ d :: r).takeWhile (· ≠ d) = raw := by
      rw [List.takeWhile_append_of_pos hall]
      simp
    have hdrop : (raw ++ d :: r).dropWhile (· ≠ d) = d :: r := by
      rw [List.dropWhile_append_of_pos hall]
      simp
    rw [hdrop, htake]
    exact text_ok.mpr ⟨hraw.valid, rfl, rfl⟩

theorem take_ok {n : Nat} {b : Bytes} :
    take total n l = .ok (b, r) ↔ b.length = n ∧ l = b ++ r := by
  unfold take
  constructor
  · intro h
    split at h
    · cases h
    · next hlength =>
      cases h
      exact ⟨List.length_take_of_le (Nat.le_of_not_lt hlength), (List.take_append_drop n l).symm⟩
  · rintro ⟨rfl, rfl⟩
    rw [if_neg (by simp), List.take_left, List.drop_left]

theorem readCount_ok {message : String} {n : Nat} : readCount numbers total message l = .ok (n, r) ↔
    ∃ raw, Counts numbers raw n ∧ l = raw ++ 58 :: r := by
  unfold readCount
  rw [reader_bind]
  constructor
  · rintro ⟨s, m, hs, h⟩
    obtain ⟨raw, hraw, rfl, rfl⟩ := readUntil_ok.mp hs
    cases hcount : numbers.safe (numbers.ofText (stringOf raw)) with
    | none =>
      rw [hcount] at h
      cases h
    | some count =>
      rw [hcount] at h
      obtain ⟨rfl, rfl⟩ := reader_pure.mp h
      exact ⟨raw, ⟨hraw, hcount⟩, rfl⟩
  · rintro ⟨raw, ⟨hraw, hcount⟩, rfl⟩
    refine ⟨_, r, readUntil_ok.mpr ⟨raw, hraw, rfl, rfl⟩, ?_⟩
    rw [hcount]
    rfl

theorem readNull_ok {v : CodecValue F} : readNull total l = .ok (v, r) ↔
    l = 59 :: r ∧ v = .null := by
  unfold readNull
  rw [reader_bind]
  constructor
  · rintro ⟨u, m, hu, h⟩
    obtain ⟨rfl, rfl⟩ := reader_pure.mp h
    exact ⟨expect_ok.mp hu, rfl⟩
  · rintro ⟨rfl, rfl⟩
    exact ⟨(), r, expect_ok.mpr rfl, rfl⟩

theorem readBool_ok {v : CodecValue F} : readBool total l = .ok (v, r) ↔
    ∃ raw, Raw 59 raw ∧ (stringOf raw = ['0'] ∨ stringOf raw = ['1']) ∧
      l = 58 :: (raw ++ 59 :: r) ∧ v = .bool (stringOf raw = ['1']) := by
  unfold readBool
  rw [reader_bind]
  constructor
  · rintro ⟨u, m, hu, h⟩
    obtain rfl := expect_ok.mp hu
    obtain ⟨s, m', hs, h⟩ := reader_bind.mp h
    obtain ⟨raw, hraw, rfl, rfl⟩ := readUntil_ok.mp hs
    split at h
    · cases h
    · next htext =>
      obtain ⟨rfl, rfl⟩ := reader_pure.mp h
      exact ⟨raw, hraw, by tauto, rfl, rfl⟩
  · rintro ⟨raw, hraw, htext, rfl, rfl⟩
    refine ⟨(), _, expect_ok.mpr rfl, reader_bind.mpr ⟨_, r, readUntil_ok.mpr ⟨raw, hraw, rfl, rfl⟩, ?_⟩⟩
    rw [if_neg (by tauto)]
    rfl

theorem readInt_ok {v : CodecValue F} : readInt total l = .ok (v, r) ↔
    ∃ raw, (Word.int raw).Accepted numbers ∧ l = 58 :: (raw ++ 59 :: r) ∧
      v = .int (signedInt (stringOf raw)) := by
  unfold readInt
  rw [reader_bind]
  constructor
  · rintro ⟨u, m, hu, h⟩
    obtain rfl := expect_ok.mp hu
    obtain ⟨s, m', hs, h⟩ := reader_bind.mp h
    obtain ⟨raw, hraw, rfl, rfl⟩ := readUntil_ok.mp hs
    split at h
    · cases h
    · next htext =>
      split at h
      · cases h
      · next hrange =>
        obtain ⟨rfl, rfl⟩ := reader_pure.mp h
        exact ⟨raw, .int hraw (by simpa using htext) (by simpa using hrange), rfl, rfl⟩
  · rintro ⟨raw, hw, rfl, rfl⟩
    cases hw with
    | int hraw htext hrange =>
      refine ⟨(), _, expect_ok.mpr rfl,
        reader_bind.mpr ⟨_, r, readUntil_ok.mpr ⟨raw, hraw, rfl, rfl⟩, ?_⟩⟩
      rw [if_neg (by simp [htext]), if_neg (by simp [hrange])]
      rfl

theorem readFloat_ok {v : CodecValue F} : readFloat numbers total l = .ok (v, r) ↔
    ∃ raw, Raw 59 raw ∧ numbers.finite (numbers.ofText (stringOf raw)) = true ∧
      l = 58 :: (raw ++ 59 :: r) ∧ v = .float (numbers.ofText (stringOf raw)) := by
  unfold readFloat
  rw [reader_bind]
  constructor
  · rintro ⟨u, m, hu, h⟩
    obtain rfl := expect_ok.mp hu
    obtain ⟨s, m', hs, h⟩ := reader_bind.mp h
    obtain ⟨raw, hraw, rfl, rfl⟩ := readUntil_ok.mp hs
    split at h
    · cases h
    · next hfinite =>
      obtain ⟨rfl, rfl⟩ := reader_pure.mp h
      exact ⟨raw, hraw, by simpa using hfinite, rfl, rfl⟩
  · rintro ⟨raw, hraw, hfinite, rfl, rfl⟩
    refine ⟨(), _, expect_ok.mpr rfl,
      reader_bind.mpr ⟨_, r, readUntil_ok.mpr ⟨raw, hraw, rfl, rfl⟩, ?_⟩⟩
    rw [if_neg (by simp [hfinite])]
    rfl

theorem readText_ok {v : CodecValue F} : readText numbers total l = .ok (v, r) ↔
    ∃ length content, (Word.text length content).Accepted numbers ∧
      l = 58 :: (length ++ 58 :: 34 :: (content ++ 34 :: 59 :: r)) ∧ v = .text (stringOf content) := by
  unfold readText
  rw [reader_bind]
  constructor
  · rintro ⟨u, m, hu, h⟩
    obtain rfl := expect_ok.mp hu
    obtain ⟨n, _, hn, hopen⟩ := reader_bind.mp h
    obtain ⟨raw, hraw, rfl⟩ := readCount_ok.mp hn
    obtain ⟨_, _, hquote, hbody⟩ := reader_bind.mp hopen
    obtain rfl := expect_ok.mp hquote
    obtain ⟨b, _, hb, hstring⟩ := reader_bind.mp hbody
    obtain ⟨rfl, rfl⟩ := take_ok.mp hb
    obtain ⟨s, _, hs, hclose⟩ := reader_bind.mp hstring
    obtain ⟨hvalid, rfl, rfl⟩ := text_ok.mp hs
    obtain ⟨_, _, hquote', hlast⟩ := reader_bind.mp hclose
    obtain rfl := expect_ok.mp hquote'
    obtain ⟨_, _, hend, hpure⟩ := reader_bind.mp hlast
    obtain rfl := expect_ok.mp hend
    obtain ⟨rfl, rfl⟩ := reader_pure.mp hpure
    exact ⟨raw, b, .text hraw hvalid, rfl, rfl⟩
  · rintro ⟨raw, content, hw, rfl, rfl⟩
    cases hw with
    | text hlength hcontent =>
      refine ⟨(), _, expect_ok.mpr rfl, reader_bind.mpr ⟨_, _, readCount_ok.mpr ⟨raw, hlength, rfl⟩, ?_⟩⟩
      refine reader_bind.mpr ⟨(), _, expect_ok.mpr rfl,
        reader_bind.mpr ⟨content, _, take_ok.mpr ⟨rfl, rfl⟩, ?_⟩⟩
      refine reader_bind.mpr ⟨_, _, text_ok.mpr ⟨hcontent, rfl, rfl⟩,
        reader_bind.mpr ⟨(), _, expect_ok.mpr rfl, ?_⟩⟩
      exact reader_bind.mpr ⟨(), r, expect_ok.mpr rfl, rfl⟩

theorem value_key {chars : Bytes → List Char} {t : Term} {k : Key} :
    (t.value numbers chars).key = some k ↔ ∃ w, t = .word w ∧ k = w.key chars := by
  cases t with
  | word w =>
    cases w <;> simp [Term.value, Word.key, Key.value, CodecValue.key, eq_comm]
  | array count entries =>
    have hnone : (arrayValue (entriesValue numbers chars entries)).key = none := by
      unfold arrayValue
      split <;> rfl
    simp [Term.value, hnone]
  | null => simp [Term.value, CodecValue.key]
  | bool raw => simp [Term.value, CodecValue.key]
  | float raw => simp [Term.value, CodecValue.key]

theorem entriesBytes_eq (entries : List (Word × Term)) :
    entriesBytes entries = entries.flatMap fun e => e.1.bytes ++ e.2.bytes := by
  induction entries with
  | nil => rfl
  | cons e entries ih => rw [entriesBytes, List.flatMap_cons, ih]

theorem entriesValue_eq (chars : Bytes → List Char) (entries : List (Word × Term)) :
    entriesValue numbers chars entries =
      entries.map fun e => (e.1.key chars, e.2.value numbers chars) := by
  induction entries with
  | nil => rfl
  | cons e entries ih => rw [entriesValue, List.map_cons, ih]

section Value
variable {N : Nat} {value : Parser (CodecValue F)}

theorem entry_reads (hvalue : Reads N value (Term.Accepted numbers) Term.bytes
      (Term.value numbers stringOf)) :
    Reads N (entry total value)
      (fun e : Word × Term => e.1.Accepted numbers ∧ e.2.Accepted numbers)
      (fun e => e.1.bytes ++ e.2.bytes)
      (fun e => (e.1.key stringOf, e.2.value numbers stringOf)) where
  ok_iff := by
    intro l hl a r
    unfold entry
    rw [reader_bind]
    constructor
    · rintro ⟨k, m, hk, h⟩
      obtain ⟨t, ht, rfl, rfl⟩ := (hvalue.ok_iff hl).mp hk
      cases hkey : (t.value numbers stringOf).key with
      | none =>
        rw [hkey] at h
        cases h
      | some key =>
        rw [hkey] at h
        obtain ⟨w, rfl, rfl⟩ := value_key.mp hkey
        obtain ⟨v, m', hv, hpure⟩ := reader_bind.mp h
        have hm : m.length < N := lt_of_le_of_lt (by simp) hl
        obtain ⟨t', ht', rfl, rfl⟩ := (hvalue.ok_iff hm).mp hv
        obtain ⟨rfl, rfl⟩ := reader_pure.mp hpure
        cases ht with
        | word hw => exact ⟨(w, t'), ⟨hw, ht'⟩, by simp [Term.bytes], rfl⟩
    · rintro ⟨⟨w, t⟩, ⟨hw, ht⟩, rfl, rfl⟩
      have hm : (t.bytes ++ r).length < N := by
        refine lt_of_le_of_lt ?_ hl
        simp only [List.length_append]
        omega
      refine ⟨(Term.word w).value numbers stringOf, t.bytes ++ r,
        (hvalue.ok_iff hl).mpr ⟨.word w, .word hw, by simp [Term.bytes], rfl⟩, ?_⟩
      rw [value_key.mpr ⟨w, rfl, rfl⟩]
      exact reader_bind.mpr ⟨_, r, (hvalue.ok_iff hm).mpr ⟨t, ht, rfl, rfl⟩, rfl⟩

theorem array_ok (hvalue : Reads N value (Term.Accepted numbers) Term.bytes
      (Term.value numbers stringOf)) (hl : l.length < N) {v : CodecValue F} :
    array numbers total value l = .ok (v, r) ↔ ∃ count entries,
      (Term.array count entries).Accepted numbers ∧
        l = 58 :: (count ++ 58 :: 123 :: (entriesBytes entries ++ 125 :: r)) ∧
        v = arrayValue (entriesValue numbers stringOf entries) := by
  have hentries : ∀ n, Reads N (times (entry total value) n) _ _ _ := fun n =>
    (entry_reads hvalue).times n
  unfold array
  rw [reader_bind]
  constructor
  · rintro ⟨_, _, hcolon, h⟩
    obtain rfl := expect_ok.mp hcolon
    obtain ⟨n, _, hn, hopen⟩ := reader_bind.mp h
    obtain ⟨raw, hraw, rfl⟩ := readCount_ok.mp hn
    obtain ⟨_, m, hbrace, hbody⟩ := reader_bind.mp hopen
    obtain rfl := expect_ok.mp hbrace
    obtain ⟨es, _, hes, hclose⟩ := reader_bind.mp hbody
    have hm : m.length < N := by
      refine lt_of_le_of_lt ?_ hl
      simp only [List.length_cons, List.length_append]
      omega
    obtain ⟨entries, ⟨rfl, haccepted⟩, rfl, rfl⟩ := ((hentries n).ok_iff hm).mp hes
    obtain ⟨_, _, hend, hpure⟩ := reader_bind.mp hclose
    obtain rfl := expect_ok.mp hend
    obtain ⟨rfl, rfl⟩ := reader_pure.mp hpure
    rw [← entriesBytes_eq, ← entriesValue_eq]
    exact ⟨raw, entries, .array hraw (fun e he => (haccepted e he).1)
      (fun e he => (haccepted e he).2), rfl, rfl⟩
  · rintro ⟨count, entries, hterm, rfl, rfl⟩
    cases hterm with
    | array hcount hkeys hvalues =>
      have hm : (entriesBytes entries ++ 125 :: r).length < N := by
        refine lt_of_le_of_lt ?_ hl
        simp only [List.length_cons, List.length_append]
        omega
      refine ⟨(), _, expect_ok.mpr rfl, reader_bind.mpr ⟨_, _, readCount_ok.mpr ⟨count, hcount, rfl⟩, ?_⟩⟩
      refine reader_bind.mpr ⟨(), _, expect_ok.mpr rfl, reader_bind.mpr ⟨_, 125 :: r,
        ((hentries _).ok_iff hm).mpr ⟨entries, ⟨rfl, fun e he => ⟨hkeys e he, hvalues e he⟩⟩, ?_, rfl⟩,
        reader_bind.mpr ⟨(), r, expect_ok.mpr rfl, ?_⟩⟩⟩
      · rw [entriesBytes_eq]
      · rw [entriesValue_eq]
        rfl

end Value

section Kinds
variable {b : UInt8}

theorem kindOf_cases (b : UInt8) :
    (b = 78 ∧ kindOf b = .null) ∨ (b = 98 ∧ kindOf b = .bool) ∨ (b = 105 ∧ kindOf b = .int) ∨
    (b = 100 ∧ kindOf b = .float) ∨ (b = 115 ∧ kindOf b = .text) ∨ (b = 97 ∧ kindOf b = .array) ∨
    kindOf b = .object ∨ kindOf b = .unknown := by
  unfold kindOf
  split_ifs <;> simp_all

end Kinds

theorem value_reads (fuel : Nat) : Reads fuel (value numbers total fuel) (Term.Accepted numbers)
    Term.bytes (Term.value numbers stringOf) := by
  induction fuel with
  | zero => exact ⟨fun h => absurd h (Nat.not_lt_zero _)⟩
  | succ fuel ih =>
    refine ⟨fun {l} hl v r => ?_⟩
    rw [value, reader_bind]
    constructor
    · rintro ⟨type, m, htype, h⟩
      obtain rfl := byte_ok.mp htype
      have hm : m.length < fuel := Nat.lt_of_succ_lt_succ hl
      unfold valueOf at h
      rcases kindOf_cases type with ⟨rfl, hkind⟩ | ⟨rfl, hkind⟩ | ⟨rfl, hkind⟩ | ⟨rfl, hkind⟩ |
        ⟨rfl, hkind⟩ | ⟨rfl, hkind⟩ | hkind | hkind <;> rw [hkind] at h
      · obtain ⟨rfl, rfl⟩ := readNull_ok.mp h
        exact ⟨.null, .null, rfl, rfl⟩
      · obtain ⟨raw, hraw, htext, rfl, rfl⟩ := readBool_ok.mp h
        exact ⟨.bool raw, .bool hraw htext, by simp [Term.bytes], rfl⟩
      · obtain ⟨raw, hw, rfl, rfl⟩ := readInt_ok.mp h
        exact ⟨.word (.int raw), .word hw, by simp [Term.bytes, Word.bytes], rfl⟩
      · obtain ⟨raw, hraw, hfinite, rfl, rfl⟩ := readFloat_ok.mp h
        exact ⟨.float raw, .float hraw hfinite, by simp [Term.bytes], rfl⟩
      · obtain ⟨length, content, hw, rfl, rfl⟩ := readText_ok.mp h
        exact ⟨.word (.text length content), .word hw, by simp [Term.bytes, Word.bytes], rfl⟩
      · obtain ⟨count, entries, hterm, rfl, rfl⟩ := (array_ok ih hm).mp h
        exact ⟨.array count entries, hterm, by simp [Term.bytes], rfl⟩
      · cases h
      · cases h
    · rintro ⟨t, ht, rfl, rfl⟩
      cases ht with
      | null => exact ⟨78, _, rfl, readNull_ok.mpr ⟨rfl, rfl⟩⟩
      | @bool raw hraw htext =>
        refine ⟨98, _, rfl, readBool_ok.mpr ⟨raw, hraw, htext, by simp, rfl⟩⟩
      | @float raw hraw hfinite =>
        refine ⟨100, _, rfl, readFloat_ok.mpr ⟨raw, hraw, hfinite, by simp, rfl⟩⟩
      | @word w hw =>
        cases w with
        | int raw => exact ⟨105, _, rfl, readInt_ok.mpr ⟨raw, hw, by simp, rfl⟩⟩
        | text length content =>
          exact ⟨115, _, rfl, readText_ok.mpr ⟨length, content, hw, by simp, rfl⟩⟩
      | @array count entries hcount hkeys hvalues =>
        have hm := hl
        rw [Term.bytes] at hm
        refine ⟨97, _, rfl, (array_ok ih (Nat.lt_of_succ_lt_succ hm)).mpr ⟨count, entries,
          .array hcount hkeys hvalues, by simp, rfl⟩⟩

theorem done_ok {u : Unit} : done total l = .ok (u, r) ↔ l = [] ∧ r = [] := by
  unfold done
  split
  · next hl => simp [hl, eq_comm]
  · next hl => simp [fail, hl]

/-- The reader returns the value of the terms that it takes, and nothing else. -/
theorem parse_iff {input : Bytes} {v : CodecValue F} : parse numbers input = .ok v ↔
    ∃ t : Term, t.Accepted numbers ∧ t.bytes = input ∧ v = t.value numbers stringOf := by
  have hreads : Reads _ (value numbers input.length (input.length + 1)) _ _ _ := value_reads _
  have hlt : input.length < input.length + 1 := Nat.lt_succ_self _
  have hwhole : parse numbers input = .ok v ↔
      ∃ r, whole numbers input.length (input.length + 1) input = .ok (v, r) := by
    unfold parse
    cases whole numbers input.length (input.length + 1) input with
    | error x => simp [Functor.map, Except.map]
    | ok s => simp [Functor.map, Except.map, Prod.ext_iff]
  rw [hwhole]
  constructor
  · rintro ⟨r, h⟩
    obtain ⟨v', m, hv, hrest⟩ := reader_bind.mp h
    obtain ⟨t, ht, hinput, rfl⟩ := (hreads.ok_iff hlt).mp hv
    obtain ⟨_, m', hdone, hpure⟩ := reader_bind.mp hrest
    obtain ⟨rfl, rfl⟩ := done_ok.mp hdone
    obtain ⟨rfl, rfl⟩ := reader_pure.mp hpure
    exact ⟨t, ht, by rw [hinput, List.append_nil], rfl⟩
  · rintro ⟨t, ht, hinput, rfl⟩
    refine ⟨[], reader_bind.mpr ⟨_, [], (hreads.ok_iff hlt).mpr ⟨t, ht, ?_, rfl⟩, ?_⟩⟩
    · rw [hinput, List.append_nil]
    · exact reader_bind.mpr ⟨(), [], done_ok.mpr ⟨rfl, rfl⟩, rfl⟩

section Refusals
variable {x : ReadFailure}

def DecodeFailure (x : ReadFailure) : Prop := ∃ m, x = .failure (.orm .codecDecode m)

theorem fail_throws (message : String) :
    Throws DecodeFailure (fail total message : Parser α) := by
  intro l x h
  cases h
  exact ⟨_, rfl⟩

theorem byte_throws : Throws DecodeFailure (byte total) := by
  intro l x h
  cases l with
  | nil => exact fail_throws "unexpected end" [] x h
  | cons b l => cases h

theorem expect_throws (c : UInt8) : Throws DecodeFailure (expect total c) := by
  refine byte_throws.bind fun b => ?_
  split
  · exact Throws.pure _
  · exact fail_throws _

theorem text_throws (b : Bytes) : Throws DecodeFailure (text b) := by
  intro l x h
  unfold text string at h
  split at h
  · cases h
  · next f hf =>
    split at hf
    · cases hf
    · cases hf
      cases h
      exact ⟨_, rfl⟩

theorem readUntil_throws (d : UInt8) : Throws DecodeFailure (readUntil total d) := by
  intro l x h
  unfold readUntil at h
  split at h
  · exact fail_throws _ _ x h
  · exact text_throws _ _ x h

theorem take_throws (n : Nat) : Throws DecodeFailure (take total n) := by
  intro l x h
  unfold take at h
  split at h
  · exact fail_throws _ _ x h
  · cases h

theorem readCount_throws (message : String) :
    Throws DecodeFailure (readCount numbers total message) := by
  refine (readUntil_throws 58).bind fun raw => ?_
  split
  · exact fail_throws _
  · exact Throws.pure _

theorem readNull_throws : Throws DecodeFailure (readNull total : Parser (CodecValue F)) :=
  (expect_throws 59).bind fun _ => Throws.pure _

theorem readBool_throws : Throws DecodeFailure (readBool total : Parser (CodecValue F)) := by
  refine (expect_throws 58).bind fun _ => (readUntil_throws 59).bind fun raw => ?_
  split
  · exact fail_throws _
  · exact Throws.pure _

theorem readInt_throws : Throws DecodeFailure (readInt total : Parser (CodecValue F)) := by
  refine (expect_throws 58).bind fun _ => (readUntil_throws 59).bind fun raw => ?_
  split
  · exact fail_throws _
  · split
    · exact fail_throws _
    · exact Throws.pure _

theorem readFloat_throws : Throws DecodeFailure (readFloat numbers total) := by
  refine (expect_throws 58).bind fun _ => (readUntil_throws 59).bind fun raw => ?_
  split
  · exact fail_throws _
  · exact Throws.pure _

theorem readText_throws : Throws DecodeFailure (readText numbers total) :=
  (expect_throws 58).bind fun _ => (readCount_throws _).bind fun n => (expect_throws 34).bind fun _ =>
    (take_throws n).bind fun b => (text_throws b).bind fun _ => (expect_throws 34).bind fun _ =>
      (expect_throws 59).bind fun _ => Throws.pure _

variable (numbers) in
/-- Bytes whose reading comes to the type byte of an object or a reference. -/
inductive Refers : Bytes → Prop
  | here {type : UInt8} {rest : Bytes} (h : kindOf type = .object) : Refers (type :: rest)
  | key {count rest : Bytes} {entries : List (Word × Term)} {n : Nat} (hcount : Counts numbers count n)
      (hlt : entries.length < n) (hkeys : ∀ e ∈ entries, e.1.Accepted numbers)
      (hvalues : ∀ e ∈ entries, e.2.Accepted numbers) (h : Refers rest) :
      Refers (97 :: 58 :: (count ++ 58 :: 123 :: (entriesBytes entries ++ rest)))
  | value {count rest : Bytes} {entries : List (Word × Term)} {k : Word} {n : Nat}
      (hcount : Counts numbers count n) (hlt : entries.length < n)
      (hkeys : ∀ e ∈ entries, e.1.Accepted numbers) (hvalues : ∀ e ∈ entries, e.2.Accepted numbers)
      (hk : k.Accepted numbers) (h : Refers rest) :
      Refers (97 :: 58 :: (count ++ 58 :: 123 :: (entriesBytes entries ++ (k.bytes ++ rest))))

/-- An entry stops in its key or in its value. -/
theorem entry_error {N : Nat} {value : Parser (CodecValue F)} (hvalue : Reads N value
      (Term.Accepted numbers) Term.bytes (Term.value numbers stringOf)) (hl : l.length < N)
    (h : entry total value l = .error x) : DecodeFailure x ∨ value l = .error x ∨
      ∃ (k : Word) (rest : Bytes), k.Accepted numbers ∧ l = k.bytes ++ rest ∧
        value rest = .error x := by
  rcases reader_bind_error.mp h with h | ⟨v, m, hv, h⟩
  · exact .inr (.inl h)
  · obtain ⟨t, ht, rfl, rfl⟩ := (hvalue.ok_iff hl).mp hv
    cases hkey : (t.value numbers stringOf).key with
    | none =>
      rw [hkey] at h
      exact .inl (fail_throws _ _ x h)
    | some key =>
      rw [hkey] at h
      obtain ⟨k, rfl, rfl⟩ := value_key.mp hkey
      rcases reader_bind_error.mp h with h | ⟨_, _, _, hpure⟩
      · cases ht with
        | word hk => exact .inr (.inr ⟨k, m, hk, rfl, h⟩)
      · cases hpure

theorem value_error {fuel : Nat} (hl : l.length < fuel)
    (h : value numbers total fuel l = .error x) :
    DecodeFailure x ∨ Refers numbers l ∧ ∃ type, x = objectFailure type := by
  induction fuel generalizing l with
  | zero => exact absurd hl (Nat.not_lt_zero _)
  | succ fuel ih =>
    rcases reader_bind_error.mp h with hbyte | ⟨type, m, htype, hof⟩
    · exact .inl (byte_throws _ x hbyte)
    · obtain rfl := byte_ok.mp htype
      have hm : m.length < fuel := Nat.lt_of_succ_lt_succ hl
      unfold valueOf at hof
      rcases kindOf_cases type with ⟨rfl, hkind⟩ | ⟨rfl, hkind⟩ | ⟨rfl, hkind⟩ | ⟨rfl, hkind⟩ |
        ⟨rfl, hkind⟩ | ⟨rfl, hkind⟩ | hkind | hkind <;> rw [hkind] at hof
      · exact .inl (readNull_throws _ x hof)
      · exact .inl (readBool_throws _ x hof)
      · exact .inl (readInt_throws _ x hof)
      · exact .inl (readFloat_throws _ x hof)
      · exact .inl (readText_throws _ x hof)
      · -- an array stops around its entries, or in one of them
        rcases reader_bind_error.mp hof with hstop | ⟨_, _, hcolon, hcounted⟩
        · exact .inl (expect_throws 58 _ x hstop)
        obtain rfl := expect_ok.mp hcolon
        rcases reader_bind_error.mp hcounted with hstop | ⟨n, _, hn, hopened⟩
        · exact .inl (readCount_throws _ _ x hstop)
        obtain ⟨count, hcount, rfl⟩ := readCount_ok.mp hn
        rcases reader_bind_error.mp hopened with hstop | ⟨_, rest, hbrace, hentries⟩
        · exact .inl (expect_throws 123 _ x hstop)
        obtain rfl := expect_ok.mp hbrace
        rcases reader_bind_error.mp hentries with hstop | ⟨_, _, _, hclosed⟩
        · obtain ⟨k, as, r, hk, has, hentry⟩ := times_error.mp hstop
          have hrest : rest.length < fuel := by
            refine lt_of_le_of_lt ?_ hm
            simp only [List.length_cons, List.length_append]
            omega
          have hreads : Reads fuel (value numbers total fuel) _ _ _ := value_reads fuel
          obtain ⟨entries, ⟨rfl, haccepted⟩, rfl, -⟩ :=
            (((entry_reads hreads).times k).ok_iff hrest).mp has
          have hr : r.length < fuel := lt_of_le_of_lt (by simp) hrest
          rw [← entriesBytes_eq]
          rcases entry_error hreads hr hentry with hx | hkey | ⟨k, rest, hk', rfl, hvalue⟩
          · exact .inl hx
          · rcases ih hr hkey with hx | ⟨hrefers, hx⟩
            · exact .inl hx
            · exact .inr ⟨.key hcount hk (fun e he => (haccepted e he).1)
                (fun e he => (haccepted e he).2) hrefers, hx⟩
          · have hrest' : rest.length < fuel := lt_of_le_of_lt (by simp) hr
            rcases ih hrest' hvalue with hx | ⟨hrefers, hx⟩
            · exact .inl hx
            · exact .inr ⟨.value hcount hk (fun e he => (haccepted e he).1)
                (fun e he => (haccepted e he).2) hk' hrefers, hx⟩
        · rcases reader_bind_error.mp hclosed with hstop | ⟨_, _, _, hpure⟩
          · exact .inl (expect_throws 125 _ x hstop)
          · cases hpure
      · cases hof
        exact .inr ⟨.here hkind, type, rfl⟩
      · exact .inl (fail_throws _ _ x hof)

/-- An array in which an entry stops. -/
theorem array_error {fuel : Nat} {count rest : Bytes} {entries : List (Word × Term)} {n : Nat}
    (hcount : Counts numbers count n) (hlt : entries.length < n)
    (hkeys : ∀ e ∈ entries, e.1.Accepted numbers) (hvalues : ∀ e ∈ entries, e.2.Accepted numbers)
    (hl : (97 :: 58 :: (count ++ 58 :: 123 :: (entriesBytes entries ++ rest))).length < fuel + 1)
    (h : entry total (value numbers total fuel) rest = .error x) :
    value numbers total (fuel + 1)
      (97 :: 58 :: (count ++ 58 :: 123 :: (entriesBytes entries ++ rest))) = .error x := by
  have hrest : (entriesBytes entries ++ rest).length < fuel := by
    simp only [List.length_cons, List.length_append] at hl ⊢
    omega
  have hreads : Reads fuel (value numbers total fuel) _ _ _ := value_reads fuel
  have hentries : times (entry total (value numbers total fuel)) entries.length
      (entriesBytes entries ++ rest) = .ok (_, rest) :=
    (((entry_reads hreads).times _).ok_iff hrest).mpr
      ⟨entries, ⟨rfl, fun e he => ⟨hkeys e he, hvalues e he⟩⟩, by rw [entriesBytes_eq], rfl⟩
  refine reader_bind_error.mpr (.inr ⟨97, _, rfl, ?_⟩)
  refine reader_bind_error.mpr (.inr ⟨(), _, expect_ok.mpr rfl, ?_⟩)
  refine reader_bind_error.mpr (.inr ⟨n, _, readCount_ok.mpr ⟨count, hcount, rfl⟩, ?_⟩)
  refine reader_bind_error.mpr (.inr ⟨(), _, expect_ok.mpr rfl, ?_⟩)
  exact reader_bind_error.mpr (.inl (times_error.mpr ⟨_, _, rest, hlt, hentries, h⟩))

theorem value_refers (h : Refers numbers l) {fuel : Nat} (hl : l.length < fuel) :
    ∃ type, value numbers total fuel l = .error (objectFailure type) := by
  induction h generalizing fuel with
  | @here type rest hkind =>
    obtain ⟨fuel, rfl⟩ : ∃ n, fuel = n + 1 := ⟨fuel - 1, by omega⟩
    refine ⟨type, reader_bind_error.mpr (.inr ⟨type, rest, rfl, ?_⟩)⟩
    unfold valueOf
    rw [hkind]
  | @key count rest entries n hcount hlt hkeys hvalues _ ih =>
    obtain ⟨fuel, rfl⟩ : ∃ n, fuel = n + 1 := ⟨fuel - 1, by omega⟩
    have hrest : rest.length < fuel := by
      simp only [List.length_cons, List.length_append] at hl
      omega
    obtain ⟨type, htype⟩ := ih hrest
    exact ⟨type, array_error hcount hlt hkeys hvalues hl (reader_bind_error.mpr (.inl htype))⟩
  | @value count rest entries k n hcount hlt hkeys hvalues hk _ ih =>
    obtain ⟨fuel, rfl⟩ : ∃ n, fuel = n + 1 := ⟨fuel - 1, by omega⟩
    have hword : (k.bytes ++ rest).length < fuel := by
      simp only [List.length_cons, List.length_append] at hl ⊢
      omega
    have hrest : rest.length < fuel := lt_of_le_of_lt (by simp) hword
    obtain ⟨type, htype⟩ := ih hrest
    have hreads : Reads fuel (PhpParser.value numbers total fuel) _ _ _ := value_reads fuel
    have hkey : PhpParser.value numbers total fuel (k.bytes ++ rest) = .ok (_, rest) :=
      (hreads.ok_iff hword).mpr ⟨.word k, .word hk, by rw [Term.bytes], rfl⟩
    refine ⟨type, array_error hcount hlt hkeys hvalues hl (reader_bind_error.mpr (.inr ⟨_, _, hkey, ?_⟩))⟩
    rw [value_key.mpr ⟨k, rfl, rfl⟩]
    exact reader_bind_error.mpr (.inl htype)

theorem parse_error {input : Bytes} : parse numbers input = .error x ↔
    whole numbers input.length (input.length + 1) input = .error x := by
  unfold parse
  cases whole numbers input.length (input.length + 1) input with
  | error y => simp [Functor.map, Except.map]
  | ok s => simp [Functor.map, Except.map]

/-- A refused input has the code of its first object or reference, and otherwise the code of a
malformed cell. -/
theorem parse_refused {input : Bytes} (h : parse numbers input = .error x) :
    DecodeFailure x ∧ ¬ Refers numbers input ∨
      Refers numbers input ∧ ∃ type, x = objectFailure type := by
  have hlt : input.length < input.length + 1 := Nat.lt_succ_self _
  have hwhole := parse_error.mp h
  by_cases hrefers : Refers numbers input
  · obtain ⟨type, htype⟩ : ∃ type, value numbers input.length (input.length + 1) input = _ :=
      value_refers hrefers hlt
    have hstop : whole numbers input.length (input.length + 1) input = .error (objectFailure type) :=
      reader_bind_error.mpr (.inl htype)
    rw [hstop] at hwhole
    exact .inr ⟨hrefers, type, (Except.error.inj hwhole).symm⟩
  · refine .inl ⟨?_, hrefers⟩
    rcases reader_bind_error.mp hwhole with hvalue | ⟨_, _, _, hrest⟩
    · exact (value_error hlt hvalue).resolve_right fun hx => hrefers hx.1
    · rcases reader_bind_error.mp hrest with hdone | ⟨_, _, _, hpure⟩
      · unfold done at hdone
        split at hdone
        · cases hdone
        · exact fail_throws _ _ x hdone
      · cases hpure

end Refusals

end PhpParser

end Orm.Client
