import Orm.Logic.Utf16

/-! The JSON grammar over UTF-16 code units, as a tree that keeps its text. -/
namespace Orm.Logic.Json
open Orm.Logic.Utf16

def hexValue (u : UInt16) : Option Nat :=
  if 48 ≤ u ∧ u ≤ 57 then some (u.toNat - 48)
  else if 97 ≤ u ∧ u ≤ 102 then some (u.toNat - 87)
  else if 65 ≤ u ∧ u ≤ 70 then some (u.toNat - 55)
  else none

/-- The unit that hexadecimal digits write. -/
def hexNumber (s : List UInt16) : Option UInt16 :=
  (s.mapM hexValue).map fun ds => UInt16.ofNat (ds.foldl (fun n d => n * 16 + d) 0)

/-- The escapes of one letter. -/
inductive Escape where
  | quote | backslash | slash | backspace | formFeed | lineFeed | carriageReturn | tab
  deriving DecidableEq, Repr

def Escape.letter : Escape → UInt16
  | quote => 34
  | backslash => 92
  | slash => 47
  | backspace => 98
  | formFeed => 102
  | lineFeed => 110
  | carriageReturn => 114
  | tab => 116

def Escape.unit : Escape → UInt16
  | quote => 34
  | backslash => 92
  | slash => 47
  | backspace => 8
  | formFeed => 12
  | lineFeed => 10
  | carriageReturn => 13
  | tab => 9

/-- The unit of the escape with a letter. -/
def escapeOf (u : UInt16) : Option UInt16 :=
  if u = 34 then some 34 else if u = 92 then some 92 else if u = 47 then some 47
  else if u = 98 then some 8 else if u = 102 then some 12 else if u = 110 then some 10
  else if u = 114 then some 13 else if u = 116 then some 9 else none

/-- A character of a string: a unit as it is, an escape of one letter or one of four digits. -/
inductive StringChar where
  | raw (u : UInt16) (plain : 32 ≤ u ∧ u ≠ 34 ∧ u ≠ 92)
  | escape (e : Escape)
  | unicode (ds : List UInt16) (u : UInt16) (four : ds.length = 4) (hex : hexNumber ds = some u)

namespace StringChar

def text : StringChar → List UInt16
  | raw u _ => [u]
  | escape e => [92, e.letter]
  | unicode ds _ _ _ => 92 :: 117 :: ds

def unit : StringChar → UInt16
  | raw u _ => u
  | escape e => e.unit
  | unicode _ u _ _ => u

/-- The unit of an escape of four digits. -/
def escaped : StringChar → Option UInt16
  | unicode _ u _ _ => some u
  | _ => none

end StringChar

/-- The text of a string without its quotes. -/
def innerText (s : List StringChar) : List UInt16 := s.flatMap StringChar.text

def quoted (s : List StringChar) : List UInt16 := 34 :: innerText s ++ [34]

/-- The units that a string stands for. -/
def value (s : List StringChar) : List UInt16 := s.map StringChar.unit

/-- A string with an escaped high surrogate that no escaped low one follows directly, or with an
escaped low one that follows no escaped high one. -/
def Lone (s : List StringChar) : Prop :=
  ∃ a c b u, s = a ++ c :: b ∧ c.escaped = some u ∧
    ((high u = true ∧ (b.head?.bind StringChar.escaped).any low = false) ∨
      (low u = true ∧ (a.getLast?.bind StringChar.escaped).any high = false))

/-- The units of the text of a string after its opening quote. -/
def unescape : List UInt16 → Option (List UInt16)
  | [] => none
  | c :: rest =>
    if c = 34 then if rest = [] then some [] else none
    else if c = 92 then
      match rest with
      | [] => none
      | d :: rest =>
        if d = 117 then
          if (rest.take 4).length = 4 then
            (hexNumber (rest.take 4)).bind fun u => (unescape (rest.drop 4)).map (u :: ·)
          else none
        else (escapeOf d).bind fun u => (unescape rest).map (u :: ·)
    else if c < 32 then none
    else (unescape rest).map (c :: ·)
termination_by s => s.length

/-- White space between tokens. -/
def Space : Type := { w : List UInt16 // ∀ u ∈ w, u = 32 ∨ u = 9 ∨ u = 10 ∨ u = 13 }

def digit (u : UInt16) : Prop := 48 ≤ u ∧ u ≤ 57

/-- The text of a number. -/
def NumberText (t : List UInt16) : Prop :=
  ∃ sign whole fraction exponent, t = sign ++ whole ++ fraction ++ exponent ∧
    (sign = [] ∨ sign = [45]) ∧
    (whole = [48] ∨ ∃ d ds, whole = d :: ds ∧ 49 ≤ d ∧ d ≤ 57 ∧ ∀ u ∈ ds, digit u) ∧
    (fraction = [] ∨ ∃ ds, fraction = 46 :: ds ∧ ds ≠ [] ∧ ∀ u ∈ ds, digit u) ∧
    (exponent = [] ∨ ∃ e s ds, exponent = e :: (s ++ ds) ∧ (e = 101 ∨ e = 69) ∧
      (s = [] ∨ s = [43] ∨ s = [45]) ∧ ds ≠ [] ∧ ∀ u ∈ ds, digit u)

/-- A number or one of the names `true`, `false` and `null`. -/
def Scalar : Type :=
  { t : List UInt16 // NumberText t ∨ t = [116, 114, 117, 101] ∨ t = [102, 97, 108, 115, 101] ∨
    t = [110, 117, 108, 108] }

mutual

/-- A value with the white space around it. -/
inductive Element where
  | scalar (before : Space) (t : Scalar) (after : Space)
  | str (before : Space) (s : List StringChar) (after : Space)
  | emptyArray (before within after : Space)
  | array (before : Space) (items : Elements) (after : Space)
  | emptyObject (before within after : Space)
  | object (before : Space) (members : Members) (after : Space)

inductive Elements where
  | one (e : Element)
  | more (e : Element) (rest : Elements)

inductive Members where
  | one (before : Space) (key : List StringChar) (after : Space) (e : Element)
  | more (before : Space) (key : List StringChar) (after : Space) (e : Element) (rest : Members)

end

mutual

def Element.text : Element → List UInt16
  | .scalar w t w' => w.val ++ t.val ++ w'.val
  | .str w s w' => w.val ++ quoted s ++ w'.val
  | .emptyArray w v w' => w.val ++ 91 :: v.val ++ 93 :: w'.val
  | .array w items w' => w.val ++ 91 :: items.text ++ 93 :: w'.val
  | .emptyObject w v w' => w.val ++ 123 :: v.val ++ 125 :: w'.val
  | .object w members w' => w.val ++ 123 :: members.text ++ 125 :: w'.val

def Elements.text : Elements → List UInt16
  | .one e => e.text
  | .more e rest => e.text ++ 44 :: rest.text

def Members.text : Members → List UInt16
  | .one w k w' e => w.val ++ quoted k ++ w'.val ++ 58 :: e.text
  | .more w k w' e rest => w.val ++ quoted k ++ w'.val ++ 58 :: e.text ++ 44 :: rest.text

end

mutual

/-- How deep the objects and arrays of a value nest. -/
def Element.depth : Element → Nat
  | .scalar .. => 0
  | .str .. => 0
  | .emptyArray .. => 1
  | .array _ items _ => items.depth + 1
  | .emptyObject .. => 1
  | .object _ members _ => members.depth + 1

def Elements.depth : Elements → Nat
  | .one e => e.depth
  | .more e rest => max e.depth rest.depth

def Members.depth : Members → Nat
  | .one _ _ _ e => e.depth
  | .more _ _ _ e rest => max e.depth rest.depth

end

mutual

/-- The strings and keys of a value. -/
def Element.strings : Element → List (List StringChar)
  | .scalar .. => []
  | .str _ s _ => [s]
  | .emptyArray .. => []
  | .array _ items _ => items.strings
  | .emptyObject .. => []
  | .object _ members _ => members.strings

def Elements.strings : Elements → List (List StringChar)
  | .one e => e.strings
  | .more e rest => e.strings ++ rest.strings

def Members.strings : Members → List (List StringChar)
  | .one _ k _ e => k :: e.strings
  | .more _ k _ e rest => k :: (e.strings ++ rest.strings)

end

/-- The keys of the members of one object, after unescaping. -/
def Members.keys : Members → List (List UInt16)
  | .one _ k _ _ => [value k]
  | .more _ k _ _ rest => value k :: rest.keys

mutual

/-- The keys of each object of a value. -/
def Element.objects : Element → List (List (List UInt16))
  | .scalar .. => []
  | .str .. => []
  | .emptyArray .. => []
  | .array _ items _ => items.objects
  | .emptyObject .. => [[]]
  | .object _ members _ => members.keys :: members.objects

def Elements.objects : Elements → List (List (List UInt16))
  | .one e => e.objects
  | .more e rest => e.objects ++ rest.objects

def Members.objects : Members → List (List (List UInt16))
  | .one _ _ _ e => e.objects
  | .more _ _ _ e rest => e.objects ++ rest.objects

end

theorem units_lawful : LawfulBEq (List UInt16) := inferInstance

attribute [local instance] units_lawful

/-- A key that is among those before it. -/
def repeatedKey (seen : List (List UInt16)) (key : List UInt16) : List (List UInt16) :=
  if key ∈ seen then [key] else []

mutual

/-- The keys that repeat the key of an earlier member of their object, in the order of the text. -/
def Element.repeats : Element → List (List UInt16)
  | .scalar .. => []
  | .str .. => []
  | .emptyArray .. => []
  | .array _ items _ => items.repeats
  | .emptyObject .. => []
  | .object _ members _ => members.repeats []

def Elements.repeats : Elements → List (List UInt16)
  | .one e => e.repeats
  | .more e rest => e.repeats ++ rest.repeats

def Members.repeats (seen : List (List UInt16)) : Members → List (List UInt16)
  | .one _ k _ e => repeatedKey seen (value k) ++ e.repeats
  | .more _ k _ e rest =>
    repeatedKey seen (value k) ++ (e.repeats ++ rest.repeats (value k :: seen))

end

theorem escapeOf_letter (e : Escape) : escapeOf e.letter = some e.unit := by
  cases e <;> rfl

theorem unescape_inner (s : List StringChar) : unescape (innerText s ++ [34]) = some (value s) := by
  induction s with
  | nil => simp [innerText, value, unescape]
  | cons c s ih =>
    cases c with
    | raw u plain =>
      have hlt : ¬ u < 32 := UInt16.not_lt.mpr plain.1
      have htext : innerText (.raw u plain :: s) ++ [34] = u :: (innerText s ++ [34]) := rfl
      rw [htext, unescape.eq_def]
      simp only [if_neg plain.2.1, if_neg plain.2.2, if_neg hlt, ih]
      rfl
    | escape e =>
      have htext : innerText (.escape e :: s) ++ [34] = 92 :: e.letter :: (innerText s ++ [34]) := rfl
      have hletter : e.letter ≠ 117 := by cases e <;> decide
      rw [htext, unescape, if_neg (by decide), if_pos rfl]
      simp only [if_neg hletter, escapeOf_letter, Option.bind_some, ih]
      rfl
    | unicode ds u four hex =>
      have htext : innerText (.unicode ds u four hex :: s) ++ [34] =
          92 :: 117 :: (ds ++ (innerText s ++ [34])) := by
        simp [innerText, StringChar.text]
      have htake : (ds ++ (innerText s ++ [34])).take 4 = ds := by rw [← four, List.take_left]
      have hdrop : (ds ++ (innerText s ++ [34])).drop 4 = innerText s ++ [34] := by
        rw [← four, List.drop_left]
      rw [htext, unescape, if_neg (by decide), if_pos rfl]
      simp only [if_true, htake, hdrop, four, hex, Option.bind_some, ih]
      rfl

theorem repeatedKey_eq_nil {seen : List (List UInt16)} {key : List UInt16} :
    repeatedKey seen key = [] ↔ key ∉ seen := by
  unfold repeatedKey
  split_ifs with h <;> simp [h]

mutual

/-- No key is repeated exactly when the keys of every object differ. -/
theorem Element.repeats_eq_nil (e : Element) : e.repeats = [] ↔ ∀ keys ∈ e.objects, keys.Nodup := by
  cases e with
  | scalar => simp [Element.repeats, Element.objects]
  | str => simp [Element.repeats, Element.objects]
  | emptyArray => simp [Element.repeats, Element.objects]
  | array w items w' =>
    rw [Element.repeats, Element.objects]
    exact items.repeats_eq_nil
  | emptyObject => simp [Element.repeats, Element.objects]
  | object w members w' =>
    rw [Element.repeats, Element.objects, members.repeats_eq_nil]
    simp

theorem Elements.repeats_eq_nil (es : Elements) :
    es.repeats = [] ↔ ∀ keys ∈ es.objects, keys.Nodup := by
  cases es with
  | one e =>
    rw [Elements.repeats, Elements.objects]
    exact e.repeats_eq_nil
  | more e rest =>
    rw [Elements.repeats, Elements.objects, List.append_eq_nil_iff, e.repeats_eq_nil,
      rest.repeats_eq_nil, List.forall_mem_append]

theorem Members.repeats_eq_nil (seen : List (List UInt16)) (ms : Members) :
    ms.repeats seen = [] ↔
      (ms.keys.Nodup ∧ ∀ k ∈ ms.keys, k ∉ seen) ∧ ∀ keys ∈ ms.objects, keys.Nodup := by
  cases ms with
  | one w k w' e =>
    rw [Members.repeats, Members.objects, List.append_eq_nil_iff, repeatedKey_eq_nil,
      e.repeats_eq_nil]
    simp [Members.keys]
  | more w k w' e rest =>
    rw [Members.repeats, Members.objects, List.append_eq_nil_iff, repeatedKey_eq_nil,
      List.append_eq_nil_iff, e.repeats_eq_nil, rest.repeats_eq_nil, List.forall_mem_append]
    simp only [Members.keys, List.nodup_cons, List.mem_cons, forall_eq_or_imp, not_or]
    constructor
    · rintro ⟨hk, he, ⟨hnodup, hseen⟩, hrest⟩
      refine ⟨⟨⟨fun hmem => (hseen _ hmem).1 rfl, hnodup⟩, hk, fun a ha => (hseen a ha).2⟩, he, hrest⟩
    · rintro ⟨⟨⟨hnew, hnodup⟩, hk, hseen⟩, he, hrest⟩
      refine ⟨hk, he, ⟨hnodup, fun a ha => ⟨?_, hseen a ha⟩⟩, hrest⟩
      rintro rfl
      exact hnew ha

end

end Orm.Logic.Json
