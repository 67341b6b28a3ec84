import Orm.Logic.Frames
import Orm.Client.Codec

/-! The texts by which rows are grouped and compared: the key of one value and of a tuple. -/
namespace Orm.Client

open Orm.Logic
open Orm.Engine (Failure)

/-- A cell as a driver returns it, or a parameter. A number is its text. -/
inductive Value where
  | null
  | bool (b : Bool)
  | number (s : List Char)
  | text (s : List Char)
  | bytes (b : Bytes)
  deriving DecidableEq, Repr

abbrev Row := List Value

/-- Whether the text of a number is one of an integer: digits, or a positive exponent. -/
def integral (s : List Char) : Bool :=
  s.all (fun c => c.isDigit || c == '-') || s.contains '+'

def scalarKey : Value → List Char
  | .null => [Char.ofNat 0]
  | .bool b => if b then ['1'] else ['0']
  | .bytes b => Utf8.decode b
  | .text s => s
  | .number s => s

def lowerHex (b : Bytes) : List Char := (hexText b).map Char.toLower

/-- `keyText` of a value that is not NULL. -/
def keyText : Value → List Char
  | .number s => 'n' :: ':' :: s
  | .bool b => 'b' :: ':' :: (if b then ['1'] else ['0'])
  | .bytes b => 'x' :: ':' :: lowerHex b
  | .text s => 's' :: ':' :: s
  | .null => 's' :: ':' :: [Char.ofNat 0]

/-- The tag of a part of a composite key; a number with a fraction has none. -/
def keyTag : Value → Option Char
  | .bool _ => some 't'
  | .number s => if integral s then some 'i' else none
  | .text _ => some 's'
  | .bytes _ => some 'b'
  | .null => none

def keyPayload : Value → List Char
  | .bytes b => lowerHex b
  | v => scalarKey v

def compositeKeyPart (v : Value) : List Char := (keyTag v).toList ++ framed (keyPayload v)

def keyOfValues (values : List Value) : List Char :=
  match values with
  | [v] => keyText v
  | values => values.flatMap compositeKeyPart

/-- The cells that a key reads, unless one of them is NULL or missing. -/
def keyCells (row : Row) : List Nat → Option (List Value)
  | [] => some []
  | index :: refs => do
    let value ← row[index]?
    if value = .null then none
    else do
      let rest ← keyCells row refs
      some (value :: rest)

def rowKey (row : Row) (refs : List Nat) : Option (List Char) :=
  (keyCells row refs).map keyOfValues

theorem lowerHex_injective : Function.Injective lowerHex := by
  intro a b h
  have hdigit (n : Fin 16) : (hexChar n).toLower.toUpper = hexChar n := by decide +revert
  have hback (b : Bytes) : (lowerHex b).map Char.toUpper = hexText b := by
    unfold lowerHex
    rw [List.map_map]
    have hall : ∀ c ∈ hexText b, (Char.toUpper ∘ Char.toLower) c = c := by
      intro c hc
      simp only [hexText, List.mem_flatMap, List.mem_cons, List.not_mem_nil, or_false] at hc
      obtain ⟨x, -, hc⟩ := hc
      obtain ⟨hhigh, hlow⟩ := hexDigits_lt x
      rcases hc with rfl | rfl
      · exact hdigit ⟨_, hhigh⟩
      · exact hdigit ⟨_, hlow⟩
    rw [List.map_congr_left hall, List.map_id']
  have htext : hexText a = hexText b := by rw [← hback a, h, hback b]
  have hunhex := congrArg unhex htext
  rw [unhex_hexText, unhex_hexText] at hunhex
  exact Option.some.inj hunhex

theorem boolText_injective {a b : Bool}
    (h : (if a then ['1'] else ['0']) = (if b then ['1'] else ['0'])) : a = b := by
  cases a <;> cases b <;> simp_all

theorem keyText_injective {v w : Value} (hv : v ≠ .null) (hw : w ≠ .null)
    (h : keyText v = keyText w) : v = w := by
  cases v <;> cases w <;> simp only [keyText, List.cons.injEq, true_and, reduceCtorEq,
    Char.reduceEq, false_and, not_true_eq_false, ne_eq] at h hv hw ⊢
  · rw [boolText_injective h]
  · rw [h]
  · rw [h]
  · rw [lowerHex_injective h]

theorem keyTag_isDigit {v : Value} {c : Char} (h : keyTag v = some c) : c.isDigit = false := by
  cases v with
  | number s =>
    simp only [keyTag] at h
    split at h
    · cases h
      rfl
    · cases h
  | null => cases h
  | bool | text | bytes =>
    cases h
    rfl

theorem keyTag_keyPayload_injective {v w : Value} (hv : v ≠ .null) (hw : w ≠ .null)
    (htag : keyTag v = keyTag w) (hpayload : keyPayload v = keyPayload w) : v = w := by
  cases v <;> cases w <;> simp only [keyTag, keyPayload, scalarKey] at htag hpayload <;>
    first
      | exact absurd rfl hv
      | exact absurd rfl hw
      | exact congrArg Value.bool (boolText_injective hpayload)
      | exact congrArg Value.number hpayload
      | exact congrArg Value.text hpayload
      | exact congrArg Value.bytes (lowerHex_injective hpayload)
      | (split at htag <;> simp at htag)
      | simp at htag

/-- A part of a composite key is read in one way. -/
theorem compositeKeyPart_append_inj {v w : Value} {r s : List Char} (hv : v ≠ .null)
    (hw : w ≠ .null) (h : compositeKeyPart v ++ r = compositeKeyPart w ++ s) : v = w ∧ r = s := by
  unfold compositeKeyPart at h
  -- A tag is no digit, and a frame starts with one.
  have hmixed {c : Char} {p q r s : List Char} (hc : c.isDigit = false)
      (hcd : c :: (framed p ++ r) = framed q ++ s) : False := by
    obtain ⟨d, rest, hq, hd⟩ := framed_cons q
    rw [hq] at hcd
    have heq : c = d := (List.cons.inj hcd).1
    rw [heq, hd] at hc
    cases hc
  have hparts : keyTag v = keyTag w ∧ keyPayload v = keyPayload w ∧ r = s := by
    cases hc : keyTag v with
    | none =>
      cases hd : keyTag w with
      | none =>
        simp only [hc, hd, Option.toList_none, List.nil_append] at h
        exact ⟨rfl, framed_append_inj h⟩
      | some d =>
        simp only [hc, hd, Option.toList_none, Option.toList_some, List.nil_append,
          List.cons_append] at h
        exact (hmixed (keyTag_isDigit hd) h.symm).elim
    | some c =>
      cases hd : keyTag w with
      | none =>
        simp only [hc, hd, Option.toList_none, Option.toList_some, List.nil_append,
          List.cons_append] at h
        exact (hmixed (keyTag_isDigit hc) h).elim
      | some d =>
        simp only [hc, hd, Option.toList_some, List.nil_append, List.cons_append] at h
        obtain ⟨rfl, hrest⟩ := List.cons.inj h
        exact ⟨rfl, framed_append_inj hrest⟩
  exact ⟨keyTag_keyPayload_injective hv hw hparts.1 hparts.2.1, hparts.2.2⟩

theorem compositeKey_injective {vs ws : List Value} (hv : .null ∉ vs) (hw : .null ∉ ws)
    (h : vs.flatMap compositeKeyPart = ws.flatMap compositeKeyPart) : vs = ws := by
  have hne (v : Value) (rest : List Char) : compositeKeyPart v ++ rest ≠ [] := by
    obtain ⟨c, cs, hframe, -⟩ := framed_cons (keyPayload v)
    simp [compositeKeyPart, hframe]
  induction vs generalizing ws with
  | nil =>
    cases ws with
    | nil => rfl
    | cons w ws => exact absurd h.symm (hne w _)
  | cons v vs ih =>
    cases ws with
    | nil => exact absurd h (hne v _)
    | cons w ws =>
      rw [List.mem_cons, not_or] at hv hw
      rw [List.flatMap_cons, List.flatMap_cons] at h
      obtain ⟨rfl, hrest⟩ := compositeKeyPart_append_inj (Ne.symm hv.1) (Ne.symm hw.1) h
      rw [ih hv.2 hw.2 hrest]

/-- The key of a tuple of one width tells tuples apart. -/
theorem keyOfValues_injective {vs ws : List Value} (hv : .null ∉ vs) (hw : .null ∉ ws)
    (hlength : vs.length = ws.length) (h : keyOfValues vs = keyOfValues ws) : vs = ws := by
  match vs, ws with
  | [v], [w] =>
    have hv' : v ≠ .null := fun he => hv (he ▸ List.mem_cons_self)
    have hw' : w ≠ .null := fun he => hw (he ▸ List.mem_cons_self)
    rw [keyText_injective hv' hw' h]
  | [], [] => rfl
  | _ :: _ :: _, _ :: _ :: _ => exact compositeKey_injective hv hw h
  | [], _ :: _ => simp at hlength
  | _ :: _, [] => simp at hlength
  | [_], _ :: _ :: _ => simp at hlength
  | _ :: _ :: _, [_] => simp at hlength

theorem keyCells_spec {row : Row} {refs : List Nat} {vs : List Value}
    (h : keyCells row refs = some vs) : .null ∉ vs ∧ vs.length = refs.length := by
  induction refs generalizing vs with
  | nil =>
    cases h
    exact ⟨List.not_mem_nil, rfl⟩
  | cons index refs ih =>
    simp only [keyCells, Option.bind_eq_bind, Option.bind_eq_some_iff] at h
    obtain ⟨value, -, h⟩ := h
    split at h
    · cases h
    · rename_i hvalue
      obtain ⟨rest, hrest, h⟩ := Option.bind_eq_some_iff.mp h
      cases h
      obtain ⟨hnull, hlength⟩ := ih hrest
      refine ⟨?_, by simp [hlength]⟩
      rw [List.mem_cons, not_or]
      exact ⟨fun he => hvalue he.symm, hnull⟩

/-- Two rows have one key just when they have the same key cells. -/
theorem rowKey_eq_iff {row row' : Row} {refs : List Nat} {vs ws : List Value}
    (hv : keyCells row refs = some vs) (hw : keyCells row' refs = some ws) :
    rowKey row refs = rowKey row' refs ↔ vs = ws := by
  obtain ⟨hvnull, hvlength⟩ := keyCells_spec hv
  obtain ⟨hwnull, hwlength⟩ := keyCells_spec hw
  rw [rowKey, rowKey, hv, hw]
  constructor
  · intro h
    exact keyOfValues_injective hvnull hwnull (hvlength.trans hwlength.symm) (Option.some.inj h)
  · rintro rfl
    rfl

end Orm.Client
