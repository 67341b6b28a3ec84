import Orm.Logic.Json

/-! The scan of a JSON text for its depth, its lone surrogates and its repeated keys. -/
namespace Orm.Dbspec.Scan
open Orm.Logic.Utf16 Orm.Logic.Json

def maxDepth : Nat := 64

/-- The escapes of four digits in the rest of a token, each with its index and its unit. -/
def unitsFrom (i : Nat) : List UInt16 → List (Nat × Option UInt16)
  | [] => []
  | [_] => []
  | c :: d :: rest =>
    if c ≠ 92 then unitsFrom (i + 1) (d :: rest)
    else if d = 117 then (i, hexNumber (rest.take 4)) :: unitsFrom (i + 6) (rest.drop 4)
    else unitsFrom (i + 2) rest
termination_by s => s.length

def isHigh (u : Option UInt16) : Bool := u.any high

def isLow (u : Option UInt16) : Bool := u.any low

/-- Whether a high surrogate has no low one right after it, or a low one stands alone. -/
def loneAmong : List (Nat × Option UInt16) → Bool
  | [] => false
  | [(_, u)] => isHigh u || isLow u
  | (i, u) :: (j, v) :: rest =>
    if isHigh u then if j = i + 6 ∧ isLow v then loneAmong rest else true
    else if isLow u then true
    else loneAmong ((j, v) :: rest)

def hasLoneSurrogateEscape (token : List UInt16) : Bool := loneAmong (unitsFrom 1 token.tail)

/-- An open container: its keys when it is an object, and whether its next string is a key. -/
structure Frame where
  keys : Option (List (List UInt16))
  expectKey : Bool
  deriving DecidableEq, Repr

/-- The open containers, the innermost first, and what the scan reports. -/
structure State where
  stack : List Frame
  depth : Bool
  loneSurrogate : Bool
  repeated : Option (List UInt16)
  deriving DecidableEq, Repr

namespace State

def opened (s : State) (object : Bool) : State :=
  ⟨⟨if object then some [] else none, object⟩ :: s.stack,
    s.depth || decide (maxDepth < s.stack.length + 1), s.loneSurrogate, s.repeated⟩

def closed (s : State) : State := ⟨s.stack.tail, s.depth, s.loneSurrogate, s.repeated⟩

def comma (s : State) : State :=
  match s.stack with
  | ⟨some keys, _⟩ :: rest => ⟨⟨some keys, true⟩ :: rest, s.depth, s.loneSurrogate, s.repeated⟩
  | _ => s

attribute [local instance] units_lawful

/-- A string token; none where a key does not parse. -/
def string (s : State) (token : List UInt16) : Option State :=
  let lone := s.loneSurrogate || hasLoneSurrogateEscape token
  match s.stack with
  | ⟨some keys, true⟩ :: rest =>
    (unescape token.tail).map fun key =>
      ⟨⟨some (key :: keys), false⟩ :: rest, s.depth, lone,
        if key ∈ keys ∧ s.repeated.isNone then some key else s.repeated⟩
  | _ => some ⟨s.stack, s.depth, lone, s.repeated⟩

end State

/-- The units of a string before its closing quote; none where it is not closed, on which the
source's loop does not end. -/
def closing : List UInt16 → Option Nat
  | [] => none
  | [c] => if c = 34 then some 0 else none
  | c :: d :: rest =>
    if c = 34 then some 0
    else if c = 92 then (closing rest).map (· + 2)
    else (closing (d :: rest)).map (· + 1)

def scanFrom (s : State) : List UInt16 → Option State
  | [] => some s
  | c :: rest =>
    if c = 123 ∨ c = 91 then scanFrom (s.opened (c = 123)) rest
    else if c = 125 ∨ c = 93 then scanFrom s.closed rest
    else if c = 44 then scanFrom s.comma rest
    else if c = 34 then
      (closing rest).bind fun n =>
        (s.string (c :: rest.take (n + 1))).bind fun s => scanFrom s (rest.drop (n + 1))
    else scanFrom s rest
termination_by text => text.length

structure Scanned where
  depth : Bool
  loneSurrogate : Bool
  repeated : Option (List UInt16)
  deriving DecidableEq, Repr

/-- The report of a text; none where the scan throws or does not end. -/
def scanJson (text : List UInt16) : Option Scanned :=
  (scanFrom ⟨[], false, false, none⟩ text).map fun s => ⟨s.depth, s.loneSurrogate, s.repeated⟩

section Surrogates
variable {s : List StringChar} {u : UInt16} {i : Nat}

/-- The escapes of four digits of a string that starts at an index. -/
def escapesFrom (i : Nat) : List StringChar → List (Nat × Option UInt16)
  | [] => []
  | c :: s =>
    (c.escaped.map fun u => (i, some u)).toList ++ escapesFrom (i + c.text.length) s

theorem unitsFrom_inner (i : Nat) (s : List StringChar) :
    unitsFrom i (innerText s ++ [34]) = escapesFrom i s := by
  induction s generalizing i with
  | nil => simp [innerText, escapesFrom, unitsFrom]
  | cons c s ih =>
    obtain ⟨d, rest, hrest⟩ : ∃ d rest, innerText s ++ [34] = d :: rest :=
      List.exists_cons_of_ne_nil (by simp)
    cases c with
    | raw u plain =>
      have htext : innerText (.raw u plain :: s) ++ [34] = u :: d :: rest := by
        rw [← hrest]
        rfl
      rw [htext, unitsFrom, if_pos plain.2.2, ← hrest, ih]
      rfl
    | escape e =>
      have htext : innerText (.escape e :: s) ++ [34] = 92 :: e.letter :: (innerText s ++ [34]) := rfl
      have hletter : e.letter ≠ 117 := by cases e <;> decide
      rw [htext, unitsFrom, if_neg (by decide), if_neg hletter, ih]
      rfl
    | unicode ds u four hex =>
      have htext : innerText (.unicode ds u four hex :: s) ++ [34] =
          92 :: 117 :: (ds ++ (innerText s ++ [34])) := by
        simp [innerText, StringChar.text]
      have htake : (ds ++ (innerText s ++ [34])).take 4 = ds := by rw [← four, List.take_left]
      have hdrop : (ds ++ (innerText s ++ [34])).drop 4 = innerText s ++ [34] := by
        rw [← four, List.drop_left]
      rw [htext, unitsFrom, if_neg (by decide), if_pos rfl, htake, hdrop, hex, ih, escapesFrom]
      simp [StringChar.escaped, StringChar.text, four]

theorem escaped_length {c : StringChar} (h : c.escaped = some u) : c.text.length = 6 := by
  cases c with
  | unicode ds u four hex => simp [StringChar.text, four]
  | _ => cases h

theorem text_length_pos (c : StringChar) : 0 < c.text.length := by
  cases c <;> simp [StringChar.text]

theorem escapesFrom_index {p : Nat × Option UInt16} (h : p ∈ escapesFrom i s) : i ≤ p.1 := by
  induction s generalizing i with
  | nil => simp [escapesFrom] at h
  | cons c s ih =>
    rcases List.mem_append.mp h with h | h
    · obtain ⟨u, -, rfl⟩ := Option.map_eq_some_iff.mp (Option.mem_toList.mp h)
      exact le_rfl
    · have hle := ih h
      omega

/-- A lone surrogate in what follows an escape or another character. -/
def LoneAfter (p : Option UInt16) (s : List StringChar) : Prop :=
  ∃ a c b u, s = a ++ c :: b ∧ c.escaped = some u ∧
    ((high u = true ∧ (b.head?.bind StringChar.escaped).any low = false) ∨
      (low u = true ∧ ((a.getLast?.map StringChar.escaped).getD p).any high = false))

theorem lone_iff_after : Lone s ↔ LoneAfter none s := by
  have hbind : ∀ a : List StringChar,
      a.getLast?.bind StringChar.escaped = (a.getLast?.map StringChar.escaped).getD none := by
    intro a
    cases a.getLast? <;> rfl
  simp only [Lone, LoneAfter, hbind]

theorem loneAfter_nil (p : Option UInt16) : ¬ LoneAfter p [] := by
  rintro ⟨a, c, b, u, h, -⟩
  simp at h

theorem loneAfter_cons {p : Option UInt16} {c : StringChar} :
    LoneAfter p (c :: s) ↔
      (∃ u, c.escaped = some u ∧
        ((high u = true ∧ (s.head?.bind StringChar.escaped).any low = false) ∨
          (low u = true ∧ p.any high = false))) ∨ LoneAfter c.escaped s := by
  have hlast : ∀ a : List StringChar, ((c :: a).getLast?.map StringChar.escaped).getD p =
      (a.getLast?.map StringChar.escaped).getD c.escaped := by
    intro a
    rw [List.getLast?_cons]
    cases a.getLast? <;> rfl
  constructor
  · rintro ⟨a, d, b, u, hs, hu, hlone⟩
    cases a with
    | nil =>
      cases hs
      exact .inl ⟨u, hu, hlone⟩
    | cons e a =>
      cases hs
      rw [hlast] at hlone
      exact .inr ⟨a, d, b, u, rfl, hu, hlone⟩
  · rintro (⟨u, hu, hlone⟩ | ⟨a, d, b, u, rfl, hu, hlone⟩)
    · exact ⟨[], c, s, u, rfl, hu, hlone⟩
    · refine ⟨c :: a, d, b, u, rfl, hu, ?_⟩
      rwa [hlast]

theorem loneAfter_cons_plain {p : Option UInt16} {c : StringChar} (h : c.escaped = none) :
    LoneAfter p (c :: s) ↔ LoneAfter none s := by
  rw [loneAfter_cons, h]
  simp

theorem high_not_low (h : high u = true) : low u = false := by
  by_contra hlow
  rw [low_not_high (by simpa using hlow)] at h
  cases h

/-- The scan of the escapes of a string, after what is no escaped high surrogate. -/
theorem loneAmong_escapes (s : List StringChar) (i : Nat) (p : Option UInt16)
    (hp : p.any high = false) : loneAmong (escapesFrom i s) = true ↔ LoneAfter p s := by
  induction hn : s.length using Nat.strong_induction_on generalizing s i p with
  | _ n ih =>
  subst hn
  cases s with
  | nil => simp [escapesFrom, loneAmong, loneAfter_nil]
  | cons c s =>
    have hnext := fun p hp => ih s.length (by simp) s (i + c.text.length) p hp rfl
    cases hc : c.escaped with
    | none =>
      rw [loneAfter_cons_plain hc, ← hnext none rfl, escapesFrom, hc]
      rfl
    | some u =>
      rw [loneAfter_cons, hc, escapesFrom, hc, escaped_length hc]
      rw [escaped_length hc] at hnext
      simp only [Option.map_some, Option.toList_some, List.singleton_append, Option.some.injEq,
        exists_eq_left']
      by_cases hhigh : high u = true
      · cases s with
        | nil => simp [escapesFrom, loneAmong, isHigh, hhigh]
        | cons d s =>
          cases hd : d.escaped with
          | none =>
            have hleft : loneAmong ((i, some u) :: escapesFrom (i + 6) (d :: s)) = true := by
              cases hrest : escapesFrom (i + 6) (d :: s) with
              | nil => simp [loneAmong, isHigh, hhigh]
              | cons q rest =>
                have hq : q ∈ escapesFrom (i + 6 + d.text.length) s := by
                  have hsame : escapesFrom (i + 6 + d.text.length) s = q :: rest := by
                    simpa [escapesFrom, hd] using hrest
                  rw [hsame]
                  exact List.mem_cons_self
                have hindex := escapesFrom_index hq
                have hpos := text_length_pos d
                have hne : q.1 ≠ i + 6 := by omega
                simp [loneAmong, isHigh, hhigh, hne]
            simp [hleft, hhigh, hd]
          | some v =>
            have hafter := ih s.length (by simp) s (i + 12) (some v)
            rw [escapesFrom, hd, escaped_length hd]
            simp only [Option.map_some, Option.toList_some, List.singleton_append]
            by_cases hlow : low v = true
            · have hpair : loneAmong ((i, some u) :: (i + 6, some v) :: escapesFrom (i + 12) s) =
                  loneAmong (escapesFrom (i + 12) s) := by
                simp [loneAmong, isHigh, isLow, hhigh, hlow]
              rw [hpair, hafter (by simpa using low_not_high hlow) rfl, loneAfter_cons, hd]
              simp [hd, hlow, hhigh, high_not_low hhigh, low_not_high hlow]
            · simp [loneAmong, isHigh, isLow, hhigh, hlow, hd]
      · by_cases hlow : low u = true
        · have hleft : loneAmong ((i, some u) :: escapesFrom (i + 6) s) = true := by
            cases escapesFrom (i + 6) s with
            | nil => simp [loneAmong, isLow, hlow]
            | cons q rest => simp [loneAmong, isHigh, isLow, hhigh, hlow]
          simp [hleft, hlow, hp]
        · have hleft : loneAmong ((i, some u) :: escapesFrom (i + 6) s) =
              loneAmong (escapesFrom (i + 6) s) := by
            cases escapesFrom (i + 6) s with
            | nil => simp [loneAmong, isHigh, isLow, hhigh, hlow]
            | cons q rest => simp [loneAmong, isHigh, isLow, hhigh, hlow]
          rw [hleft, hnext (some u) (by simpa using hhigh)]
          simp [hhigh, hlow]

theorem hasLone_quoted (s : List StringChar) : hasLoneSurrogateEscape (quoted s) = true ↔ Lone s := by
  have htail : (quoted s).tail = innerText s ++ [34] := rfl
  rw [hasLoneSurrogateEscape, htail, unitsFrom_inner, lone_iff_after]
  exact loneAmong_escapes s 1 none rfl

end Surrogates

section Steps
variable {s : State} {c : UInt16} {rest : List UInt16}

/-- A unit that the scan passes over. -/
def Passed (u : UInt16) : Prop := u ≠ 123 ∧ u ≠ 91 ∧ u ≠ 125 ∧ u ≠ 93 ∧ u ≠ 44 ∧ u ≠ 34

instance : DecidablePred Passed := fun _ => inferInstanceAs (Decidable (_ ∧ _))

theorem scanFrom_passed {l : List UInt16} (h : ∀ u ∈ l, Passed u) (s : State)
    (rest : List UInt16) : scanFrom s (l ++ rest) = scanFrom s rest := by
  induction l with
  | nil => rfl
  | cons u l ih =>
    obtain ⟨h123, h91, h125, h93, h44, h34⟩ := h u (by simp)
    rw [List.cons_append, scanFrom, if_neg (by tauto), if_neg (by tauto), if_neg h44, if_neg h34]
    exact ih fun v hv => h v (by simp [hv])

theorem scanFrom_space (w : Space) (s : State) (rest : List UInt16) :
    scanFrom s (w.val ++ rest) = scanFrom s rest := by
  apply scanFrom_passed
  intro u hu
  rcases w.property u hu with rfl | rfl | rfl | rfl <;> decide

theorem passed_of_digit {u : UInt16} (h : digit u) : Passed u := by
  obtain ⟨hlow, hhigh⟩ := h
  refine ⟨?_, ?_, ?_, ?_, ?_, ?_⟩ <;> rintro rfl <;> revert hlow hhigh <;> decide

theorem passed_number {t : List UInt16} (h : NumberText t) : ∀ u ∈ t, Passed u := by
  obtain ⟨sign, whole, fraction, exponent, rfl, hsign, hwhole, hfraction, hexponent⟩ := h
  rw [List.forall_mem_append, List.forall_mem_append, List.forall_mem_append]
  refine ⟨⟨⟨?_, ?_⟩, ?_⟩, ?_⟩
  · rcases hsign with rfl | rfl <;> simp [Passed]
  · rcases hwhole with rfl | ⟨d, ds, rfl, hd, hd', hds⟩
    · simp [Passed]
    · have hone : (48 : UInt16) ≤ 49 := by decide
      exact List.forall_mem_cons.mpr
        ⟨passed_of_digit ⟨UInt16.le_trans hone hd, hd'⟩, fun u hu => passed_of_digit (hds u hu)⟩
  · rcases hfraction with rfl | ⟨ds, rfl, -, hds⟩
    · simp [Passed]
    · exact List.forall_mem_cons.mpr ⟨by decide, fun u hu => passed_of_digit (hds u hu)⟩
  · rcases hexponent with rfl | ⟨e, s, ds, rfl, he, hs, -, hds⟩
    · simp [Passed]
    · rw [List.forall_mem_cons, List.forall_mem_append]
      refine ⟨?_, ?_, fun u hu => passed_of_digit (hds u hu)⟩
      · rcases he with rfl | rfl <;> decide
      · rcases hs with rfl | rfl | rfl <;> simp [Passed]

theorem scanFrom_scalar (t : Scalar) (s : State) (rest : List UInt16) :
    scanFrom s (t.val ++ rest) = scanFrom s rest := by
  apply scanFrom_passed
  obtain ⟨t, ht⟩ := t
  rcases ht with ht | rfl | rfl | rfl
  · exact passed_number ht
  · simp [Passed]
  · simp [Passed]
  · simp [Passed]

theorem closing_cons {u : UInt16} (hquote : u ≠ 34) (hslash : u ≠ 92) (r : List UInt16) :
    closing (u :: r) = (closing r).map (· + 1) := by
  cases r with
  | nil => simp [closing, hquote]
  | cons d r => rw [closing, if_neg hquote, if_neg hslash]

theorem closing_append {l : List UInt16} (h : ∀ u ∈ l, u ≠ 34 ∧ u ≠ 92) (r : List UInt16) :
    closing (l ++ r) = (closing r).map (· + l.length) := by
  induction l with
  | nil => simp
  | cons u l ih =>
    obtain ⟨hu, hl⟩ := List.forall_mem_cons.mp h
    rw [List.cons_append, closing_cons hu.1 hu.2, ih hl, Option.map_map]
    rfl

theorem hex_plain {ds : List UInt16} {u : UInt16} (h : hexNumber ds = some u) :
    ∀ d ∈ ds, d ≠ 34 ∧ d ≠ 92 := by
  obtain ⟨ns, hns, -⟩ := Option.map_eq_some_iff.mp h
  clear h
  induction ds generalizing ns with
  | nil => simp
  | cons d ds ih =>
    rw [List.mapM_cons] at hns
    obtain ⟨n, hn, hrest⟩ := Option.bind_eq_some_iff.mp hns
    obtain ⟨ms, hms, -⟩ := Option.bind_eq_some_iff.mp hrest
    refine List.forall_mem_cons.mpr ⟨⟨?_, ?_⟩, ih ms hms⟩
    · rintro rfl
      cases hn
    · rintro rfl
      cases hn

theorem closing_inner (s : List StringChar) (rest : List UInt16) :
    closing (innerText s ++ 34 :: rest) = some (innerText s).length := by
  induction s with
  | nil => cases rest <;> rfl
  | cons c s ih =>
    have hsplit : innerText (c :: s) = c.text ++ innerText s := rfl
    rw [hsplit, List.append_assoc, List.length_append]
    cases c with
    | raw u plain =>
      rw [StringChar.text, List.singleton_append, closing_cons plain.2.1 plain.2.2, ih]
      simp [Nat.add_comm]
    | escape e =>
      rw [StringChar.text, List.cons_append, List.singleton_append, closing, if_neg (by decide),
        if_pos rfl, ih]
      simp [Nat.add_comm]
    | unicode ds u four hex =>
      rw [StringChar.text, List.cons_append, List.cons_append, closing, if_neg (by decide),
        if_pos rfl, closing_append (hex_plain hex), ih]
      simp
      omega

/-- The scan reads a string as one token. -/
theorem scanFrom_quoted (k : List StringChar) (s : State) (rest : List UInt16) :
    scanFrom s (quoted k ++ rest) = (s.string (quoted k)).bind fun s => scanFrom s rest := by
  have htext : quoted k ++ rest = 34 :: (innerText k ++ 34 :: rest) := by simp [quoted]
  have hsplit : innerText k ++ 34 :: rest = (innerText k ++ [34]) ++ rest := by simp
  have hlength : (innerText k ++ [34]).length = (innerText k).length + 1 := by simp
  rw [htext, scanFrom, if_neg (by decide), if_neg (by decide), if_neg (by decide), if_pos rfl,
    closing_inner, Option.bind_some, hsplit, ← hlength, List.take_left, List.drop_left]
  rfl

theorem scanFrom_open (h : c = 123 ∨ c = 91) :
    scanFrom s (c :: rest) = scanFrom (s.opened (c = 123)) rest := by
  rw [scanFrom, if_pos h]

theorem scanFrom_close (h : c = 125 ∨ c = 93) :
    scanFrom s (c :: rest) = scanFrom s.closed rest := by
  rw [scanFrom, if_neg (by rcases h with rfl | rfl <;> decide), if_pos h]

theorem scanFrom_comma : scanFrom s (44 :: rest) = scanFrom s.comma rest := by
  rw [scanFrom, if_neg (by decide), if_neg (by decide), if_pos rfl]

end Steps

namespace State
variable (s : State)

/-- A state after a value of a depth, with strings and with repeated keys. -/
def saw (n : Nat) (strings : List (List StringChar)) (keys : List (List UInt16)) : State :=
  ⟨s.stack, s.depth || decide (0 < n ∧ maxDepth < s.stack.length + n),
    s.loneSurrogate || strings.any fun k => hasLoneSurrogateEscape (quoted k),
    s.repeated.or keys.head?⟩

/-- A state within one more container. -/
def push (f : Frame) : State := ⟨f :: s.stack, s.depth, s.loneSurrogate, s.repeated⟩

/-- The next string is no key. -/
def Quiet : Prop := ∀ f ∈ s.stack.head?, f.keys = none ∨ f.expectKey = false

theorem saw_zero : s.saw 0 [] [] = s := by
  simp [saw]

theorem saw_saw (n m : Nat) (a b : List (List StringChar)) (k l : List (List UInt16)) :
    (s.saw n a k).saw m b l = s.saw (max n m) (a ++ b) (k ++ l) := by
  have hdepth : (decide (0 < n ∧ maxDepth < s.stack.length + n) ||
      decide (0 < m ∧ maxDepth < s.stack.length + m)) =
        decide (0 < max n m ∧ maxDepth < s.stack.length + max n m) := by
    rw [← Bool.decide_or, decide_eq_decide]
    omega
  refine State.mk.injEq .. ▸ ⟨rfl, ?_, ?_, ?_⟩
  · exact (Bool.or_assoc ..).trans (congrArg (s.depth || ·) hdepth)
  · rw [List.any_append, ← Bool.or_assoc]
    rfl
  · rw [List.head?_append, ← Option.or_assoc]
    rfl

theorem exists_push (n : Nat) (a : List (List StringChar)) (k : List (List UInt16)) :
    ∃ s' : State, ∀ f, (s.push f).saw n a k = s'.push f := by
  obtain ⟨t, ht⟩ : ∃ t, t = (s.push ⟨none, false⟩).saw n a k := ⟨_, rfl⟩
  refine ⟨⟨s.stack, t.depth, t.loneSurrogate, t.repeated⟩, ?_⟩
  intro f
  rw [ht]
  rfl

theorem opened_eq (object : Bool) :
    s.opened object = (s.saw 1 [] []).push ⟨if object then some [] else none, object⟩ := by
  simp [opened, saw, push]

theorem closed_push (f : Frame) (n : Nat) (a : List (List StringChar)) (k : List (List UInt16)) :
    (((s.saw 1 [] []).push f).saw n a k).closed = s.saw (n + 1) a k := by
  have hdepth : (decide (0 < 1 ∧ maxDepth < s.stack.length + 1) ||
      decide (0 < n ∧ maxDepth < s.stack.length + 1 + n)) =
        decide (0 < n + 1 ∧ maxDepth < s.stack.length + (n + 1)) := by
    rw [← Bool.decide_or, decide_eq_decide]
    omega
  simp only [saw, push, closed, List.length_cons, List.tail_cons, Bool.or_assoc, hdepth,
    List.any_nil, Bool.false_or, List.head?_nil, Option.or_none]

theorem string_quiet {s : State} (h : s.Quiet) (k : List StringChar) :
    s.string (quoted k) = some (s.saw 0 [k] []) := by
  unfold string
  simp only
  split
  · next keys rest hstack =>
    have hframe := h ⟨some keys, true⟩ (by rw [hstack]; rfl)
    simp at hframe
  · simp [saw]

theorem string_key (seen : List (List UInt16)) (k : List StringChar) :
    (s.push ⟨some seen, true⟩).string (quoted k) =
      some ((s.push ⟨some (value k :: seen), false⟩).saw 0 [k] (repeatedKey seen (value k))) := by
  have htail : (quoted k).tail = innerText k ++ [34] := rfl
  have hrepeated : (if value k ∈ seen ∧ s.repeated.isNone then some (value k) else s.repeated) =
      s.repeated.or (repeatedKey seen (value k)).head? := by
    unfold repeatedKey
    by_cases hmem : value k ∈ seen
    · cases s.repeated <;> simp [hmem]
    · simp [hmem]
  simp [string, push, saw, htail, unescape_inner, ← hrepeated]

theorem comma_member (seen : List (List UInt16)) (b : Bool) (n : Nat)
    (a : List (List StringChar)) (k : List (List UInt16)) :
    ((s.push ⟨some seen, b⟩).saw n a k).comma = (s.push ⟨some seen, true⟩).saw n a k := rfl

theorem comma_item (n : Nat) (a : List (List StringChar)) (k : List (List UInt16)) :
    ((s.push ⟨none, false⟩).saw n a k).comma = (s.push ⟨none, false⟩).saw n a k := rfl

end State

open State

/-- The scan of a value where no key is awaited adds what the value holds. -/
def Scans (e : Element) : Prop :=
  ∀ (s : State) (rest : List UInt16), s.Quiet →
    scanFrom s (e.text ++ rest) = scanFrom (s.saw e.depth e.strings e.repeats) rest

theorem Scans.member {e : Element} (h : Scans e) (w w' : Space) (k : List StringChar) (s : State)
    (seen : List (List UInt16)) (rest : List UInt16) :
    scanFrom (s.push ⟨some seen, true⟩) (w.val ++ quoted k ++ w'.val ++ 58 :: e.text ++ rest) =
      scanFrom ((s.push ⟨some (value k :: seen), false⟩).saw e.depth (k :: e.strings)
        (repeatedKey seen (value k) ++ e.repeats)) rest := by
  have hquiet : ((s.push ⟨some (value k :: seen), false⟩).saw 0 [k]
      (repeatedKey seen (value k))).Quiet := by
    intro f hf
    cases hf
    exact .inr rfl
  have hcolon : ∀ u ∈ [(58 : UInt16)], Passed u := by simp [Passed]
  have htext : w.val ++ quoted k ++ w'.val ++ 58 :: e.text ++ rest =
      w.val ++ (quoted k ++ (w'.val ++ ([58] ++ (e.text ++ rest)))) := by simp
  rw [htext, scanFrom_space, scanFrom_quoted, string_key, Option.bind_some, scanFrom_space,
    scanFrom_passed hcolon, h _ _ hquiet, saw_saw, Nat.zero_max]
  rfl

mutual

theorem scan_element (e : Element) : Scans e := by
  intro s rest h
  cases e with
  | scalar w t w' =>
    rw [Element.text, List.append_assoc, List.append_assoc, scanFrom_space, scanFrom_scalar,
      scanFrom_space, Element.depth, Element.strings, Element.repeats, saw_zero]
  | str w k w' =>
    rw [Element.text, List.append_assoc, List.append_assoc, scanFrom_space, scanFrom_quoted,
      string_quiet h, Option.bind_some, scanFrom_space]
    rfl
  | emptyArray w v w' =>
    rw [Element.text, List.append_assoc, List.append_assoc, scanFrom_space, List.cons_append,
      scanFrom_open (.inr rfl), scanFrom_space, List.cons_append, scanFrom_close (.inr rfl),
      scanFrom_space, opened_eq, ← saw_zero (State.push _ _), closed_push]
    rfl
  | array w items w' =>
    rw [Element.text, List.append_assoc, List.append_assoc, scanFrom_space, List.cons_append,
      scanFrom_open (.inr rfl), opened_eq]
    have hitems := scan_elements items (s.saw 1 [] []) (93 :: w'.val ++ rest)
    rw [show (⟨if decide ((91 : UInt16) = 123) = true then some [] else none,
      decide ((91 : UInt16) = 123)⟩ : Frame) = ⟨none, false⟩ from rfl, hitems, List.cons_append,
      scanFrom_close (.inr rfl), closed_push, scanFrom_space]
    rfl
  | emptyObject w v w' =>
    rw [Element.text, List.append_assoc, List.append_assoc, scanFrom_space, List.cons_append,
      scanFrom_open (.inl rfl), scanFrom_space, List.cons_append, scanFrom_close (.inl rfl),
      scanFrom_space, opened_eq, ← saw_zero (State.push _ _), closed_push]
    rfl
  | object w members w' =>
    rw [Element.text, List.append_assoc, List.append_assoc, scanFrom_space, List.cons_append,
      scanFrom_open (.inl rfl), opened_eq]
    obtain ⟨seen, hmembers⟩ :=
      scan_members members (s.saw 1 [] []) [] (125 :: w'.val ++ rest)
    rw [show (⟨if decide ((123 : UInt16) = 123) = true then some [] else none,
      decide ((123 : UInt16) = 123)⟩ : Frame) = ⟨some [], true⟩ from rfl, hmembers,
      List.cons_append, scanFrom_close (.inl rfl), closed_push, scanFrom_space]
    rfl

theorem scan_elements (es : Elements) (s : State) (rest : List UInt16) :
    scanFrom (s.push ⟨none, false⟩) (es.text ++ rest) =
      scanFrom ((s.push ⟨none, false⟩).saw es.depth es.strings es.repeats) rest := by
  have hquiet : ∀ s : State, (s.push ⟨none, false⟩).Quiet := by
    intro s f hf
    cases hf
    exact .inl rfl
  cases es with
  | one e => exact scan_element e _ rest (hquiet s)
  | more e es =>
    obtain ⟨s', hs'⟩ := s.exists_push e.depth e.strings e.repeats
    rw [Elements.text, List.append_assoc, scan_element e _ _ (hquiet s), List.cons_append,
      scanFrom_comma, comma_item, hs', scan_elements es s' rest, ← hs', saw_saw]
    rfl

theorem scan_members (ms : Members) (s : State) (seen : List (List UInt16)) (rest : List UInt16) :
    ∃ seen', scanFrom (s.push ⟨some seen, true⟩) (ms.text ++ rest) =
      scanFrom ((s.push ⟨some seen', false⟩).saw ms.depth ms.strings (ms.repeats seen)) rest := by
  cases ms with
  | one w k w' e => exact ⟨_, (scan_element e).member w w' k s seen rest⟩
  | more w k w' e ms =>
    obtain ⟨s', hs'⟩ := s.exists_push e.depth (k :: e.strings)
      (repeatedKey seen (value k) ++ e.repeats)
    obtain ⟨seen', hms⟩ := scan_members ms s' (value k :: seen) rest
    refine ⟨seen', ?_⟩
    rw [Members.text, List.append_assoc _ (44 :: ms.text), (scan_element e).member,
      List.cons_append, scanFrom_comma, comma_member, hs', hms, ← hs', saw_saw]
    simp [Members.depth, Members.strings, Members.repeats]

end

/-- On every JSON text the scan reports the first repeated key, a depth beyond the limit and a lone
escaped surrogate, and nothing else. -/
theorem scanJson_text (e : Element) :
    ∃ r, scanJson e.text = some r ∧
      (r.repeated.isSome = true ↔ ∃ keys ∈ e.objects, ¬ keys.Nodup) ∧
      r.repeated = e.repeats.head? ∧
      (r.depth = true ↔ maxDepth < e.depth) ∧
      (r.loneSurrogate = true ↔ ∃ k ∈ e.strings, Lone k) := by
  have hquiet : (⟨[], false, false, none⟩ : State).Quiet := by
    intro f hf
    cases hf
  have hscan := scan_element e ⟨[], false, false, none⟩ [] hquiet
  rw [List.append_nil, scanFrom] at hscan
  refine ⟨_, by rw [scanJson, hscan, Option.map_some], ?_, ?_, ?_, ?_⟩
  · simp only [saw, Option.none_or, List.isSome_head?, ne_eq, e.repeats_eq_nil]
    push Not
    rfl
  · simp [saw]
  · simp only [saw, Bool.false_or, decide_eq_true_eq, List.length_nil, Nat.zero_add, maxDepth]
    omega
  · simp [saw, hasLone_quoted]

end Orm.Dbspec.Scan
