import Orm.Logic.Nearest
import Orm.Logic.Padded
import Orm.Client.Keys
import Orm.Client.Serialize

/-! The identities of collection keys: integers as numbers or big integers, texts, booleans, bytes and
instants. -/
namespace Orm.Client

open Orm.Logic

section Numbers

/-- The double nearest to an integer, ties to even. -/
def nearestDouble (n : Nat) : Nat :=
  if n < 2 ^ 53 then n
  else roundEven n (2 ^ (n.log2 - 52)) * 2 ^ (n.log2 - 52)

/-- The multiples of `10 ^ p` next to `n` that are read as `n`; the nearest one first. -/
def decimals (n p : Nat) : List Nat :=
  let low := n / 10 ^ p
  let order := if n % 10 ^ p * 2 ≤ 10 ^ p then [low, low + 1] else [low + 1, low]
  order.filter fun s => nearestDouble (s * 10 ^ p) = n

/-- The fewest digits that are read as `n`, with the number of zeros after them; `p` is the number of
zeros to try. -/
def shortestDigits (n : Nat) : Nat → Nat × Nat
  | 0 => (n, 0)
  | p + 1 =>
    match decimals n (p + 1) with
    | s :: _ => (s, p + 1)
    | [] => shortestDigits n p

/-- `String` of a positive integer that is a number: digits up to `10 ^ 21`, and then an exponent. -/
def positiveNumberText (n : Nat) : List Char :=
  let (s, zeros) := shortestDigits n (digits n).length
  let ds := digits s
  if ds.length + zeros ≤ 21 then ds ++ List.replicate zeros '0'
  else ds.take 1 ++ (if ds.tail = [] then [] else '.' :: ds.tail) ++
    ['e', '+'] ++ digits (ds.length + zeros - 1)

/-- `String` of an integer that is a number. -/
def numberText (v : Int) : List Char :=
  if v = 0 then ['0']
  else if v < 0 then '-' :: positiveNumberText v.natAbs
  else positiveNumberText v.natAbs

/-- An integer that is a number: 53 bits at a binary exponent. -/
def IsNumber (v : Int) : Prop := ∃ m e : Nat, m < 2 ^ 53 ∧ e ≤ 971 ∧ v.natAbs = m * 2 ^ e

end Numbers

section Model

def leapYear (year : Int) : Bool := year % 4 = 0 ∧ (year % 100 ≠ 0 ∨ year % 400 = 0)

def daysInMonth (year : Int) (month : Nat) : Nat :=
  if month = 2 then if leapYear year then 29 else 28
  else if month = 4 ∨ month = 6 ∨ month = 9 ∨ month = 11 then 30
  else 31

/-- The UTC fields of an instant down to its second. -/
structure Moment where
  year : Int
  month : Nat
  day : Nat
  hour : Nat
  minute : Nat
  second : Nat
  year_range : -271821 ≤ year ∧ year ≤ 275760
  month_range : 1 ≤ month ∧ month ≤ 12
  day_range : 1 ≤ day ∧ day ≤ daysInMonth year month
  hour_lt : hour < 24
  minute_lt : minute < 60
  second_lt : second < 60

/-- The year of `toISOString`. -/
def isoYear (year : Int) : List Char :=
  if 0 ≤ year ∧ year ≤ 9999 then padded 4 year.natAbs
  else (if year < 0 then '-' else '+') :: padded 6 year.natAbs

/-- The fields of a moment, with a character between date and time. -/
def Moment.text (t : Moment) (between : Char) : List Char :=
  isoYear t.year ++ '-' :: (padded 2 t.month ++ '-' :: (padded 2 t.day ++ between ::
    (padded 2 t.hour ++ ':' :: (padded 2 t.minute ++ ':' :: padded 2 t.second))))

/-- A text after `.replace(/(\.\d*?)0*$/, '$1')`. -/
def trimFraction : List Char → List Char
  | [] => []
  | c :: rest =>
    if c = '.' ∧ Digits rest then '.' :: trimZeros rest else c :: trimFraction rest

/-- A text after `.replace(/\.$/, '')`. -/
def dropPoint (s : List Char) : List Char := if s.getLast? = some '.' then s.dropLast else s

/-- A text after `.replace(' ', 'T')`. -/
def spaceToT : List Char → List Char
  | [] => []
  | c :: rest => if c = ' ' then 'T' :: rest else c :: spaceToT rest

def keyInstant (text : List Char) : List Char := dropPoint (trimFraction (spaceToT text)) ++ ['Z']

/-- The text of a date: `toISOString` with no trailing zero of its fraction. -/
def isoTrimmed (t : Moment) (millis : Nat) : List Char :=
  let trimmed := trimZeros (padded 3 millis)
  t.text 'T' ++ (if trimmed = [] then [] else '.' :: trimmed) ++ ['Z']

/-- The stored text of a date and time with up to six fraction digits. -/
structure Stamp where
  moment : Moment
  fraction : List Char
  year_range : 0 ≤ moment.year ∧ moment.year ≤ 9999
  digits : Digits fraction
  length_le : fraction.length ≤ 6

def Stamp.text (s : Stamp) : List Char :=
  s.moment.text ' ' ++ (if s.fraction = [] then [] else '.' :: s.fraction)

/-- A component of a collection key that is not NULL. -/
inductive Component where
  | bigint (i : Int)
  | number (v : Int) (h : IsNumber v)
  | text (s : List Char)
  | bool (b : Bool)
  | bytes (b : Bytes)
  | date (t : Moment) (millis : Fin 1000)
  | datetime (s : Stamp)

/-- The text of a date, where a component is one. -/
def Component.dateText : Component → Option (List Char)
  | .date t millis => some (isoTrimmed t millis)
  | .datetime s => some (keyInstant s.text)
  | _ => none

/-- The value of a component that is not a date. -/
def Component.value : Component → Value
  | .bigint i => .number (intDigits i)
  | .number v _ => .number (numberText v)
  | .text s => .text s
  | .bool b => .bool b
  | .bytes b => .bytes b
  | .date .. | .datetime .. => .null

def componentText (c : Component) : List Char :=
  match c.dateText with
  | some s => 'd' :: ':' :: s
  | none => keyText c.value

def componentPart (c : Component) : List Char :=
  match c.dateText with
  | some s => 'd' :: framed s
  | none => compositeKeyPart c.value

/-- `keyOfValues` with dates. -/
def componentsKey (components : List Component) : List Char :=
  match components with
  | [c] => componentText c
  | components => components.flatMap componentPart

/-- The type of a column. -/
inductive KeyKind where
  | integer | text | bool | bytes | date
  deriving DecidableEq

def Component.kind : Component → KeyKind
  | .bigint _ | .number .. => .integer
  | .text _ => .text
  | .bool _ => .bool
  | .bytes _ => .bytes
  | .date .. | .datetime _ => .date

/-- What a component stands for: integers by value and dates by instant. -/
inductive Identity where
  | integer (i : Int)
  | text (s : List Char)
  | bool (b : Bool)
  | bytes (b : Bytes)
  | instant (t : Moment) (micros : Nat)

def Component.identity : Component → Identity
  | .bigint i => .integer i
  | .number v _ => .integer v
  | .text s => .text s
  | .bool b => .bool b
  | .bytes b => .bytes b
  | .date t millis => .instant t (millis * 1000)
  | .datetime s => .instant s.moment (units 6 s.fraction)

end Model

section Texts
variable {t u : Moment} {f g r s : List Char}

/-- A fraction with its point, where it has digits. -/
def pointed (f : List Char) : List Char := if f = [] then [] else '.' :: f

theorem isoYear_append_inj (ht : t.year.natAbs < 10 ^ 6) (hu : u.year.natAbs < 10 ^ 6)
    (h : isoYear t.year ++ r = isoYear u.year ++ s) : t.year = u.year ∧ r = s := by
  -- a year of four digits starts with a digit, and another one with a sign
  have hhead (k n : Nat) (l : List Char) {c : Char} (hc : c.isDigit = false) :
      ∀ rest, padded k n ++ l ≠ c :: rest := by
    intro rest heq
    obtain ⟨d, ds, hds⟩ := List.exists_cons_of_ne_nil (digits_ne_nil n)
    have hne : padded k n ≠ [] := by simp [padded, hds]
    obtain ⟨e, es, hes⟩ := List.exists_cons_of_ne_nil hne
    rw [hes, List.cons_append] at heq
    have hdigit := padded_digits k n e (hes ▸ List.mem_cons_self)
    rw [(List.cons.inj heq).1, hc] at hdigit
    cases hdigit
  unfold isoYear at h
  split_ifs at h with h1 h2 h3 h4 h5 h6 h7
  · obtain ⟨hy, hrest⟩ := padded_append_inj (by decide) (by omega) (by omega) h
    exact ⟨by omega, hrest⟩
  · exact absurd h (hhead _ _ _ (by decide) _)
  · exact absurd h (hhead _ _ _ (by decide) _)
  · exact absurd h.symm (hhead _ _ _ (by decide) _)
  · obtain ⟨hy, hrest⟩ := padded_append_inj (by decide) ht hu (List.cons.inj h).2
    exact ⟨by omega, hrest⟩
  · simp at h
  · exact absurd h.symm (hhead _ _ _ (by decide) _)
  · simp at h
  · obtain ⟨hy, hrest⟩ := padded_append_inj (by decide) ht hu (List.cons.inj h).2
    exact ⟨by omega, hrest⟩

theorem Moment.fields_lt (t : Moment) : t.year.natAbs < 10 ^ 6 ∧ t.month < 10 ^ 2 ∧ t.day < 10 ^ 2 ∧
    t.hour < 10 ^ 2 ∧ t.minute < 10 ^ 2 ∧ t.second < 10 ^ 2 := by
  have hdays : daysInMonth t.year t.month ≤ 31 := by
    unfold daysInMonth
    split_ifs <;> decide
  have hyear := t.year_range
  have hmonth := t.month_range
  have hday := t.day_range
  have hhour := t.hour_lt
  have hminute := t.minute_lt
  have hsecond := t.second_lt
  refine ⟨?_, ?_, ?_, ?_, ?_, ?_⟩ <;> omega

theorem Moment.text_append_inj {c : Char} (h : t.text c ++ r = u.text c ++ s) : t = u ∧ r = s := by
  obtain ⟨htyear, htmonth, htday, hthour, htminute, htsecond⟩ := t.fields_lt
  obtain ⟨huyear, humonth, huday, huhour, huminute, husecond⟩ := u.fields_lt
  simp only [Moment.text, List.append_assoc, List.cons_append] at h
  obtain ⟨hyear, h⟩ := isoYear_append_inj htyear huyear h
  obtain ⟨hmonth, h⟩ := padded_append_inj (by decide) htmonth humonth (List.cons.inj h).2
  obtain ⟨hday, h⟩ := padded_append_inj (by decide) htday huday (List.cons.inj h).2
  obtain ⟨hhour, h⟩ := padded_append_inj (by decide) hthour huhour (List.cons.inj h).2
  obtain ⟨hminute, h⟩ := padded_append_inj (by decide) htminute huminute (List.cons.inj h).2
  obtain ⟨hsecond, h⟩ := padded_append_inj (by decide) htsecond husecond (List.cons.inj h).2
  refine ⟨?_, h⟩
  cases t
  cases u
  cases hyear
  cases hmonth
  cases hday
  cases hhour
  cases hminute
  cases hsecond
  rfl

/-- The text of an instant is that of its fields and of its fraction without its last zeros. -/
theorem instant_text_inj (h : t.text 'T' ++ pointed (trimZeros f) ++ ['Z'] =
    u.text 'T' ++ pointed (trimZeros g) ++ ['Z']) : t = u ∧ trimZeros f = trimZeros g := by
  rw [List.append_assoc, List.append_assoc] at h
  obtain ⟨htu, hrest⟩ := Moment.text_append_inj h
  have hpointed := List.append_cancel_right hrest
  refine ⟨htu, ?_⟩
  unfold pointed at hpointed
  split_ifs at hpointed with hf hg hg
  · rw [hf, hg]
  · exact (List.cons.inj hpointed).2

theorem spaceToT_append {a b : List Char} (ha : ' ' ∉ a) :
    spaceToT (a ++ ' ' :: b) = a ++ 'T' :: b := by
  induction a with
  | nil => rfl
  | cons c a ih =>
    rw [List.mem_cons, not_or] at ha
    obtain ⟨hc, ha⟩ := ha
    rw [List.cons_append, spaceToT, if_neg (Ne.symm hc), ih ha, List.cons_append]

theorem trimFraction_append {a b : List Char} (ha : '.' ∉ a) :
    trimFraction (a ++ b) = a ++ trimFraction b := by
  induction a with
  | nil => rfl
  | cons c a ih =>
    rw [List.mem_cons, not_or] at ha
    obtain ⟨hc, ha⟩ := ha
    rw [List.cons_append, trimFraction, if_neg (fun h => hc h.1.symm), ih ha, List.cons_append]

theorem isoYear_not_mem {year : Int} {c : Char} (hc : c.isDigit = false) (hplus : c ≠ '+')
    (hminus : c ≠ '-') : c ∉ isoYear year := by
  have hnot (k n : Nat) : c ∉ padded k n := (padded_digits k n).not_mem hc
  unfold isoYear
  split_ifs
  · exact hnot _ _
  · simp [hminus, hnot]
  · simp [hplus, hnot]

theorem Moment.text_not_mem {b c : Char} (hc : c.isDigit = false) (hplus : c ≠ '+') (hminus : c ≠ '-')
    (hcolon : c ≠ ':') (hb : c ≠ b) : c ∉ t.text b := by
  have hnot (n : Nat) : c ∉ padded 2 n := (padded_digits 2 n).not_mem hc
  have hyear : c ∉ isoYear t.year := isoYear_not_mem hc hplus hminus
  simp [Moment.text, hyear, hnot, hminus, hcolon, hb]

theorem spaceToT_text (t : Moment) (rest : List Char) :
    spaceToT (t.text ' ' ++ rest) = t.text 'T' ++ rest := by
  have hsplit (c : Char) : t.text c ++ rest =
      (isoYear t.year ++ '-' :: (padded 2 t.month ++ '-' :: padded 2 t.day)) ++ c ::
        (padded 2 t.hour ++ ':' :: (padded 2 t.minute ++ ':' :: (padded 2 t.second ++ rest))) := by
    simp [Moment.text, List.append_assoc]
  have hnot (n : Nat) : ' ' ∉ padded 2 n := (padded_digits 2 n).not_mem (by decide)
  have hyear : ' ' ∉ isoYear t.year := isoYear_not_mem (by decide) (by decide) (by decide)
  rw [hsplit, hsplit, spaceToT_append]
  simp [hyear, hnot]

theorem dropPoint_of_not_mem (h : '.' ∉ s) : dropPoint s = s :=
  if_neg fun hlast => h (List.mem_of_getLast? hlast)

theorem dropPoint_pointed (hf : '.' ∉ f) : dropPoint (r ++ '.' :: f) = r ++ pointed f := by
  unfold pointed
  split_ifs with hnil
  · rw [hnil, dropPoint, if_pos (by simp), List.dropLast_concat, List.append_nil]
  · refine if_neg fun hlast => hf ?_
    rw [List.getLast?_append, List.getLast?_cons_of_ne_nil hnil] at hlast
    refine List.mem_of_getLast? ?_
    simpa [hnil] using hlast

/-- A stored text as the key of its instant. -/
theorem keyInstant_stamp (x : Stamp) :
    keyInstant x.text = x.moment.text 'T' ++ pointed (trimZeros x.fraction) ++ ['Z'] := by
  have hpoint : '.' ∉ x.moment.text 'T' :=
    Moment.text_not_mem (by decide) (by decide) (by decide) (by decide) (by decide)
  rw [keyInstant, Stamp.text, spaceToT_text, trimFraction_append hpoint]
  congr 1
  by_cases hf : x.fraction = []
  · rw [hf, if_pos rfl, trimFraction, List.append_nil, dropPoint_of_not_mem hpoint]
    exact (List.append_nil _).symm
  · rw [if_neg hf, trimFraction, if_pos ⟨rfl, x.digits⟩]
    refine dropPoint_pointed ?_
    obtain ⟨j, hj⟩ := trimZeros_append x.fraction
    intro hmem
    have hin : '.' ∈ x.fraction := by
      rw [hj]
      exact List.mem_append_left _ hmem
    exact x.digits.not_mem (by decide) hin

end Texts

section Injective
variable {c d : Component} {r s : List Char}

/-- What the keys are made of. -/
def Component.form (c : Component) : Option (List Char) × Value := (c.dateText, c.value)

theorem dateText_kind (h : c.kind = d.kind) : c.dateText.isSome = d.dateText.isSome := by
  cases c <;> cases d <;> first | rfl | cases h

theorem value_ne_null (h : c.dateText = none) : c.value ≠ .null := by
  cases c <;> simp [Component.dateText, Component.value] at h ⊢

theorem value_of_date {x : List Char} (h : c.dateText = some x) : c.value = .null := by
  cases c <;> first | rfl | cases h

theorem form_eq_of_some {x : List Char} (hc : c.dateText = some x) (hd : d.dateText = some x) :
    c.form = d.form := by
  rw [Component.form, Component.form, hc, hd, value_of_date hc, value_of_date hd]

theorem componentText_inj (hkind : c.kind = d.kind) (h : componentText c = componentText d) :
    c.form = d.form := by
  have hsome := dateText_kind hkind
  unfold componentText at h
  cases hc : c.dateText with
  | none =>
    cases hd : d.dateText with
    | none =>
      rw [hc, hd] at h
      rw [Component.form, Component.form, hc, hd,
        keyText_injective (value_ne_null hc) (value_ne_null hd) h]
    | some y =>
      rw [hc, hd] at hsome
      cases hsome
  | some x =>
    cases hd : d.dateText with
    | none =>
      rw [hc, hd] at hsome
      cases hsome
    | some y =>
      rw [hc, hd] at h
      simp only [List.cons.injEq, true_and] at h
      exact form_eq_of_some hc (h ▸ hd)

theorem componentPart_append_inj (hkind : c.kind = d.kind)
    (h : componentPart c ++ r = componentPart d ++ s) : c.form = d.form ∧ r = s := by
  have hsome := dateText_kind hkind
  unfold componentPart at h
  cases hc : c.dateText with
  | none =>
    cases hd : d.dateText with
    | none =>
      rw [hc, hd] at h
      obtain ⟨hvalue, hrest⟩ := compositeKeyPart_append_inj (value_ne_null hc) (value_ne_null hd) h
      rw [Component.form, Component.form, hc, hd, hvalue]
      exact ⟨rfl, hrest⟩
    | some y =>
      rw [hc, hd] at hsome
      cases hsome
  | some x =>
    cases hd : d.dateText with
    | none =>
      rw [hc, hd] at hsome
      cases hsome
    | some y =>
      rw [hc, hd] at h
      obtain ⟨hxy, hrest⟩ := framed_append_inj (List.cons.inj h).2
      exact ⟨form_eq_of_some hc (hxy ▸ hd), hrest⟩

theorem component_congr (h : c.form = d.form) :
    componentText c = componentText d ∧ componentPart c = componentPart d := by
  obtain ⟨hdate, hvalue⟩ := Prod.mk.inj h
  rw [componentText, componentText, componentPart, componentPart, hdate, hvalue]
  exact ⟨rfl, rfl⟩

theorem parts_congr {xs ys : List Component} (h : xs.map Component.form = ys.map Component.form) :
    xs.flatMap componentPart = ys.flatMap componentPart := by
  induction xs generalizing ys with
  | nil =>
    obtain rfl := List.map_eq_nil_iff.mp h.symm
    rfl
  | cons c xs ih =>
    obtain ⟨d, ys, rfl, hd, hys⟩ := List.map_eq_cons_iff.mp h.symm
    rw [List.flatMap_cons, List.flatMap_cons, (component_congr hd).2, ih hys.symm]

theorem parts_inj {xs ys : List Component} (hkinds : xs.map Component.kind = ys.map Component.kind)
    (h : xs.flatMap componentPart = ys.flatMap componentPart) :
    xs.map Component.form = ys.map Component.form := by
  induction xs generalizing ys with
  | nil =>
    obtain rfl := List.map_eq_nil_iff.mp hkinds.symm
    rfl
  | cons c xs ih =>
    obtain ⟨d, ys, rfl, hd, hys⟩ := List.map_eq_cons_iff.mp hkinds.symm
    rw [List.flatMap_cons, List.flatMap_cons] at h
    obtain ⟨hform, hrest⟩ := componentPart_append_inj hd.symm h
    rw [List.map_cons, List.map_cons, hform, ih hys.symm hrest]

/-- Keys of one type are equal exactly when what they are made of is. -/
theorem componentsKey_eq_iff {xs ys : List Component}
    (hkinds : xs.map Component.kind = ys.map Component.kind) :
    componentsKey xs = componentsKey ys ↔ xs.map Component.form = ys.map Component.form := by
  have hlength : xs.length = ys.length := by simpa using congrArg List.length hkinds
  match xs, ys with
  | [c], [d] =>
    have hkind : c.kind = d.kind := by simpa using hkinds
    constructor
    · intro h
      rw [List.map_singleton, List.map_singleton, componentText_inj hkind h]
    · intro h
      exact (component_congr (List.cons.inj h).1).1
  | [], [] => simp
  | _ :: _ :: _, _ :: _ :: _ => exact ⟨parts_inj hkinds, parts_congr⟩
  | [], _ :: _ => simp at hlength
  | _ :: _, [] => simp at hlength
  | [_], _ :: _ :: _ => simp at hlength
  | _ :: _ :: _, [_] => simp at hlength

end Injective

section Identities
variable {c d : Component}

theorem date_form_iff {t u : Moment} {f g x y : List Char} (hf : Digits f) (hg : Digits g)
    (hfk : f.length ≤ 6) (hgk : g.length ≤ 6)
    (hx : x = t.text 'T' ++ pointed (trimZeros f) ++ ['Z'])
    (hy : y = u.text 'T' ++ pointed (trimZeros g) ++ ['Z']) :
    x = y ↔ Identity.instant t (units 6 f) = Identity.instant u (units 6 g) := by
  rw [hx, hy, Identity.instant.injEq, ← trimZeros_eq_iff hf hg hfk hgk]
  constructor
  · exact instant_text_inj
  · rintro ⟨rfl, htrim⟩
    rw [htrim]

theorem units_padded (millis : Fin 1000) : units 6 (padded 3 millis) = millis * 1000 := by
  have hlength : (padded 3 millis.val).length = 3 := padded_length (by decide) millis.isLt
  rw [units, hlength, number_append_zeros, number_of_padded]
  rfl

/-- The fields and the fraction of a date. -/
theorem date_parts (h : c.kind = .date) : ∃ t f, Digits f ∧ f.length ≤ 6 ∧
    c.form = (some (t.text 'T' ++ pointed (trimZeros f) ++ ['Z']), .null) ∧
    c.identity = .instant t (units 6 f) := by
  cases c with
  | date t millis =>
    have hlength : (padded 3 millis.val).length = 3 := padded_length (by decide) millis.isLt
    refine ⟨t, padded 3 millis, padded_digits _ _, by omega, rfl, ?_⟩
    rw [Component.identity, units_padded]
  | datetime s =>
    refine ⟨s.moment, s.fraction, s.digits, s.length_le, ?_, rfl⟩
    rw [Component.form, Component.dateText, keyInstant_stamp]
    rfl
  | bigint => cases h
  | number => cases h
  | text => cases h
  | bool => cases h
  | bytes => cases h

theorem intDigits_injective : Function.Injective intDigits := by
  intro i j h
  rw [← (intDigits_value i).2, h, (intDigits_value j).2]

/-- Numbers that are written exactly, of a component. -/
def Component.Exact (c : Component) : Prop := ∀ v h, c = .number v h → numberText v = intDigits v

theorem integer_parts (h : c.kind = .integer) (hexact : c.Exact) :
    ∃ i, c.form = (none, .number (intDigits i)) ∧ c.identity = .integer i := by
  cases c with
  | bigint i => exact ⟨i, rfl, rfl⟩
  | number v hv =>
    refine ⟨v, ?_, rfl⟩
    rw [Component.form, Component.value, hexact v hv rfl]
    rfl
  | text => cases h
  | bool => cases h
  | bytes => cases h
  | date => cases h
  | datetime => cases h

/-- Components of one type are made of the same exactly when they stand for the same. -/
theorem form_eq_iff (hkind : c.kind = d.kind) (hc : c.Exact) (hd : d.Exact) :
    c.form = d.form ↔ c.identity = d.identity := by
  cases hk : c.kind with
  | integer =>
    obtain ⟨i, hform, hidentity⟩ := integer_parts hk hc
    obtain ⟨j, hform', hidentity'⟩ := integer_parts (hkind ▸ hk) hd
    rw [hform, hform', hidentity, hidentity']
    simp [intDigits_injective.eq_iff]
  | date =>
    obtain ⟨t, f, hf, hfk, hform, hidentity⟩ := date_parts hk
    obtain ⟨u, g, hg, hgk, hform', hidentity'⟩ := date_parts (hkind ▸ hk)
    rw [hform, hform', hidentity, hidentity', Prod.mk.injEq, Option.some.injEq,
      date_form_iff hf hg hfk hgk rfl rfl]
    simp
  | text =>
    obtain ⟨x, rfl⟩ : ∃ x, c = .text x := by cases c <;> first | exact ⟨_, rfl⟩ | cases hk
    obtain ⟨y, rfl⟩ : ∃ y, d = .text y := by cases d <;> first | exact ⟨_, rfl⟩ | cases hkind
    simp [Component.form, Component.dateText, Component.value, Component.identity]
  | bool =>
    obtain ⟨x, rfl⟩ : ∃ x, c = .bool x := by cases c <;> first | exact ⟨_, rfl⟩ | cases hk
    obtain ⟨y, rfl⟩ : ∃ y, d = .bool y := by cases d <;> first | exact ⟨_, rfl⟩ | cases hkind
    simp [Component.form, Component.dateText, Component.value, Component.identity]
  | bytes =>
    obtain ⟨x, rfl⟩ : ∃ x, c = .bytes x := by cases c <;> first | exact ⟨_, rfl⟩ | cases hk
    obtain ⟨y, rfl⟩ : ∃ y, d = .bytes y := by cases d <;> first | exact ⟨_, rfl⟩ | cases hkind
    simp [Component.form, Component.dateText, Component.value, Component.identity]

/-- The keys of lists of one type with numbers of a set tell lists apart by what they stand for. -/
def KeysInjective (D : Int → Prop) : Prop :=
  ∀ xs ys : List Component, xs.map Component.kind = ys.map Component.kind →
    (∀ v h, .number v h ∈ xs ∨ .number v h ∈ ys → D v) →
    (componentsKey xs = componentsKey ys ↔ xs.map Component.identity = ys.map Component.identity)

theorem forms_eq_iff {xs ys : List Component}
    (hkinds : xs.map Component.kind = ys.map Component.kind) (hxs : ∀ c ∈ xs, c.Exact)
    (hys : ∀ c ∈ ys, c.Exact) :
    xs.map Component.form = ys.map Component.form ↔
      xs.map Component.identity = ys.map Component.identity := by
  induction xs generalizing ys with
  | nil =>
    obtain rfl := List.map_eq_nil_iff.mp hkinds.symm
    simp
  | cons c xs ih =>
    obtain ⟨d, ys, rfl, hd, hkinds⟩ := List.map_eq_cons_iff.mp hkinds.symm
    obtain ⟨hc, hxs⟩ := List.forall_mem_cons.mp hxs
    obtain ⟨hd', hys⟩ := List.forall_mem_cons.mp hys
    rw [List.map_cons, List.map_cons, List.map_cons, List.map_cons, List.cons.injEq, List.cons.injEq,
      form_eq_iff hd.symm hc hd', ih hkinds.symm hxs hys]

theorem keysInjective_of_exact {D : Int → Prop}
    (h : ∀ v, IsNumber v → D v → numberText v = intDigits v) : KeysInjective D := by
  intro xs ys hkinds hD
  have hexact (c : Component) (hc : c ∈ xs ∨ c ∈ ys) : c.Exact := by
    rintro v hv rfl
    exact h v hv (hD v hv hc)
  rw [componentsKey_eq_iff hkinds, forms_eq_iff hkinds (fun c hc => hexact c (.inl hc))
    fun c hc => hexact c (.inr hc)]

/-- The keys tell lists apart exactly when each number is written as its exact decimal text. -/
theorem keysInjective_iff (D : Int → Prop) :
    KeysInjective D ↔ ∀ v, IsNumber v → D v → numberText v = intDigits v := by
  constructor
  · intro h v hv hD
    -- the number and the big integer of the same value
    have hkey := (h [.number v hv] [.bigint v] rfl (by
      intro w hw hmem
      simp only [List.mem_singleton, Component.number.injEq, reduceCtorEq, or_false] at hmem
      rwa [hmem])).mpr rfl
    simpa [componentsKey, componentText, Component.dateText, Component.value, keyText] using hkey
  · exact keysInjective_of_exact

theorem isNumber_pow60 : IsNumber (2 ^ 60) := ⟨2 ^ 52, 8, by decide, by decide, by decide⟩

/-- A number above `2 ^ 53` shares its key with another integer. -/
theorem keysInjective_fails :
    componentsKey [.number (2 ^ 60) isNumber_pow60] = componentsKey [.bigint 1152921504606847000] ∧
      [Component.number (2 ^ 60) isNumber_pow60].map Component.identity ≠
        [Component.bigint 1152921504606847000].map Component.identity := by
  constructor
  · decide +kernel
  · simp [Component.identity]

end Identities

end Orm.Client
