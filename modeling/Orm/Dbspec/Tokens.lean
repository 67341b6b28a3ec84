import Orm.Logic.Utf16

/-! The tokens of a document text, and the recovery of a line with a character that starts none. -/
namespace Orm.Dbspec.Tokens
open Orm.Logic.Utf16

inductive K where
  | punct | op | str | word
  deriving DecidableEq, Repr

/-- A token of a line: its text and its start and end in code units. -/
structure Tk where
  k : K
  t : List UInt16
  s : Nat
  e : Nat
  line : Nat
  deriving DecidableEq, Repr

structure LexError where
  index : Nat
  message : List UInt16
  deriving DecidableEq, Repr

/-- The tokens of a line before its first error, and that error. -/
structure Lexed where
  toks : List Tk
  error : Option LexError
  deriving DecidableEq, Repr

/-- The units of an ASCII text. -/
def units (s : String) : List UInt16 := s.toList.map fun c => UInt16.ofNat c.toNat

/-- The code point that starts with a unit, given the units after it. -/
def codePointAt (c : UInt16) : List UInt16 → Nat
  | v :: _ => if high c && low v then pair c v else c.toNat
  | [] => c.toNat

/-- A code point as a quoted rune. -/
def goRune (cp : Nat) : List UInt16 :=
  let text :=
    if cp = 9 then units "\\t" else if cp = 10 then units "\\n" else if cp = 13 then units "\\r"
    else if cp = 39 then units "\\'" else if cp = 92 then units "\\\\" else ofPoint cp
  [39] ++ text ++ [39]

/-- The units of a string after its opening quote, with the closing one: a doubled quote is a quote
of its text. -/
def stringEnd : Nat → List UInt16 → Option Nat
  | _, [] => none
  | j, [u] => if u = 39 then some (j + 1) else none
  | j, u :: v :: rest =>
    if u = 39 then
      if v = 39 then stringEnd (j + 2) rest else some (j + 1)
    else stringEnd (j + 1) (v :: rest)

section Lexer
-- The table of letters and digits.
variable (containsWordRune : Nat → Bool)

def isWordRune (cp : Nat) : Bool := cp == 95 || cp == 46 || containsWordRune cp

/-- The end of a word whose first units are read. -/
def wordEnd (j : Nat) : List UInt16 → Nat
  | [] => j
  | c :: rest =>
    if isWordRune containsWordRune (codePointAt c rest) then
      if 0xffff < codePointAt c rest then wordEnd (j + 2) rest.tail else wordEnd (j + 1) rest
    else j
termination_by rest => rest.length

/-- What stands at an index: a space, a token with its number of units after the first, or a
character that starts none. -/
inductive Piece where
  | space
  | token (k : K) (more : Nat)
  | bad (message : List UInt16)

def piece (c : UInt16) (rest : List UInt16) : Piece :=
  if c = 32 then .space
  else if c = 40 ∨ c = 41 ∨ c = 123 ∨ c = 125 ∨ c = 44 then .token .punct 0
  else if c = 60 ∨ c = 62 then
    if (c = 60 ∧ (rest.head? = some 62 ∨ rest.head? = some 61)) ∨ (c = 62 ∧ rest.head? = some 61) then
      .token .op 1
    else .token .op 0
  else if c = 61 ∨ c = 43 ∨ c = 45 ∨ c = 42 ∨ c = 47 then .token .op 0
  else if c = 39 then
    match stringEnd 0 rest with
    | some j => .token .str j
    | none => .bad (units "string is not closed on its line")
  else if isWordRune containsWordRune (codePointAt c rest) then
    if 0xffff < codePointAt c rest then .token .word (wordEnd containsWordRune 1 rest.tail)
    else .token .word (wordEnd containsWordRune 0 rest)
  else .bad (units "character " ++ goRune (codePointAt c rest) ++ units " is not allowed here")

/-- The tokens of a line from an index on. -/
def lexFrom (line : Nat) (i : Nat) : List UInt16 → Lexed
  | [] => ⟨[], none⟩
  | c :: rest =>
    match piece containsWordRune c rest with
    | .space => lexFrom line (i + 1) rest
    | .token k more =>
      let lexed := lexFrom line (i + more + 1) (rest.drop more)
      ⟨⟨k, c :: rest.take more, i, i + more + 1, line⟩ :: lexed.toks, lexed.error⟩
    | .bad message => ⟨[], some ⟨i, message⟩⟩
termination_by text => text.length

def lexLine (text : List UInt16) (line : Nat) : Lexed := lexFrom containsWordRune line 0 text

structure Recovered where
  toks : List Tk
  text : List UInt16
  deriving DecidableEq, Repr

/-- The attempts of the recovery that are left: each reads one more code point as a space. -/
def recoverFrom (line : Nat) : Nat → List (List UInt16) → Recovered
  | 0, chars => ⟨[], chars.flatten⟩
  | attempts + 1, chars =>
    match lexLine containsWordRune chars.flatten line with
    | ⟨toks, none⟩ => ⟨toks, chars.flatten⟩
    | ⟨_, some error⟩ =>
      recoverFrom line attempts (chars.set (points (chars.flatten.take error.index)).length [32])

def recoverLine (text : List UInt16) (line : Nat) : Recovered :=
  recoverFrom containsWordRune line ((points text).length + 1) (points text)

end Lexer

inductive DbspecTokenClass where
  | keyword | type | name | setting | number | string | operator | punctuation | comment | word
  deriving DecidableEq, Repr

/-- The rules of diagnostics; the rule of the grammar is `syntax`. -/
inductive DbspecRule where
  | header | grammar | order | nameFormat | nameLength | nameDuplicate | type | column | key
  | foreignKey | check | setting | use | diagram | limit | encoding
  deriving DecidableEq, Repr

structure RawDiagnostic where
  rule : DbspecRule
  line : Nat
  column : Nat
  message : List UInt16
  deriving DecidableEq, Repr

/-- What a finished reader tells about its lines: whether it stopped, the lines it gave up and the
classes that it marked by line and unit. -/
structure DocumentParser where
  halted : Bool
  abandoned : List Nat
  classes : List ((Nat × Nat) × DbspecTokenClass)

structure Parsed where
  diagnostics : List RawDiagnostic
  parser : Option DocumentParser

structure RawToken where
  line : Nat
  start : Nat
  stop : Nat
  cls : DbspecTokenClass
  deriving DecidableEq, Repr

def isDigit (u : UInt16) : Bool := 48 ≤ u && u ≤ 57

/-- Digits, and a point with digits after it or nothing. -/
def unsignedNumber (t : List UInt16) : Bool :=
  !(t.takeWhile isDigit).isEmpty &&
    match t.dropWhile isDigit with
    | [] => true
    | u :: fraction => u == 46 && !fraction.isEmpty && fraction.all isDigit

/-- The class of a lexed token; none where a read line has no reader. -/
def classOf (tok : Tk) (line : Nat) (parser : Option DocumentParser) (read abandoned : Bool) :
    Option DbspecTokenClass :=
  let lexical := if unsignedNumber tok.t then DbspecTokenClass.number else .word
  match tok.k with
  | .str => some .string
  | .punct => some .punctuation
  | .op => some .operator
  | .word =>
    if read && !abandoned then
      parser.map fun p => (p.classes.lookup (line, tok.s)).getD lexical
    else some lexical

/-- The first line that was not read, if there is one. -/
def readBefore (parsed : Parsed) : Option Nat :=
  let headerStop := match parsed.parser with
    | some p => p.halted && (parsed.diagnostics.getLast?.map (·.rule)) == some .header
    | none => false
  if parsed.parser.isNone || headerStop then some 0
  else (parsed.diagnostics.find? (·.rule == .encoding)).map (·.line)

/-- A line without the carriage return before its line feed. -/
def lineContent (last : Bool) (raw : List UInt16) : List UInt16 :=
  if !last && raw.getLast? == some 13 then raw.dropLast else raw

section Tokens
variable (containsWordRune : Nat → Bool)

/-- The tokens of a line and the text that they refer to. -/
def recovered (content : List UInt16) (line : Nat) : Recovered :=
  match lexLine containsWordRune content line with
  | ⟨toks, none⟩ => ⟨toks, content⟩
  | ⟨_, some _⟩ => recoverLine containsWordRune content line

/-- The tokens of one line; none where a read line has no reader. -/
def lineTokens (parsed : Parsed) (line : Nat) (content : List UInt16) : Option (List RawToken) :=
  let i := (content.takeWhile (· == 32)).length
  match content.drop i with
  | [] => some []
  | c :: _ =>
    if c = 35 then some [⟨line, i, (points content).length, .comment⟩]
    else
      let read := (readBefore parsed).all (line < ·)
      let recovered := recovered containsWordRune content line
      let abandoned := if read then parsed.parser.map (·.abandoned.contains line) else some false
      abandoned.bind fun abandoned => recovered.toks.mapM fun tok =>
        (classOf tok line (if read then parsed.parser else none) read abandoned).map fun cls =>
          ⟨line, count recovered.text tok.s, count recovered.text tok.e, cls⟩

def tokensOf (text : List UInt16) (parsed : Parsed) : Option (List RawToken) :=
  if parsed.diagnostics.any (·.rule == .limit) then some []
  else
    let raw := text.splitOn 10
    (raw.zipIdx.mapM fun (line, n) =>
      lineTokens containsWordRune parsed (n + 1) (lineContent (n + 1 == raw.length) line)).map
        List.flatten

end Tokens

section Pieces
variable {w : Nat → Bool} {c u : UInt16} {rest : List UInt16} {j e more : Nat} {k : K}

theorem pair_gt (u v : UInt16) : 0xffff < pair u v := by
  unfold pair
  omega

theorem cut_of_codePoint_le (h : ¬ 0xffff < codePointAt c rest) : Cut [c] rest := by
  cases rest with
  | nil => exact Cut.nil_right _
  | cons v rest =>
    intro u hu w hw hpair
    cases hu
    cases hw
    rw [codePointAt, if_pos (by simpa using hpair)] at h
    exact h (pair_gt c v)

theorem pair_of_codePoint_gt (h : 0xffff < codePointAt c rest) :
    ∃ v tail, rest = v :: tail ∧ low v = true := by
  have hsmall : c.toNat < 65536 := c.toNat_lt
  cases rest with
  | nil =>
    rw [codePointAt] at h
    omega
  | cons v tail =>
    rw [codePointAt] at h
    split at h
    · next hpair => exact ⟨v, tail, rfl, (Bool.and_eq_true _ _ ▸ hpair).2⟩
    · omega

/-- A string ends after a quote. -/
theorem stringEnd_spec (h : stringEnd j rest = some e) :
    ∃ m, e = j + m + 1 ∧ rest[m]? = some 39 := by
  induction j, rest using stringEnd.induct with
  | case1 j => simp [stringEnd] at h
  | case2 j =>
    rw [stringEnd, if_pos rfl] at h
    exact ⟨0, by cases h; rfl, rfl⟩
  | case3 j u hu =>
    rw [stringEnd, if_neg hu] at h
    cases h
  | case4 j rest ih =>
    rw [stringEnd, if_pos rfl, if_pos rfl] at h
    obtain ⟨m, rfl, hm⟩ := ih h
    exact ⟨m + 2, by omega, hm⟩
  | case5 j v rest hv =>
    rw [stringEnd, if_pos rfl, if_neg hv] at h
    exact ⟨0, by cases h; rfl, rfl⟩
  | case6 j u v rest hu ih =>
    rw [stringEnd, if_neg hu] at h
    obtain ⟨m, rfl, hm⟩ := ih h
    exact ⟨m + 1, by omega, hm⟩

/-- A word ends between code points. -/
theorem wordEnd_spec (j : Nat) (rest : List UInt16) :
    ∃ m, wordEnd w j rest = j + m ∧ m ≤ rest.length ∧ CutAt rest m := by
  induction j, rest using wordEnd.induct w with
  | case1 j => exact ⟨0, by rw [wordEnd]; rfl, le_rfl, Cut.nil_left _⟩
  | case2 j c rest hword hwide ih =>
    obtain ⟨m, hm, hle, hcut⟩ := ih
    obtain ⟨v, tail, rfl, hlow⟩ := pair_of_codePoint_gt hwide
    refine ⟨m + 2, ?_, by simpa using hle, ?_⟩
    · rw [wordEnd, if_pos hword, if_pos hwide, hm]
      omega
    · exact Cut.append (a := [c, v]) (Cut.of_last (by simpa using low_not_high hlow) _) hcut
  | case3 j c rest hword hnarrow ih =>
    obtain ⟨m, hm, hle, hcut⟩ := ih
    refine ⟨m + 1, ?_, by simpa using hle, ?_⟩
    · rw [wordEnd, if_pos hword, if_neg hnarrow, hm]
      omega
    · exact Cut.append (a := [c]) (by simpa using cut_of_codePoint_le hnarrow) hcut
  | case4 j c rest hword =>
    exact ⟨0, by rw [wordEnd, if_neg hword]; rfl, Nat.zero_le _, Cut.nil_left _⟩

theorem piece_space (h : piece w c rest = .space) : c = 32 := by
  unfold piece at h
  grind

theorem piece_bad {message : List UInt16} (h : piece w c rest = .bad message) : c ≠ 32 := by
  rintro rfl
  simp [piece] at h

/-- A piece of a unit and those after it that lies within the rest and parts no code point. -/
def Whole (c : UInt16) (rest : List UInt16) (more : Nat) : Prop :=
  more ≤ rest.length ∧ Cut (c :: rest.take more) (rest.drop more)

theorem Whole.single (h : high c = false) (rest : List UInt16) : Whole c rest 0 :=
  ⟨Nat.zero_le _, Cut.of_last (by simpa using h) _⟩

theorem Whole.of_last {m : Nat} (h : rest[m]? = some u) (hu : high u = false) :
    Whole c rest (m + 1) := by
  obtain ⟨hm, hget⟩ := List.getElem?_eq_some_iff.mp h
  refine ⟨hm, Cut.of_last ?_ _⟩
  intro v hv
  have htake : c :: rest.take (m + 1) = (c :: rest.take m) ++ [u] := by
    rw [List.take_add_one, h]
    rfl
  rw [htake, List.getLast?_append_of_ne_nil _ (by simp)] at hv
  cases hv
  exact hu

theorem Whole.string (h : stringEnd 0 rest = some more) : Whole c rest more := by
  obtain ⟨m, rfl, hm⟩ := stringEnd_spec h
  rw [Nat.zero_add]
  exact Whole.of_last hm (by decide)

theorem Whole.narrow_word (h : ¬ 0xffff < codePointAt c rest) :
    Whole c rest (wordEnd w 0 rest) := by
  obtain ⟨m, hm, hle, hcut⟩ := wordEnd_spec (w := w) 0 rest
  rw [hm, Nat.zero_add]
  exact ⟨hle, Cut.append (a := [c]) (by simpa using cut_of_codePoint_le h) hcut⟩

theorem Whole.wide_word (h : 0xffff < codePointAt c rest) :
    Whole c rest (wordEnd w 1 rest.tail) := by
  obtain ⟨v, tail, rfl, hlow⟩ := pair_of_codePoint_gt h
  obtain ⟨m, hm, hle, hcut⟩ := wordEnd_spec (w := w) 1 tail
  rw [List.tail_cons, hm, Nat.add_comm]
  refine ⟨by simpa using hle, ?_⟩
  exact Cut.append (a := [c, v]) (Cut.of_last (by simpa using low_not_high hlow) _) hcut

/-- A token is never empty and ends between code points. -/
theorem piece_token (h : piece w c rest = .token k more) : Whole c rest more := by
  unfold piece at h
  split_ifs at h with hspace hpunct hangle htwo hop hquote hword hwide
  · cases h
    apply Whole.single
    rcases hpunct with rfl | rfl | rfl | rfl | rfl <;> decide
  · cases h
    have hnext : rest[0]? = some 62 ∨ rest[0]? = some 61 := by
      rw [← List.head?_eq_getElem?]
      tauto
    rcases hnext with hnext | hnext
    · exact Whole.of_last hnext (by decide)
    · exact Whole.of_last hnext (by decide)
  · cases h
    apply Whole.single
    rcases hangle with rfl | rfl <;> decide
  · cases h
    apply Whole.single
    rcases hop with rfl | rfl | rfl | rfl | rfl <;> decide
  · split at h
    · next hend =>
      cases h
      exact Whole.string hend
    · cases h
  · cases h
    exact Whole.wide_word hwide
  · cases h
    exact Whole.narrow_word hwide

end Pieces

section Lines
variable {w : Nat → Bool} {line : Nat} {text : List UInt16}

/-- Tokens of a text from an index on, one after the other and between code points. -/
def Spans (text : List UInt16) : Nat → List Tk → Prop
  | _, [] => True
  | i, t :: ts =>
    i ≤ t.s ∧ t.s < t.e ∧ t.e ≤ text.length ∧ CutAt text t.s ∧ CutAt text t.e ∧ Spans text t.e ts

theorem Spans.mono {i j : Nat} {toks : List Tk} (h : Spans text j toks) (hij : i ≤ j) :
    Spans text i toks := by
  cases toks with
  | nil => trivial
  | cons t ts => exact ⟨hij.trans h.1, h.2⟩

/-- An error stands at a code point that is no space. -/
def Offends (text : List UInt16) (error : LexError) : Prop :=
  ∃ a c b, text = a ++ c :: b ∧ a.length = error.index ∧ Cut a (c :: b) ∧ c ≠ 32

/-- What lexing the rest of a text tells: its tokens span the text after the read part, and an error
names an offending code point. -/
theorem lexFrom_spec (a : List UInt16) (rest : List UInt16) (h : Cut a rest) :
    Spans (a ++ rest) a.length (lexFrom w line a.length rest).toks ∧
      ∀ error ∈ (lexFrom w line a.length rest).error, Offends (a ++ rest) error := by
  induction hn : rest.length using Nat.strong_induction_on generalizing a rest with
  | _ n ih =>
  subst hn
  cases rest with
  | nil =>
    rw [lexFrom]
    exact ⟨trivial, by simp⟩
  | cons c rest =>
    rw [lexFrom]
    cases hpiece : piece w c rest with
    | space =>
      have hc := piece_space hpiece
      have hcut : Cut (a ++ [c]) rest :=
        Cut.append_left (Cut.of_last (by simp [hc]; decide) _) (by simp) a
      obtain ⟨hspans, herror⟩ := ih rest.length (by simp) (a ++ [c]) rest hcut rfl
      rw [List.append_assoc, List.singleton_append, List.length_append] at hspans herror
      exact ⟨hspans.mono (Nat.le_succ _), herror⟩
    | token k more =>
      obtain ⟨hmore, hwhole⟩ := piece_token hpiece
      have hsplit : a ++ c :: rest = (a ++ c :: rest.take more) ++ rest.drop more := by simp
      have hlength : (a ++ c :: rest.take more).length = a.length + more + 1 := by
        simp [Nat.min_eq_left hmore]
        omega
      have hcut : Cut (a ++ c :: rest.take more) (rest.drop more) :=
        hwhole.append_left (by simp) a
      obtain ⟨hspans, herror⟩ := ih (rest.drop more).length (by simp) _ _ hcut rfl
      rw [hlength, ← hsplit] at hspans herror
      refine ⟨⟨le_rfl, ?_, ?_, ?_, ?_, hspans⟩, herror⟩
      · show a.length < a.length + more + 1
        omega
      · show a.length + more + 1 ≤ (a ++ c :: rest).length
        simp
        omega
      · show CutAt (a ++ c :: rest) a.length
        rw [CutAt, List.take_left, List.drop_left]
        exact h
      · show CutAt (a ++ c :: rest) (a.length + more + 1)
        rw [CutAt, hsplit, ← hlength, List.take_left, List.drop_left]
        exact hcut
    | bad message =>
      refine ⟨trivial, ?_⟩
      intro error herror
      cases herror
      exact ⟨a, c, rest, rfl, rfl, h, piece_bad hpiece⟩

theorem lexLine_spans (w : Nat → Bool) (text : List UInt16) (line : Nat) :
    Spans text 0 (lexLine w text line).toks :=
  (lexFrom_spec [] text (Cut.nil_left _)).1

theorem lexLine_offends {error : LexError} (h : (lexLine w text line).error = some error) :
    Offends text error := by
  have hspec : _ ∧ ∀ error ∈ (lexLine w text line).error, Offends text error :=
    lexFrom_spec [] text (Cut.nil_left _)
  exact hspec.2 error h

/-- The code points that are no space. -/
def weight (chars : List (List UInt16)) : Nat := chars.countP (· ≠ [32])

/-- A round of the recovery keeps the characters code points of their text, keeps their number and
leaves one fewer that is no space. -/
theorem recover_step {chars : List (List UInt16)} {error : LexError}
    (hpoints : points chars.flatten = chars) (h : Offends chars.flatten error) :
    points (chars.set (points (chars.flatten.take error.index)).length [32]).flatten =
        chars.set (points (chars.flatten.take error.index)).length [32] ∧
      weight (chars.set (points (chars.flatten.take error.index)).length [32]) < weight chars := by
  obtain ⟨a, c, b, htext, hindex, hcut, hc⟩ := h
  have htake : chars.flatten.take error.index = a := by rw [htext, ← hindex, List.take_left]
  have hchars : chars = points (a ++ c :: b) := by rw [← htext, hpoints]
  rw [htake, hchars]
  refine ⟨points_set hcut (by decide) (by decide), ?_⟩
  obtain ⟨x, rest, hx, hhead⟩ := points_cons c b
  have hne : x ≠ [32] := by
    rintro rfl
    cases hhead
    exact hc rfl
  rw [points_append hcut, hx, List.set_append_right _ _ le_rfl, Nat.sub_self, List.set_cons_zero]
  simp [weight, hne]

/-- With more attempts than code points that are no space, the recovery ends in a line that lexes. -/
theorem recoverFrom_spec (attempts : Nat) (chars : List (List UInt16))
    (hpoints : points chars.flatten = chars) (hweight : weight chars < attempts) :
    lexLine w (recoverFrom w line attempts chars).text line =
        ⟨(recoverFrom w line attempts chars).toks, none⟩ ∧
      (points (recoverFrom w line attempts chars).text).length = chars.length := by
  induction attempts generalizing chars with
  | zero => exact absurd hweight (Nat.not_lt_zero _)
  | succ attempts ih =>
    rw [recoverFrom]
    cases hlexed : lexLine w chars.flatten line with
    | mk toks error =>
      cases error with
      | none => exact ⟨hlexed, by rw [hpoints]⟩
      | some error =>
        have hoffends := lexLine_offends (by rw [hlexed])
        obtain ⟨hnext, hless⟩ := recover_step hpoints hoffends
        have hrun := ih _ hnext (by omega)
        rwa [List.length_set] at hrun

theorem recoverLine_spec (w : Nat → Bool) (text : List UInt16) (line : Nat) :
    lexLine w (recoverLine w text line).text line = ⟨(recoverLine w text line).toks, none⟩ ∧
      (points (recoverLine w text line).text).length = (points text).length := by
  refine recoverFrom_spec _ _ (by rw [flatten_points]) ?_
  exact Nat.lt_succ_of_le (List.countP_le_length)

theorem recovered_spec (w : Nat → Bool) (content : List UInt16) (line : Nat) :
    Spans (recovered w content line).text 0 (recovered w content line).toks ∧
      (points (recovered w content line).text).length = (points content).length := by
  unfold recovered
  split
  · next toks hlexed =>
    have hspans := lexLine_spans w content line
    rw [hlexed] at hspans
    exact ⟨hspans, rfl⟩
  · obtain ⟨hlexed, hlength⟩ := recoverLine_spec w content line
    have hspans := lexLine_spans w (recoverLine w content line).text line
    rw [hlexed] at hspans
    exact ⟨hspans, hlength⟩

end Lines

section Positions
variable {w : Nat → Bool} {line : Nat} {text : List UInt16} {parsed : Parsed}

/-- Tokens of one line in order, each with its code points within a number of them. -/
structure Ordered (line size : Nat) (toks : List RawToken) : Prop where
  ordered : toks.Pairwise fun a b => a.stop ≤ b.start
  bounded : ∀ t ∈ toks, t.line = line ∧ t.start < t.stop ∧ t.stop ≤ size

theorem exists_mapM {α β : Type} {f : α → Option β} {l : List α} (h : ∀ x ∈ l, (f x).isSome) :
    ∃ ys, l.mapM f = some ys ∧ List.Forall₂ (fun x y => f x = some y) l ys := by
  induction l with
  | nil => exact ⟨[], rfl, .nil⟩
  | cons x l ih =>
    obtain ⟨y, hy⟩ := Option.isSome_iff_exists.mp (h x (by simp))
    obtain ⟨ys, hys, hall⟩ := ih fun z hz => h z (by simp [hz])
    exact ⟨y :: ys, by simp [List.mapM_cons, hy, hys], .cons hy hall⟩

/-- Tokens that span a text have ordered positions in code points. -/
theorem Spans.ordered {i : Nat} {toks : List Tk} {raw : List RawToken} (h : Spans text i toks)
    (hi : CutAt text i)
    (hraw : List.Forall₂ (fun tok t => t.line = line ∧ t.start = count text tok.s ∧
      t.stop = count text tok.e) toks raw) :
    Ordered line (points text).length raw ∧ ∀ t ∈ raw, count text i ≤ t.start := by
  induction hraw generalizing i with
  | nil => exact ⟨⟨.nil, by simp⟩, by simp⟩
  | @cons tok t toks raw ht hall ih =>
    obtain ⟨his, hse, hle, hs, he, hrest⟩ := h
    obtain ⟨hline, hstart, hstop⟩ := ht
    obtain ⟨htail, hafter⟩ := ih hrest he
    have hfirst : count text i ≤ t.start := hstart ▸ count_le hi his (by omega)
    have hspan : t.start < t.stop := by
      rw [hstart, hstop]
      exact count_lt hs hse hle
    refine ⟨⟨List.pairwise_cons.mpr ⟨?_, htail.ordered⟩, ?_⟩, ?_⟩
    · intro b hb
      rw [hstop]
      exact hafter b hb
    · intro b hb
      rcases List.mem_cons.mp hb with rfl | hb
      · exact ⟨hline, hspan, hstop ▸ count_le_length he hle⟩
      · exact htail.bounded b hb
    · intro b hb
      rcases List.mem_cons.mp hb with rfl | hb
      · exact hfirst
      · have hmono : count text i ≤ count text tok.e := count_le hi (by omega) hle
        exact hmono.trans (hafter b hb)

/-- A line is read only where there is a reader. -/
theorem reader_of_read (h : (readBefore parsed).all (line < ·) = true) : parsed.parser.isSome := by
  cases hparser : parsed.parser with
  | none => simp [readBefore, hparser] at h
  | some p => rfl

theorem classOf_isSome {tok : Tk} {parser : Option DocumentParser} {read abandoned : Bool}
    (h : read = true → parser.isSome) : (classOf tok line parser read abandoned).isSome := by
  unfold classOf
  cases tok.k with
  | str => rfl
  | punct => rfl
  | op => rfl
  | word =>
    cases read with
    | false => rfl
    | true =>
      obtain ⟨p, rfl⟩ := Option.isSome_iff_exists.mp (h rfl)
      cases abandoned <;> rfl

theorem points_spaces {l : List UInt16} (h : ∀ u ∈ l, u = 32) : (points l).length = l.length := by
  induction l with
  | nil => rfl
  | cons u l ih =>
    rw [h u (by simp), points_cons_of_plain (by decide), List.length_cons, List.length_cons,
      ih fun v hv => h v (by simp [hv])]

theorem comment_ordered {content rest : List UInt16} {c : UInt16} {cls : DbspecTokenClass}
    (h : content.drop (content.takeWhile (· == 32)).length = c :: rest) :
    Ordered line (points content).length
      [⟨line, (content.takeWhile (· == 32)).length, (points content).length, cls⟩] := by
  have hspaces : ∀ u ∈ content.takeWhile (· == 32), u = 32 := by
    intro u hu
    simpa using List.mem_takeWhile_imp hu
  have hsplit : content = content.takeWhile (· == 32) ++ c :: rest := by
    have htake := List.prefix_iff_eq_take.mp (List.takeWhile_prefix (l := content) (· == 32))
    rw [← h]
    nth_rewrite 1 [htake]
    rw [List.take_append_drop]
  have hcut : Cut (content.takeWhile (· == 32)) (c :: rest) := by
    apply Cut.of_last
    intro u hu
    rw [hspaces u (List.mem_of_getLast? hu)]
    decide
  have hcount : (points content).length =
      (content.takeWhile (· == 32)).length + (points (c :: rest)).length := by
    nth_rewrite 1 [hsplit]
    rw [points_append hcut, List.length_append, points_spaces hspaces]
  have hpos := List.length_pos_iff.mpr (points_ne_nil (List.cons_ne_nil c rest))
  refine ⟨List.pairwise_singleton _ _, ?_⟩
  intro t ht
  rw [List.mem_singleton] at ht
  subst ht
  refine ⟨rfl, ?_, le_rfl⟩
  show (content.takeWhile (· == 32)).length < (points content).length
  omega

/-- Every line has its tokens, in order and within the line. -/
theorem lineTokens_ordered (w : Nat → Bool) (parsed : Parsed) (line : Nat)
    (content : List UInt16) :
    ∃ toks, lineTokens w parsed line content = some toks ∧
      Ordered line (points content).length toks := by
  unfold lineTokens
  simp only
  split
  · exact ⟨[], rfl, ⟨.nil, by simp⟩⟩
  · next c rest hrest =>
    split
    · exact ⟨_, rfl, comment_ordered hrest⟩
    · obtain ⟨hspans, hlength⟩ := recovered_spec w content line
      have hreader := @reader_of_read line parsed
      generalize (readBefore parsed).all (line < ·) = read at hreader
      obtain ⟨abandoned, habandoned⟩ : ∃ b, (if read = true then
          parsed.parser.map (·.abandoned.contains line) else some false) = some b := by
        cases read with
        | false => exact ⟨false, rfl⟩
        | true =>
          obtain ⟨p, hp⟩ := Option.isSome_iff_exists.mp (hreader rfl)
          exact ⟨p.abandoned.contains line, by simp [hp]⟩
      rw [habandoned, Option.bind_some]
      have hclass : ∀ tok, (classOf tok line (if read = true then parsed.parser else none) read
          abandoned).isSome := by
        intro tok
        apply classOf_isSome
        intro hread
        rw [if_pos hread]
        exact hreader hread
      obtain ⟨toks, htoks, hall⟩ := exists_mapM (l := (recovered w content line).toks)
        (f := fun tok => (classOf tok line (if read = true then parsed.parser else none) read
          abandoned).map fun cls => (⟨line, count (recovered w content line).text tok.s,
            count (recovered w content line).text tok.e, cls⟩ : RawToken))
        (fun tok _ => by rw [Option.isSome_map]; exact hclass tok)
      refine ⟨toks, htoks, ?_⟩
      rw [← hlength]
      refine (hspans.ordered (Cut.nil_left _) (hall.imp ?_)).1
      intro tok t ht
      obtain ⟨cls, -, rfl⟩ := Option.map_eq_some_iff.mp ht
      exact ⟨rfl, rfl, rfl⟩

/-- The tokens of the lines from a line on. -/
theorem lines_ordered (w : Nat → Bool) (parsed : Parsed) (total n : Nat)
    (raw : List (List UInt16)) :
    ∃ lists, ((raw.zipIdx n).mapM fun (line, k) =>
        lineTokens w parsed (k + 1) (lineContent (k + 1 == total) line)) = some lists ∧
      lists.flatten.Pairwise (fun a b => a.line < b.line ∨ a.line = b.line ∧ a.stop ≤ b.start) ∧
      ∀ t ∈ lists.flatten, n < t.line ∧ ∃ line, raw[t.line - 1 - n]? = some line ∧
        t.start < t.stop ∧ t.stop ≤ (points (lineContent (t.line == total) line)).length := by
  induction raw generalizing n with
  | nil => exact ⟨[], rfl, .nil, by simp⟩
  | cons line raw ih =>
    obtain ⟨lists, hlists, hpairs, hlines⟩ := ih (n + 1)
    obtain ⟨toks, htoks, hordered⟩ :=
      lineTokens_ordered w parsed (n + 1) (lineContent (n + 1 == total) line)
    refine ⟨toks :: lists, by simp [List.zipIdx_cons, List.mapM_cons, htoks, hlists], ?_, ?_⟩
    · rw [List.flatten_cons, List.pairwise_append]
      refine ⟨?_, hpairs, ?_⟩
      · apply hordered.ordered.imp_of_mem
        intro a b ha hb hab
        exact .inr ⟨(hordered.bounded a ha).1.trans (hordered.bounded b hb).1.symm, hab⟩
      · intro a ha b hb
        have hline := (hordered.bounded a ha).1
        have hafter := (hlines b hb).1
        exact .inl (by omega)
    · intro t ht
      rcases List.mem_append.mp ht with ht | ht
      · obtain ⟨hline, hspan, hsize⟩ := hordered.bounded t ht
        exact ⟨by omega, line, by simp [hline], hspan, hline ▸ hsize⟩
      · obtain ⟨hline, found, hfound, hspan⟩ := hlines t ht
        refine ⟨by omega, found, ?_, hspan⟩
        rw [show t.line - 1 - n = t.line - 1 - (n + 1) + 1 by omega, List.getElem?_cons_succ, hfound]

/-- Recovery ends in a text of as many code points as the line and in the tokens that lexing gives
for it, and the tokens of a document stand on each line in order, apart and within the line without
its end. -/
theorem recoverLine_and_tokensOf (w : Nat → Bool) :
    (∀ (text : List UInt16) (line : Nat),
      lexLine w (recoverLine w text line).text line = ⟨(recoverLine w text line).toks, none⟩ ∧
        (points (recoverLine w text line).text).length = (points text).length) ∧
    ∀ (text : List UInt16) (parsed : Parsed), ∃ toks, tokensOf w text parsed = some toks ∧
      toks.Pairwise (fun a b => a.line < b.line ∨ a.line = b.line ∧ a.stop ≤ b.start) ∧
      ∀ t ∈ toks, 0 < t.line ∧ ∃ line, (text.splitOn 10)[t.line - 1]? = some line ∧
        t.start < t.stop ∧
        t.stop ≤ (points (lineContent (t.line == (text.splitOn 10).length) line)).length := by
  refine ⟨recoverLine_spec w, ?_⟩
  intro text parsed
  unfold tokensOf
  split
  · exact ⟨[], rfl, .nil, by simp⟩
  · obtain ⟨lists, hlists, hordered⟩ :=
      lines_ordered w parsed (text.splitOn 10).length 0 (text.splitOn 10)
    exact ⟨lists.flatten, by simp only [hlists, Option.map_some], hordered⟩

end Positions

end Orm.Dbspec.Tokens
