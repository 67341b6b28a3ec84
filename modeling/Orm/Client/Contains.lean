import Orm.Sql.Like
import Orm.Engine.Predicate

/-! Substring conditions: the bound pattern and the meaning of the condition on the three databases. -/
namespace Orm.Client

open Orm.Sql (Tok Text like escaped replaceChar instr)
open Orm.Engine

section Model

/-- A parameter of a request. -/
inductive Param where
  | null
  | text (s : List Char)
  | other
  deriving DecidableEq, Repr

def transformText : Transform → String
  | .none => ""
  | .likeContains => "like_contains"
  | .fulltextBoolean => "fulltext_boolean"

/-- White space of a regular expression. -/
def jsSpace (c : Char) : Bool :=
  c.toNat ∈ [9, 10, 11, 12, 13, 32, 0xa0, 0x1680, 0x2028, 0x2029, 0x202f, 0x205f, 0x3000, 0xfeff] ||
    (0x2000 ≤ c.toNat && c.toNat ≤ 0x200a)

/-- The search text of a boolean-mode match. -/
def fulltextBoolean (value : List Char) : List Char :=
  let words := (value.splitOnP jsSpace).map fun t => t.filter fun c => c ∉ "+-<>()~*\"@".toList
  let terms := (words.filter (· ≠ [])).map ('+' :: ·)
  if terms = [] then [] else List.intercalate [' '] terms ++ ['*']

/-- Applies a value transform to a parameter; NULL stays NULL. -/
def transformParam (kind : String) : Param → Except Failure Param
  | .null => .ok .null
  | .other => .error (.orm .codecEncode (kind ++ " requires a string value"))
  | .text value =>
    let escaped := replaceChar '_' ['\\', '_']
      (replaceChar '%' ['\\', '%'] (replaceChar '\\' ['\\', '\\'] value))
    if kind = "like_contains" then .ok (.text ('%' :: escaped ++ ['%']))
    else if kind = "like_starts" then .ok (.text (escaped ++ ['%']))
    else if kind = "like_ends" then .ok (.text ('%' :: escaped))
    else if kind = "fulltext_boolean" then
      let out := fulltextBoolean value
      if out = [] then .error (.orm .irInvalid "fulltext search text has no term")
      else .ok (.text out)
    else .ok (.text value)

/-- The parameter that a slot binds: a slot without a transform binds it as it is. -/
def slotParam (transform : Transform) (value : Param) : Except Failure Param :=
  if transformText transform = "" then .ok value else transformParam (transformText transform) value

/-- The text of a transformed parameter. -/
def textOf : Except Failure Param → Option (List Char)
  | .ok (.text s) => some s
  | _ => none

/-- The text that the executor binds to the `n`-th slot. -/
def boundText (params : Int → Param) (b : Builder) (n : Nat) : Option (List Char) :=
  b.binds[n - 1]?.bind fun slot => textOf (slotParam slot.transform (params slot.param))

end Model

section Meaning
variable (cells : String → String → List Char) (bound : Nat → Option (List Char))

/-- The text of a quoted literal of one character. -/
def literalChar (s : String) : Option Char :=
  match s.toList with
  | ['\'', c, '\''] => some c
  | _ => none

/-- The value of an operand on a row: a cell, a bound text, or a replacement of a character in one. -/
def operand : Tok → Option (List Char)
  | .col a c => some (cells a c)
  | .bind n _ => bound n
  | .call f [x, .comma, .str a, .comma, .str b] => do
    let old ← literalChar a
    let new ← literalChar b
    let s ← operand x
    if f = "REPLACE" then some (replaceChar old [new] s) else none
  | _ => none

/-- How a database compares the characters of LIKE: MySQL and PostgreSQL by code points, SQLite and
ILIKE with the ASCII letters folded. -/
def sameChar (folds : Bool) (c d : Char) : Bool :=
  if folds then c.toLower = d.toLower else c = d

/-- The truth of a substring condition on a row. -/
def truth (d : Dialect) : Text → Option Bool
  | [x, .word "LIKE", y] => do
    let s ← operand cells bound x
    let p ← operand cells bound y
    if d = .sqlite then none else some (like '\\' (sameChar false) p s)
  | [x, .word "ILIKE", y] => do
    let s ← operand cells bound x
    let p ← operand cells bound y
    if d = .postgres then some (like '\\' (sameChar true) p s) else none
  | [x, .word "LIKE", y, .word "ESCAPE", .str e] => do
    let s ← operand cells bound x
    let p ← operand cells bound y
    let esc ← literalChar e
    if d = .sqlite then some (like esc (sameChar true) p s) else none
  | [.call f [x, .comma, y], .word ">", .word "0"] => do
    let s ← operand cells bound x
    let v ← operand cells bound y
    if f = "instr" then some (0 < instr s v) else none
  | _ => none

end Meaning

section Patterns
variable {cells : String → String → List Char} {bound : Nat → Option (List Char)} {v s : List Char}

/-- The three replacements one after the other escape each character once. -/
theorem replaceChar_escaped (v : List Char) : replaceChar '_' ['\\', '_']
    (replaceChar '%' ['\\', '%'] (replaceChar '\\' ['\\', '\\'] v)) = escaped '\\' v := by
  unfold replaceChar escaped
  rw [List.flatMap_assoc, List.flatMap_assoc]
  congr 1
  funext c
  by_cases hback : c = '\\'
  · simp [hback]
  · by_cases hpercent : c = '%'
    · simp [hpercent]
    · by_cases hline : c = '_' <;> simp [hback, hpercent, hline]

theorem lowerFirst_toLower (c : Char) : Sql.lowerFirst 26 c = c.toLower := by
  have hbounds : (c.val ≥ 'A'.val ∧ c.val ≤ 'Z'.val) ↔ 65 ≤ c.toNat ∧ c.toNat < 65 + 26 := by
    rw [ge_iff_le, UInt32.le_iff_toNat_le, UInt32.le_iff_toNat_le, Char.toNat_val]
    change 65 ≤ c.toNat ∧ c.toNat ≤ 90 ↔ _
    omega
  unfold Sql.lowerFirst Char.toLower
  by_cases hc : 65 ≤ c.toNat ∧ c.toNat < 65 + 26
  · rw [if_pos hc, dif_pos (hbounds.mpr hc)]
    apply Char.toNat_inj.mp
    rw [Sql.toNat_ofNat (by omega)]
    change c.toNat + 32 = (c.val + 32).toNat
    rw [UInt32.toNat_add, Char.toNat_val]
    have hsmall : c.toNat + 32 < 2 ^ 32 := by omega
    exact (Nat.mod_eq_of_lt hsmall).symm
  · rw [if_neg hc, dif_neg (mt hbounds.mp hc)]

theorem toLower_special {c d : Char} (hd : d = '\\' ∨ d = '%' ∨ d = '_') :
    c.toLower = d ↔ c = d := by
  rw [← lowerFirst_toLower]
  unfold Sql.lowerFirst
  by_cases hc : 65 ≤ c.toNat ∧ c.toNat < 65 + 26
  · have hnat := Sql.toNat_ofNat (by omega : c.toNat + 32 < 55296)
    rw [if_pos hc]
    constructor
    · rintro rfl
      rw [← Char.toNat_inj, ← Char.toNat_inj, ← Char.toNat_inj, hnat] at hd
      rcases hd with hd | hd | hd <;> simp at hd <;> omega
    · rintro rfl
      rcases hd with rfl | rfl | rfl <;> simp at hc
  · rw [if_neg hc]

theorem map_toLower_escaped (v : List Char) :
    (escaped '\\' v).map Char.toLower = escaped '\\' (v.map Char.toLower) := by
  unfold escaped
  rw [List.map_flatMap, List.flatMap_map]
  congr 1
  funext c
  simp only [toLower_special (.inl rfl : '\\' = '\\' ∨ _),
    toLower_special (.inr (.inl rfl) : '%' = '\\' ∨ _),
    toLower_special (.inr (.inr rfl) : '_' = '\\' ∨ _)]
  by_cases hc : c = '\\' ∨ c = '%' ∨ c = '_'
  · rw [if_pos hc, if_pos hc]
    rfl
  · rw [if_neg hc, if_neg hc]
    rfl

theorem literalChar_quoted (c : Char) : literalChar s!"'{c}'" = some c := by
  have hchars : (s!"'{c}'").toList = ['\'', c, '\''] := by simp [toString]
  unfold literalChar
  rw [hchars]
  rfl

/-- The nested replacements lower the ASCII letters of an operand. -/
theorem operand_asciiLower {x : Tok} (h : operand cells bound x = some s) :
    ∃ y, asciiLower [x] = [y] ∧ operand cells bound y = some (s.map Char.toLower) := by
  have hfold : ∀ n, ∃ y, (List.range n).foldl (fun s i =>
      [Tok.call "REPLACE" (s ++ [.comma, .str s!"'{Char.ofNat (65 + i)}'", .comma,
        .str s!"'{Char.ofNat (97 + i)}'"])]) [x] = [y] ∧ operand cells bound y =
      some ((List.range n).foldl
        (fun s i => replaceChar (Char.ofNat (65 + i)) [Char.ofNat (97 + i)] s) s) := by
    intro n
    induction n with
    | zero => exact ⟨x, rfl, h⟩
    | succ n ih =>
      obtain ⟨y, hy, hvalue⟩ := ih
      rw [List.range_succ, List.foldl_append, List.foldl_append, hy]
      refine ⟨_, rfl, ?_⟩
      simp only [operand, List.cons_append, List.nil_append, literalChar_quoted, hvalue]
      rfl
  obtain ⟨y, hy, hvalue⟩ := hfold 26
  refine ⟨y, hy, ?_⟩
  rw [hvalue, Sql.replaceChar_fold le_rfl]
  exact congrArg some (List.map_congr_left fun c _ => lowerFirst_toLower c)

theorem sameChar_folds (c d : Char) : sameChar true c d = true ↔ c.toLower = d.toLower := by
  simp [sameChar]

theorem sameChar_exact (c d : Char) : sameChar false c d = true ↔ id c = id d := by
  simp [sameChar]

/-- The condition that `contains` renders, with the pattern of the text bound to it. -/
theorem truth_like (d : Dialect) {x y : Tok} (hx : operand cells bound x = some s)
    (hy : operand cells bound y = some ('%' :: escaped '\\' v ++ ['%'])) :
    ∃ r, truth cells bound d (d.like [x] [y]) = some r ∧
      (r = true ↔ v.map Char.toLower <:+: s.map Char.toLower) := by
  cases d with
  | mysql =>
    obtain ⟨x', hx', hxv⟩ := operand_asciiLower hx
    obtain ⟨y', hy', hyv⟩ := operand_asciiLower hy
    have hpattern : ('%' :: escaped '\\' v ++ ['%']).map Char.toLower =
        '%' :: escaped '\\' (v.map Char.toLower) ++ ['%'] := by
      rw [List.cons_append, List.map_cons, List.map_append, map_toLower_escaped]
      rfl
    rw [hpattern] at hyv
    refine ⟨like '\\' (sameChar false) ('%' :: escaped '\\' (v.map Char.toLower) ++ ['%'])
      (s.map Char.toLower), ?_, ?_⟩
    · simp only [Dialect.like, hx', hy', List.cons_append, List.nil_append]
      simp [truth, hxv, hyv]
    · rw [Sql.like_substring (by decide) sameChar_exact, List.map_id, List.map_id]
  | postgres =>
    refine ⟨like '\\' (sameChar true) ('%' :: escaped '\\' v ++ ['%']) s, ?_,
      Sql.like_substring (by decide) sameChar_folds⟩
    simp [Dialect.like, truth, hx, hy]
  | sqlite =>
    refine ⟨like '\\' (sameChar true) ('%' :: escaped '\\' v ++ ['%']) s, ?_,
      Sql.like_substring (by decide) sameChar_folds⟩
    simp [Dialect.like, truth, hx, hy, literalChar]

end Patterns

section Rendered
variable (P : Planner) (s : Scope) (ent : Entity) (t : Test) (column : String) (col : Field)
  (b : Builder) (params : Int → List Char) (cells : String → String → List Char) (i : Int)

/-- A rendered condition has a truth value on the row, and is true just when `holds` is. -/
def Decided (run : Build Text) (holds : Prop) : Prop :=
  ∃ text b' r, run b = .ok (text, b') ∧
    truth cells (boundText (fun j => .text (params j)) b') P.d text = some r ∧ (r = true ↔ holds)

theorem operand_placeholder (d : Dialect) {bound : Nat → Option (List Char)} (n : Nat) :
    ∃ y, d.placeholder n = [y] ∧ operand cells bound y = bound n := by
  cases d <;> exact ⟨_, rfl, rfl⟩

/-- The slot of a parameter and the text bound to it. -/
theorem colParam_bound (d : Dialect) (transform : Transform) : ∃ b', Build.colParam d i col transform b =
    .ok (d.placeholder (b.binds.length + 1), b') ∧
      boundText (fun j => .text (params j)) b' (b.binds.length + 1) =
        textOf (slotParam transform (.text (params i))) := by
  refine ⟨_, rfl, ?_⟩
  simp [boundText]

theorem textOf_likeContains (v : List Char) : textOf (slotParam .likeContains (.text v)) =
    some ('%' :: escaped '\\' v ++ ['%']) := by
  rw [← replaceChar_escaped]
  rfl

/-- The condition that `contains_binary` renders. -/
theorem containsBinary_decides : Decided P b params cells
    (P.d.containsBinary (P.qcol s column) fun transform => Build.colParam P.d i col transform)
    (params i <:+: cells (P.d.quote s.aliasName) (P.d.quote column)) := by
  have hcell : ∀ bound, operand cells bound (.col (P.d.quote s.aliasName) (P.d.quote column)) =
      some (cells (P.d.quote s.aliasName) (P.d.quote column)) := fun _ => rfl
  by_cases hd : P.d = .sqlite
  · obtain ⟨b', hrun, hbound⟩ := colParam_bound col b params i P.d .none
    obtain ⟨y, hy, hvalue⟩ : ∃ y, P.d.placeholder (b.binds.length + 1) = [y] ∧
        operand cells (boundText (fun j => .text (params j)) b') y = _ :=
      operand_placeholder cells P.d _
    have hplain : textOf (slotParam .none (.text (params i))) = some (params i) := rfl
    rw [hbound, hplain] at hvalue
    refine ⟨[.call "instr" (P.qcol s column ++ .comma :: [y]), .word ">", .word "0"], b',
      decide (0 < instr (cells (P.d.quote s.aliasName) (P.d.quote column)) (params i)), ?_, ?_, ?_⟩
    · unfold Dialect.containsBinary
      rw [hd] at hrun hy ⊢
      change (Build.colParam .sqlite i col .none b >>= fun r =>
        .ok ([Tok.call "instr" (P.qcol s column ++ .comma :: r.1), .word ">", .word "0"], r.2)) = _
      rw [hrun, hy]
      rfl
    · simp [truth, Planner.qcol, hcell, hvalue]
    · rw [decide_eq_true_eq]
      exact Sql.instr_pos
  · obtain ⟨b', hrun, hbound⟩ := colParam_bound col b params i P.d .likeContains
    obtain ⟨y, hy, hvalue⟩ : ∃ y, P.d.placeholder (b.binds.length + 1) = [y] ∧
        operand cells (boundText (fun j => .text (params j)) b') y = _ :=
      operand_placeholder cells P.d _
    rw [hbound, textOf_likeContains] at hvalue
    refine ⟨P.qcol s column ++ .word "LIKE" :: [y], b', like '\\' (sameChar false)
      ('%' :: escaped '\\' (params i) ++ ['%'])
      (cells (P.d.quote s.aliasName) (P.d.quote column)), ?_, ?_, ?_⟩
    · have hother : P.d.containsBinary (P.qcol s column)
          (fun transform => Build.colParam P.d i col transform) b =
          (Build.colParam P.d i col .likeContains b >>= fun r =>
            .ok (P.qcol s column ++ Tok.word "LIKE" :: r.1, r.2)) := by
        unfold Dialect.containsBinary
        cases hdialect : P.d with
        | sqlite => exact absurd hdialect hd
        | mysql => rfl
        | postgres => rfl
      rw [hother, hrun, hy]
      rfl
    · simp [truth, Planner.qcol, hcell, hvalue, hd]
    · rw [Sql.like_substring (by decide) sameChar_exact, List.map_id, List.map_id]

/-- What the substring conditions of a planner say about the cell of their column. -/
structure ContainsExact : Prop where
  contains : Decided P b params cells
    (P.renderPlain s ent { t with op := .contains, p := some i } column col)
    ((params i).map Char.toLower <:+:
      (cells (P.d.quote s.aliasName) (P.d.quote column)).map Char.toLower)
  containsBinary : Decided P b params cells
    (P.renderPlain s ent { t with op := .containsBinary, p := some i } column col)
    (params i <:+: cells (P.d.quote s.aliasName) (P.d.quote column))

end Rendered

end Orm.Client
