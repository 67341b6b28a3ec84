import Orm.Sql.Text

/-! The placeholders of an SQL text, read from left to right. -/
namespace Orm.Sql

/-- The text has a character that starts a placeholder. -/
def marks (s : String) : Bool := s.toList.any fun c => c = '?' || c = '$'

@[simp] theorem marks_eq (s : String) : marks s = s.toList.any fun c => c = '?' || c = '$' := rfl

@[simp 1100] theorem marks_ite (c : Prop) [Decidable c] (a b : String) :
    marks (if c then a else b) = if c then marks a else marks b :=
  apply_ite marks c a b

@[simp 1100] theorem marks_nat (n : Nat) : marks n.repr = false := by
  rw [marks, Nat.toList_repr, List.any_eq_false]
  intro c hc
  have hdigit := Nat.isDigit_of_mem_toDigits (by omega) (by omega) hc
  simp only [Bool.or_eq_true, decide_eq_true_eq]
  rintro (rfl | rfl) <;> cases hdigit

@[simp 1100] theorem marks_int (i : Int) : marks i.repr = false := by
  have hneg (n : Nat) : marks ("-" ++ n.repr) = marks n.repr := by
    rw [marks, marks, String.toList_append]
    rfl
  cases i with
  | ofNat n => exact marks_nat n
  | negSucc n => exact (hneg _).trans (marks_nat _)

/-- A part of a token outside quotes. -/
def unquoted (s : String) : List Tok := if marks s then [.word s] else []

attribute [simp] unquoted

mutual
/-- The placeholders of a token: what it holds outside quotes that a reader takes for one. -/
def Tok.binds : Tok → List Tok
  | .bind n s => [.bind n s]
  | .word s | .glue s => unquoted s
  | .paren ts | .caseEnd ts => bindsOf ts
  | .call f ts => unquoted f ++ bindsOf ts
  | .ident _ | .col _ _ | .str _ | .comma => []
/-- The placeholders of a text. -/
def bindsOf : List Tok → List Tok
  | [] => []
  | t :: ts => t.binds ++ bindsOf ts
end

@[simp] theorem bindsOf_nil : bindsOf [] = [] := rfl

@[simp] theorem bindsOf_cons (t : Tok) (ts : Text) : bindsOf (t :: ts) = t.binds ++ bindsOf ts := rfl

@[simp] theorem binds_word (s : String) : (Tok.word s).binds = unquoted s := rfl

@[simp] theorem binds_ident (s : String) : (Tok.ident s).binds = [] := rfl

@[simp] theorem binds_col (a c : String) : (Tok.col a c).binds = [] := rfl

@[simp] theorem binds_str (s : String) : (Tok.str s).binds = [] := rfl

@[simp] theorem binds_comma : Tok.comma.binds = [] := rfl

@[simp] theorem binds_glue (s : String) : (Tok.glue s).binds = unquoted s := rfl

@[simp] theorem binds_bind (n : Nat) (s : String) : (Tok.bind n s).binds = [.bind n s] := rfl

@[simp] theorem binds_paren (ts : Text) : (Tok.paren ts).binds = bindsOf ts := rfl

@[simp] theorem binds_call (f : String) (ts : Text) : (Tok.call f ts).binds = unquoted f ++ bindsOf ts := rfl

@[simp] theorem binds_caseEnd (ts : Text) : (Tok.caseEnd ts).binds = bindsOf ts := rfl

@[simp] theorem bindsOf_append (s t : Text) : bindsOf (s ++ t) = bindsOf s ++ bindsOf t := by
  induction s with
  | nil => rfl
  | cons x s ih => simp [ih]

@[simp] theorem bindsOf_flatten (ts : List Text) :
    bindsOf ts.flatten = (ts.map bindsOf).flatten := by
  induction ts with
  | nil => rfl
  | cons t ts ih => simp [ih]

namespace Text

@[simp] theorem bindsOf_commaSep (ts : List Text) :
    bindsOf (commaSep ts) = (ts.map bindsOf).flatten := by
  induction ts with
  | nil => rfl
  | cons t ts ih =>
    cases ts with
    | nil => simp [commaSep]
    | cons u ts => simp [commaSep, ih]

theorem bindsOf_chain (a : Text) (rest : List (Bool × Text)) :
    bindsOf (chain a rest) = bindsOf a ++ (rest.map fun x => bindsOf x.2).flatten := by
  induction rest generalizing a with
  | nil => simp [chain]
  | cons x rest ih => simp [chain, ih]

@[simp] theorem bindsOf_joined (xs : List (Bool × Text)) :
    bindsOf (joined xs) = (xs.map fun x => bindsOf x.2).flatten := by
  cases xs with
  | nil => rfl
  | cons x xs => simp [joined, bindsOf_chain]

@[simp] theorem bindsOf_andSep (ts : List Text) :
    bindsOf (andSep ts) = (ts.map bindsOf).flatten := by
  simp [andSep, Function.comp_def]

theorem bindsOf_intercalate (sep : Text) (hs : bindsOf sep = []) (ts : List Text) :
    bindsOf (List.intercalate sep ts) = (ts.map bindsOf).flatten := by
  induction ts with
  | nil => rfl
  | cons t ts ih =>
    cases ts with
    | nil => simp [List.intercalate]
    | cons u ts =>
      rw [List.intercalate_cons_cons, bindsOf_append, bindsOf_append, hs, ih]
      simp

end Text

end Orm.Sql
