import Mathlib

/-! SQL text as a tree of tokens. -/
namespace Orm.Sql

/-- A token. Brackets and CASE … END hold what they enclose, so a connective inside
them never meets one outside. `ident` and `col` hold quoted names, `str` a quoted
literal and `bind n` the placeholder of the `n`-th bind slot. -/
inductive Tok where
  | word (s : String)
  | ident (s : String)
  | col (a c : String)
  | str (s : String)
  | bind (n : Nat) (s : String)
  | comma
  | glue (s : String)
  | paren (ts : List Tok)
  | call (f : String) (ts : List Tok)
  | caseEnd (ts : List Tok)

abbrev Text := List Tok

namespace Text

/-- The texts `parts` joined by a comma. -/
def commaSep : List Text → Text
  | [] => []
  | [t] => t
  | t :: ts => t ++ .comma :: commaSep ts

/-- The operands `a ∘ b ∘ …` joined by their connectives. -/
def chain (a : Text) : List (Bool × Text) → Text
  | [] => a
  | (o, b) :: rest => a ++ .word (if o then "OR" else "AND") :: chain b rest

/-- Operands with the connective before each; that of the first is not written. -/
def joined : List (Bool × Text) → Text
  | [] => []
  | (_, t) :: rest => chain t rest

/-- The texts `parts` joined by AND. -/
def andSep (parts : List Text) : Text := joined (parts.map (Prod.mk false))

end Text

end Orm.Sql
