import Mathlib

/-! Three-valued truth, and the value of operands joined by AND and OR without brackets. -/
namespace Orm.Sql

/-- The value of an SQL condition on one row; NULL operands give `unknown`. -/
inductive Truth where
  | no
  | unknown
  | yes
  deriving DecidableEq, Repr

section Runs
variable {α β : Type}

/-- Adds an element to the first list. -/
def consHead (a : α) : List (List α) → List (List α)
  | [] => [[a]]
  | r :: rs => (a :: r) :: rs

/-- The operands of `a ∘ b ∘ …` grouped into the runs that AND joins; `true` stands
for an OR before its operand. -/
def runs (a : α) : List (Bool × α) → List (List α)
  | [] => [[a]]
  | (o, b) :: rest => if o then [a] :: runs b rest else consHead a (runs b rest)

theorem forall₂_consHead {R : α → β → Prop} {a : α} {b : β} {rs : List (List α)}
    {ss : List (List β)} (h : R a b) (hs : List.Forall₂ (List.Forall₂ R) rs ss) :
    List.Forall₂ (List.Forall₂ R) (consHead a rs) (consHead b ss) := by
  cases hs with
  | nil => exact .cons (.cons h .nil) .nil
  | cons hr hs => exact .cons (.cons h hr) hs

theorem forall₂_runs {R : α → β → Prop} {a : α} {b : β} {xs : List (Bool × α)}
    {ys : List (Bool × β)} (h : R a b)
    (hs : List.Forall₂ (fun x y => x.1 = y.1 ∧ R x.2 y.2) xs ys) :
    List.Forall₂ (List.Forall₂ R) (runs a xs) (runs b ys) := by
  induction hs generalizing a b with
  | nil => exact .cons (.cons h .nil) .nil
  | @cons x y xs ys hxy _ ih =>
    obtain ⟨o, x⟩ := x
    obtain ⟨o', y⟩ := y
    obtain ⟨rfl, hr⟩ := hxy
    cases o with
    | true => exact .cons (.cons h .nil) (ih hr)
    | false => exact forall₂_consHead h (ih hr)

/-- The runs of a list of operands; the connective of the first one does not count. -/
def runsOf : List (Bool × α) → List (List α)
  | [] => []
  | (_, a) :: rest => runs a rest

end Runs

namespace Truth

def and : Truth → Truth → Truth
  | .yes, b => b
  | .no, _ => .no
  | .unknown, .no => .no
  | .unknown, _ => .unknown

def or : Truth → Truth → Truth
  | .no, b => b
  | .yes, _ => .yes
  | .unknown, .yes => .yes
  | .unknown, _ => .unknown

@[simp] theorem yes_or (a : Truth) : Truth.yes.or a = .yes := by cases a <;> rfl
@[simp] theorem or_yes (a : Truth) : a.or .yes = .yes := by cases a <;> rfl

theorem and_eq_yes {a b : Truth} : a.and b = .yes ↔ a = .yes ∧ b = .yes := by
  cases a <;> cases b <;> simp [and]

theorem or_eq_yes {a b : Truth} : a.or b = .yes ↔ a = .yes ∨ b = .yes := by
  cases a <;> cases b <;> simp [or]

def conj (ts : List Truth) : Truth := ts.foldr and .yes

def ofRuns (rs : List (List Truth)) : Truth := (rs.map conj).foldr or .no

/-- The value of a chain whose operands have the given values. -/
def value (xs : List (Bool × Truth)) : Truth := ofRuns (runsOf xs)

@[simp] theorem conj_nil : conj [] = .yes := rfl
@[simp] theorem conj_cons (t : Truth) (ts : List Truth) : conj (t :: ts) = t.and (conj ts) := rfl
@[simp] theorem ofRuns_nil : ofRuns [] = .no := rfl
@[simp] theorem ofRuns_cons (r : List Truth) (rs : List (List Truth)) :
    ofRuns (r :: rs) = (conj r).or (ofRuns rs) := rfl

end Truth

end Orm.Sql
