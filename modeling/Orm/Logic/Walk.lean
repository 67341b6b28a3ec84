import Orm.Logic.Keyed

/-! Walks forth and back over a list of steps, and what holds at each place of them. -/
namespace Orm.Logic

variable {α σ ι : Type}

/-- A place of a walk: the steps behind it, the nearest first, the steps ahead and the state. -/
structure Place (α σ : Type) where
  behind : List α
  ahead : List α
  state : σ

/-- The places that a walk reaches by taking steps and by taking the last one back. -/
inductive Walk (fwd back : α → σ → σ → Prop) (start : Place α σ) : Place α σ → Prop where
  | here : Walk fwd back start start
  | step {a : α} {behind ahead : List α} {s t : σ}
    (h : Walk fwd back start ⟨behind, a :: ahead, s⟩) (ha : fwd a s t) :
    Walk fwd back start ⟨a :: behind, ahead, t⟩
  | undo {a : α} {behind ahead : List α} {s t : σ}
    (h : Walk fwd back start ⟨a :: behind, ahead, s⟩) (ha : back a s t) :
    Walk fwd back start ⟨behind, a :: ahead, t⟩

/-- Steps that lead from one phase to another, each as `K` says. -/
inductive Path (K : ι → α → ι → Prop) : ι → List α → ι → Prop where
  | nil {i : ι} : Path K i [] i
  | cons {i j k : ι} {a : α} {l : List α} (head : K i a j) (tail : Path K j l k) :
    Path K i (a :: l) k

section Paths
variable {K : ι → α → ι → Prop} {i j k : ι} {l l' : List α}

theorem Path.append (h : Path K i l j) (h' : Path K j l' k) : Path K i (l ++ l') k := by
  induction h with
  | nil => exact h'
  | cons head _ ih => exact .cons head (ih h')

theorem Path.split (h : Path K i (l ++ l') k) : ∃ j, Path K i l j ∧ Path K j l' k := by
  induction l generalizing i with
  | nil => exact ⟨i, .nil, h⟩
  | cons a l ih =>
    cases h with
    | cons head tail =>
      obtain ⟨j, hfirst, hlast⟩ := ih tail
      exact ⟨j, .cons head hfirst, hlast⟩

theorem Path.single {a : α} (h : K i a j) : Path K i [a] j := .cons h .nil

/-- Steps that each stay in a phase. -/
theorem Path.stay (h : ∀ a ∈ l, K i a i) : Path K i l i := by
  induction l with
  | nil => exact .nil
  | cons a l ih =>
    exact .cons (h a List.mem_cons_self) (ih fun b hb => h b (List.mem_cons_of_mem _ hb))

end Paths

/-- Taking the step in phase `i` leads to phase `j`, and taking it back there leads to `i`. -/
def Leads (I : ι → σ → Prop) (fwd back : α → σ → σ → Prop) (i : ι) (a : α) (j : ι) : Prop :=
  (∀ s t, I i s → fwd a s t → I j t) ∧ ∀ s t, I j s → back a s t → I i t

variable {I : ι → σ → Prop} {fwd back : α → σ → σ → Prop}

/-- Each place of a walk is in a phase that the steps behind it lead to and from which the steps ahead
lead to the end. -/
theorem Walk.phase {i k : ι} {l : List α} {s : σ} {place : Place α σ}
    (h : Walk fwd back ⟨[], l, s⟩ place) (hl : Path (Leads I fwd back) i l k) (hs : I i s) :
    ∃ j, Path (Leads I fwd back) i place.behind.reverse j ∧
      Path (Leads I fwd back) j place.ahead k ∧ I j place.state := by
  induction h with
  | here => exact ⟨i, .nil, hl, hs⟩
  | step _ ha ih =>
    obtain ⟨j, hbehind, hahead, hj⟩ := ih
    cases hahead with
    | cons head tail =>
      refine ⟨_, ?_, tail, head.1 _ _ hj ha⟩
      rw [List.reverse_cons]
      exact hbehind.append (.single head)
  | @undo a behind ahead s t _ ha ih =>
    obtain ⟨j, hbehind, hahead, hj⟩ := ih
    rw [List.reverse_cons] at hbehind
    obtain ⟨j', hfirst, hlast⟩ := hbehind.split
    cases hlast with
    | cons head tail =>
      cases tail
      exact ⟨j', hfirst, .cons head hahead, head.2 _ _ hj ha⟩

/-- A run of all steps is a walk to the end. -/
theorem Walk.run {start : Place α σ} {behind l : List α} {s : σ}
    (h : Walk fwd back start ⟨behind, l, s⟩) {exec : α → σ → Option σ}
    (hexec : ∀ a s t, exec a s = some t → fwd a s t) {t : σ}
    (hrun : runSteps exec l s = some t) :
    Walk fwd back start ⟨l.reverse ++ behind, [], t⟩ := by
  induction l generalizing behind s with
  | nil =>
    cases hrun
    exact h
  | cons a l ih =>
    obtain ⟨u, hu, hrest⟩ := Option.bind_eq_some_iff.mp hrun
    have htail := ih (h.step (hexec a s u hu)) hrest
    rw [List.reverse_cons, List.append_assoc]
    exact htail

end Orm.Logic
