import Mathlib

/-! Words of a text, each starting at a capital, and parts of a list between separators. -/
namespace Orm.Logic

section Cut
variable {α : Type} {p : α → Bool} {c : α} {l m : List α}

/-- Puts an element before the first piece. -/
def glue (c : α) : List (List α) → List (List α)
  | [] => [[c]]
  | w :: ws => (c :: w) :: ws

variable (p) in
/-- The pieces of a list that start at its first element and at each later one with `p`. -/
def cutBefore : List α → List (List α)
  | [] => []
  | c :: rest => if rest.head?.all p then [c] :: cutBefore rest else glue c (cutBefore rest)

theorem glue_flatten (ws : List (List α)) : (glue c ws).flatten = c :: ws.flatten := by
  cases ws <;> rfl

theorem cutBefore_flatten (l : List α) : (cutBefore p l).flatten = l := by
  induction l with
  | nil => rfl
  | cons c rest ih =>
    rw [cutBefore]
    split
    · rw [List.flatten_cons, ih, List.singleton_append]
    · rw [glue_flatten, ih]

theorem cutBefore_ne_nil (h : l ≠ []) : cutBefore p l ≠ [] := by
  intro hnil
  have hflat := cutBefore_flatten (p := p) l
  rw [hnil] at hflat
  exact h hflat.symm

theorem cutBefore_head (c : α) (l : List α) : ∃ w ws, cutBefore p (c :: l) = (c :: w) :: ws := by
  rw [cutBefore]
  split
  · exact ⟨_, _, rfl⟩
  · cases cutBefore p l <;> exact ⟨_, _, rfl⟩

/-- A piece goes on with elements without `p` up to the next piece. -/
theorem cutBefore_extend (hl : ∀ x ∈ l, p x = false) (hm : m.head?.all p = false) :
    ∃ w ws, cutBefore p m = w :: ws ∧ cutBefore p (c :: (l ++ m)) = (c :: (l ++ w)) :: ws := by
  have hne : m ≠ [] := by
    rintro rfl
    simp at hm
  obtain ⟨w, ws, hws⟩ := List.exists_cons_of_ne_nil (cutBefore_ne_nil (p := p) hne)
  refine ⟨w, ws, hws, ?_⟩
  induction l generalizing c with
  | nil =>
    rw [List.nil_append, cutBefore, hm, if_neg (by simp), hws]
    rfl
  | cons d l ih =>
    obtain ⟨hd, hl⟩ := List.forall_mem_cons.mp hl
    rw [cutBefore, List.cons_append, List.head?_cons, Option.all_some, hd, if_neg (by simp), ih hl]
    rfl

/-- A piece ends where the next one starts. -/
theorem cutBefore_append (hl : ∀ x ∈ l, p x = false) (hm : m.head?.all p = true) :
    cutBefore p (c :: (l ++ m)) = (c :: l) :: cutBefore p m := by
  induction l generalizing c with
  | nil => rw [List.nil_append, cutBefore, if_pos hm]
  | cons d l ih =>
    obtain ⟨hd, hl⟩ := List.forall_mem_cons.mp hl
    rw [cutBefore, List.cons_append, List.head?_cons, Option.all_some, hd, if_neg (by simp), ih hl]
    rfl

/-- What starts with `p` is cut apart from what is before it. -/
theorem cutBefore_join (l : List α) (hm : m.head?.all p = true) :
    cutBefore p (l ++ m) = cutBefore p l ++ cutBefore p m := by
  induction l with
  | nil => rfl
  | cons c l ih =>
    rw [List.cons_append, cutBefore, cutBefore, ih]
    cases l with
    | nil =>
      rw [List.nil_append, if_pos hm]
      rfl
    | cons d l =>
      obtain ⟨w, ws, hws⟩ := List.exists_cons_of_ne_nil (cutBefore_ne_nil (p := p) (List.cons_ne_nil d l))
      rw [List.cons_append, List.head?_cons, List.head?_cons, hws]
      split <;> rfl

end Cut

section Parts
variable {α : Type} [DecidableEq α] {separators : List α} {sep x : α} {cur l m : List α}

variable (separators) in
/-- The parts of a list between separators, each with the separator before it. -/
def splitParts (sep : α) (cur : List α) : List α → List (α × List α)
  | [] => [(sep, cur)]
  | x :: rest =>
    if x ∈ separators then (sep, cur) :: splitParts x [] rest else splitParts sep (cur ++ [x]) rest

theorem splitParts_append (hl : ∀ y ∈ l, y ∉ separators) :
    splitParts separators sep cur (l ++ m) = splitParts separators sep (cur ++ l) m := by
  induction l generalizing cur with
  | nil => rw [List.nil_append, List.append_nil]
  | cons y l ih =>
    obtain ⟨hy, hl⟩ := List.forall_mem_cons.mp hl
    rw [List.cons_append, splitParts, if_neg hy, ih hl, List.append_assoc, List.singleton_append]

theorem splitParts_separator (hx : x ∈ separators) :
    splitParts separators sep cur (x :: m) = (sep, cur) :: splitParts separators x [] m :=
  if_pos hx

end Parts

end Orm.Logic
