import Orm.Logic.Frames

/-! Sequences of parts with a separator that no part contains. -/
namespace Orm.Logic

variable {α : Type} {x : α} {as bs : List (List α)}

/-- Parts that each end with the separator. -/
def terminated (x : α) (as : List (List α)) : List α := as.flatMap (· ++ [x])

theorem intercalate_terminated (h : as ≠ []) :
    List.intercalate [x] as ++ [x] = terminated x as := by
  induction as with
  | nil => exact absurd rfl h
  | cons a as ih =>
    cases as with
    | nil => simp [terminated]
    | cons a' as =>
      rw [List.intercalate_cons_cons, List.append_assoc, ih (List.cons_ne_nil _ _)]
      simp [terminated]

theorem intercalate_concat_nil : List.intercalate [x] (as ++ [[]]) = terminated x as := by
  induction as with
  | nil => rfl
  | cons a as ih =>
    have hne : as ++ [[]] ≠ [] := by simp
    obtain ⟨b, bs, hb⟩ := List.exists_cons_of_ne_nil hne
    rw [List.cons_append, hb, List.intercalate_cons_cons, ← hb, ih]
    simp [terminated]

/-- No part between separators holds one. -/
theorem not_mem_splitOn [DecidableEq α] (s : List α) : ∀ l ∈ s.splitOn x, x ∉ l := by
  induction s with
  | nil => simp [List.splitOn, List.splitOnP_nil]
  | cons a s ih =>
    unfold List.splitOn at ih ⊢
    rw [List.splitOnP_cons_eq_if_modifyHead]
    intro l hl
    by_cases ha : a = x
    · rw [if_pos (by simpa using ha)] at hl
      rcases List.mem_cons.mp hl with rfl | hl
      · exact List.not_mem_nil
      · exact ih l hl
    · rw [if_neg (by simpa using ha)] at hl
      cases hparts : List.splitOnP (· == x) s with
      | nil =>
        rw [hparts] at hl
        cases hl
      | cons part parts =>
        rw [hparts] at hl ih
        rcases List.mem_cons.mp hl with rfl | hl
        · rw [List.mem_cons, not_or]
          exact ⟨Ne.symm ha, ih part List.mem_cons_self⟩
        · exact ih l (List.mem_cons_of_mem _ hl)

theorem not_mem_intercalate {y : α} (hne : y ≠ x) (ha : ∀ a ∈ as, y ∉ a) :
    y ∉ List.intercalate [x] as := by
  by_cases hempty : as = []
  · simp [hempty]
  · intro hmem
    have hall : y ∈ terminated x as := by
      rw [← intercalate_terminated hempty]
      exact List.mem_append_left _ hmem
    obtain ⟨a, hain, hy⟩ := List.mem_flatMap.mp hall
    rcases List.mem_append.mp hy with hy | hy
    · exact ha a hain hy
    · exact hne (List.mem_singleton.mp hy)

/-- The part that an element starts. -/
theorem splitOn_cons_of_ne [DecidableEq α] {a : α} (h : a ≠ x) (s : List α) :
    ∃ l ls, s.splitOn x = l :: ls ∧ (a :: s).splitOn x = (a :: l) :: ls := by
  obtain ⟨l, ls, hls⟩ := List.exists_cons_of_ne_nil (List.splitOnP_ne_nil (· == x) s)
  refine ⟨l, ls, hls, ?_⟩
  unfold List.splitOn
  rw [List.splitOnP_cons_eq_if_modifyHead, if_neg (by simpa using h), hls]
  rfl

theorem mem_of_mem_splitOn [DecidableEq α] (s : List α) : ∀ l ∈ s.splitOn x, ∀ a ∈ l, a ∈ s := by
  induction s with
  | nil => simp [List.splitOn, List.splitOnP_nil]
  | cons b s ih =>
    intro l hl a ha
    by_cases hb : b = x
    · unfold List.splitOn at hl
      rw [List.splitOnP_cons_eq_if_modifyHead, if_pos (by simpa using hb)] at hl
      rcases List.mem_cons.mp hl with rfl | hl
      · cases ha
      · exact List.mem_cons_of_mem _ (ih l hl a ha)
    · obtain ⟨m, ms, hms, hsplit⟩ := splitOn_cons_of_ne hb s
      rw [hsplit] at hl
      rcases List.mem_cons.mp hl with rfl | hl
      · rcases List.mem_cons.mp ha with rfl | ha
        · exact List.mem_cons_self
        · exact List.mem_cons_of_mem _ (ih m (hms ▸ List.mem_cons_self) a ha)
      · exact List.mem_cons_of_mem _ (ih l (hms ▸ List.mem_cons_of_mem _ hl) a ha)

end Orm.Logic
