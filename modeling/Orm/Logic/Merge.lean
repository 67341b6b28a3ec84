import Mathlib

/-! A list read in parts: pieces of it, the first entry of each key, and counts over the parts. -/
namespace Orm.Logic

section Slices
variable {α : Type}

/-- At most `fuel` pieces of `n` entries. -/
def pieces (n : Nat) : Nat → List α → List (List α)
  | 0, _ => []
  | _, [] => []
  | fuel + 1, a :: as => (a :: as).take n :: pieces n fuel ((a :: as).drop n)

theorem pieces_flatten {n fuel : Nat} {l : List α} (hn : 0 < n) (hl : l.length ≤ fuel) :
    (pieces n fuel l).flatten = l := by
  induction fuel generalizing l with
  | zero =>
    obtain rfl := List.length_eq_zero_iff.mp (Nat.le_zero.mp hl)
    rfl
  | succ fuel ih =>
    cases l with
    | nil => rfl
    | cons a as =>
      have hdrop : ((a :: as).drop n).length ≤ fuel := by
        rw [List.length_drop, List.length_cons]
        rw [List.length_cons] at hl
        omega
      rw [pieces, List.flatten_cons, ih hdrop, List.take_append_drop]

theorem pieces_ne_nil {n fuel : Nat} {l s : List α} (hn : 0 < n) (hs : s ∈ pieces n fuel l) :
    s ≠ [] := by
  induction fuel generalizing l with
  | zero => cases hs
  | succ fuel ih =>
    cases l with
    | nil => cases hs
    | cons a as =>
      rcases List.mem_cons.mp hs with rfl | hs
      · obtain ⟨m, rfl⟩ : ∃ m, n = m + 1 := ⟨n - 1, by omega⟩
        simp
      · exact ih hs

/-- More than one piece is cut from a list just when it is longer than a piece. -/
theorem pieces_length_le_one_iff {n fuel : Nat} {l : List α} (hl : l.length ≤ fuel) :
    (pieces n fuel l).length ≤ 1 ↔ l.length ≤ n ∨ fuel ≤ 1 := by
  cases fuel with
  | zero => simp [pieces]
  | succ fuel =>
    cases l with
    | nil => simp [pieces]
    | cons a as =>
      cases fuel with
      | zero => simp [pieces]
      | succ fuel =>
        rw [pieces, List.length_cons]
        cases hdrop : (a :: as).drop n with
        | nil =>
          have hlen := List.drop_eq_nil_iff.mp hdrop
          simp only [pieces, List.length_nil, le_refl, true_iff]
          exact .inl hlen
        | cons b bs =>
          have hlen : ¬ (a :: as).length ≤ n := by
            intro hle
            rw [List.drop_eq_nil_iff.mpr hle] at hdrop
            cases hdrop
          simp only [pieces, List.length_cons] at hlen ⊢
          omega

/-- The entries that meet a test are of one piece just when their places are. -/
theorem countP_pieces_le_one_iff {n fuel : Nat} {l : List α} (hn : 0 < n) (hl : l.length ≤ fuel)
    (c : α → Bool) :
    (pieces n fuel l).countP (fun s => s.any c) ≤ 1 ↔
      ∀ i j a b, l[i]? = some a → l[j]? = some b → c a = true → c b = true → i / n = j / n := by
  induction fuel generalizing l with
  | zero =>
    obtain rfl := List.length_eq_zero_iff.mp (Nat.le_zero.mp hl)
    simp [pieces]
  | succ fuel ih =>
    cases l with
    | nil => simp [pieces]
    | cons x xs =>
      have hdrop : ((x :: xs).drop n).length ≤ fuel := by
        rw [List.length_drop, List.length_cons]
        rw [List.length_cons] at hl
        omega
      have hflat := pieces_flatten hn hdrop
      rw [pieces, List.countP_cons]
      generalize x :: xs = l at *
      have hnone : (pieces n fuel (l.drop n)).countP (fun s => s.any c) = 0 ↔
          ∀ j b, l[n + j]? = some b → ¬ c b = true := by
        rw [List.countP_eq_zero]
        constructor
        · intro h j b hb hc
          have hmem : b ∈ (pieces n fuel (l.drop n)).flatten := by
            rw [hflat]
            exact List.mem_of_getElem? (List.getElem?_drop ▸ hb)
          obtain ⟨s, hs, hbs⟩ := List.mem_flatten.mp hmem
          exact h s hs (List.any_eq_true.mpr ⟨b, hbs, hc⟩)
        · intro h s hs hany
          obtain ⟨b, hb, hc⟩ := List.any_eq_true.mp hany
          have hmem := List.mem_flatten_of_mem hs hb
          rw [hflat] at hmem
          obtain ⟨j, hj⟩ := List.getElem?_of_mem hmem
          exact h j b (List.getElem?_drop ▸ hj) hc
      have hfirst : (l.take n).any c = true ↔ ∃ i < n, ∃ a, l[i]? = some a ∧ c a = true := by
        rw [List.any_eq_true]
        constructor
        · rintro ⟨a, ha, hc⟩
          obtain ⟨i, hi⟩ := List.getElem?_of_mem ha
          rw [List.getElem?_take] at hi
          split at hi
          · exact ⟨i, by assumption, a, hi, hc⟩
          · cases hi
        · rintro ⟨i, hi, a, ha, hc⟩
          refine ⟨a, List.mem_of_getElem? (i := i) ?_, hc⟩
          rw [List.getElem?_take, if_pos hi, ha]
      have hrest := ih hdrop
      have hshift (i : Nat) : (n + i) / n = i / n + 1 := by
        rw [Nat.add_comm, Nat.add_div_right i hn]
      have hlt (i : Nat) (hi : i < n) : i / n = 0 := Nat.div_eq_of_lt hi
      have hsplit : (pieces n fuel (l.drop n)).countP (fun s => s.any c) +
          (if (l.take n).any c = true then 1 else 0) ≤ 1 ↔
          (pieces n fuel (l.drop n)).countP (fun s => s.any c) ≤ 1 ∧
          ((l.take n).any c = true →
            (pieces n fuel (l.drop n)).countP (fun s => s.any c) = 0) := by
        split
        · rename_i hany
          constructor
          · intro h
            exact ⟨by omega, fun _ => by omega⟩
          · rintro ⟨-, h⟩
            have := h hany
            omega
        · rename_i hany
          exact ⟨fun h => ⟨by omega, fun h' => absurd h' hany⟩, fun h => by omega⟩
      rw [hsplit, hrest, hnone, hfirst]
      simp only [List.getElem?_drop]
      constructor
      · rintro ⟨hsame, hapart⟩ i j a b ha hb hca hcb
        rcases Nat.lt_or_ge i n with hi | hi <;> rcases Nat.lt_or_ge j n with hj | hj
        · rw [hlt i hi, hlt j hj]
        · obtain ⟨k, rfl⟩ := Nat.exists_eq_add_of_le hj
          exact absurd hcb (hapart ⟨i, hi, a, ha, hca⟩ k b hb)
        · obtain ⟨k, rfl⟩ := Nat.exists_eq_add_of_le hi
          exact absurd hca (hapart ⟨j, hj, b, hb, hcb⟩ k a ha)
        · obtain ⟨k, rfl⟩ := Nat.exists_eq_add_of_le hi
          obtain ⟨m, rfl⟩ := Nat.exists_eq_add_of_le hj
          rw [hshift, hshift, hsame k m a b ha hb hca hcb]
      · intro h
        refine ⟨fun i j a b ha hb hca hcb => ?_, ?_⟩
        · have hij := h (n + i) (n + j) a b ha hb hca hcb
          rw [hshift, hshift] at hij
          omega
        · rintro ⟨i, hi, a, ha, hca⟩ j b hb hcb
          have hij := h i (n + j) a b ha hb hca hcb
          rw [hlt i hi, hshift] at hij
          exact absurd hij (Nat.succ_ne_zero _).symm

end Slices

section KeepFirst
variable {α κ : Type} [DecidableEq κ] (key : α → κ)

/-- The first entry of each key that is not among the seen ones. -/
def keepFirst : List κ → List α → List α
  | _, [] => []
  | seen, a :: as => if key a ∈ seen then keepFirst seen as else a :: keepFirst (key a :: seen) as

variable {key}

theorem mem_of_mem_keepFirst {seen : List κ} {l : List α} {a : α}
    (h : a ∈ keepFirst key seen l) : a ∈ l ∧ key a ∉ seen := by
  induction l generalizing seen with
  | nil => cases h
  | cons b l ih =>
    rw [keepFirst] at h
    split at h
    · obtain ⟨hmem, hseen⟩ := ih h
      exact ⟨List.mem_cons_of_mem _ hmem, hseen⟩
    · rename_i hb
      rcases List.mem_cons.mp h with rfl | h
      · exact ⟨List.mem_cons_self, hb⟩
      · obtain ⟨hmem, hseen⟩ := ih h
        exact ⟨List.mem_cons_of_mem _ hmem, fun hs => hseen (List.mem_cons_of_mem _ hs)⟩

theorem keepFirst_nodup (seen : List κ) (l : List α) : ((keepFirst key seen l).map key).Nodup := by
  induction l generalizing seen with
  | nil => exact List.nodup_nil
  | cons b l ih =>
    rw [keepFirst]
    split
    · exact ih seen
    · rw [List.map_cons, List.nodup_cons]
      refine ⟨fun hmem => ?_, ih _⟩
      obtain ⟨a, ha, hkey⟩ := List.mem_map.mp hmem
      exact (mem_of_mem_keepFirst ha).2 (hkey ▸ List.mem_cons_self)

/-- Every key of the list is seen before or kept. -/
theorem key_mem_keepFirst (seen : List κ) {l : List α} {a : α} (h : a ∈ l) :
    key a ∈ seen ∨ ∃ b ∈ keepFirst key seen l, key b = key a := by
  induction l generalizing seen with
  | nil => cases h
  | cons b l ih =>
    rw [keepFirst]
    rcases List.mem_cons.mp h with rfl | h
    · split
      · rename_i hseen
        exact .inl hseen
      · exact .inr ⟨a, List.mem_cons_self, rfl⟩
    · split
      · exact ih seen h
      · rcases ih (key b :: seen) h with hseen | ⟨c, hc, hkey⟩
        · rcases List.mem_cons.mp hseen with heq | hseen
          · exact .inr ⟨b, List.mem_cons_self, heq.symm⟩
          · exact .inl hseen
        · exact .inr ⟨c, List.mem_cons_of_mem _ hc, hkey⟩

/-- The first entries of the keys of `l`, a list of entries of `u`, are all of `u` just when the
keys of `u` differ and `l` leaves none out. -/
theorem keepFirst_perm_iff {l u : List α} (hsub : ∀ a ∈ l, a ∈ u) :
    (keepFirst key [] l).Perm u ↔ (u.map key).Nodup ∧ ∀ a ∈ u, a ∈ l := by
  constructor
  · intro hperm
    refine ⟨(hperm.map key).nodup_iff.mp (keepFirst_nodup [] l), fun a ha => ?_⟩
    exact (mem_of_mem_keepFirst (hperm.mem_iff.mpr ha)).1
  · rintro ⟨hnodup, hall⟩
    have hinj := List.inj_on_of_nodup_map hnodup
    refine (List.perm_ext_iff_of_nodup ((keepFirst_nodup [] l).of_map key)
      (hnodup.of_map key)).mpr fun a => ?_
    constructor
    · intro ha
      exact hsub a (mem_of_mem_keepFirst ha).1
    · intro ha
      rcases @key_mem_keepFirst _ _ _ key [] _ _ (hall a ha) with hseen | ⟨b, hb, hkey⟩
      · cases hseen
      · rwa [← hinj (hsub b (mem_of_mem_keepFirst hb).1) ha hkey]

theorem keepFirst_eq_nil_iff {seen : List κ} {l : List α} :
    keepFirst key seen l = [] ↔ ∀ a ∈ l, key a ∈ seen := by
  induction l with
  | nil => simp [keepFirst]
  | cons b l ih =>
    rw [keepFirst, List.forall_mem_cons]
    split
    · rename_i hb
      rw [ih, and_iff_right hb]
    · rename_i hb
      simp [hb]

/-- One entry is kept just when the first one has the key of all. -/
theorem keepFirst_eq_singleton_iff {l : List α} {a : α} :
    keepFirst key [] l = [a] ↔ l.head? = some a ∧ ∀ b ∈ l, key b = key a := by
  cases l with
  | nil => simp [keepFirst]
  | cons b l =>
    rw [keepFirst, if_neg (by simp), List.cons_eq_cons, keepFirst_eq_nil_iff, List.head?_cons,
      Option.some_inj, List.forall_mem_cons]
    constructor
    · rintro ⟨rfl, h⟩
      exact ⟨rfl, rfl, fun c hc => List.mem_singleton.mp (h c hc)⟩
    · rintro ⟨rfl, -, h⟩
      exact ⟨rfl, fun c hc => List.mem_singleton.mpr (h c hc)⟩

end KeepFirst

section Counts
variable {α β : Type}

/-- The parts that hold an entry, summed over the entries, is the sum of the sizes of the parts. -/
theorem sum_countP_comm (sel : β → α → Bool) (parts : List β) (l : List α) :
    (parts.map fun p => l.countP (sel p)).sum = (l.map fun a => parts.countP fun p => sel p a).sum := by
  induction l with
  | nil => simp
  | cons a l ih =>
    have hstep : (parts.map fun p => (a :: l).countP (sel p)).sum =
        (parts.map fun p => l.countP (sel p)).sum + parts.countP fun p => sel p a := by
      clear ih
      induction parts with
      | nil => rfl
      | cons p parts ih =>
        simp only [List.map_cons, List.sum_cons, List.countP_cons] at ih ⊢
        omega
    rw [hstep, ih, List.map_cons, List.sum_cons]
    omega

/-- The sizes of parts add up to a count, whatever the list, just when each entry that is counted
is in one part and no other is in any. -/
theorem sum_countP_eq_iff (sel : β → α → Bool) (parts : List β) (all : α → Bool) (l : List α) :
    (∀ s, s ⊆ l → (parts.map fun p => s.countP (sel p)).sum = s.countP all) ↔
      ∀ a ∈ l, (parts.countP fun p => sel p a) = if all a then 1 else 0 := by
  constructor
  · intro h a ha
    have hone := h [a] fun b hb => List.mem_singleton.mp hb ▸ ha
    rw [sum_countP_comm] at hone
    simpa [List.countP_cons] using hone
  · intro h s hs
    rw [sum_countP_comm]
    induction s with
    | nil => rfl
    | cons a s ih =>
      obtain ⟨ha, hs⟩ := List.cons_subset.mp hs
      rw [List.map_cons, List.sum_cons, ih hs, h a ha, List.countP_cons]
      omega

end Counts

end Orm.Logic
