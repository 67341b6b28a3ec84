import Orm.Engine.Model

/-! The order of texts by their code units, and entries sorted by their names. -/
namespace Orm.Engine

variable {α β : Type}

instance : Std.Total utf16Le := ⟨fun s t => le_total (utf16 s) (utf16 t)⟩

instance : IsTrans String utf16Le := ⟨fun _ _ _ h h' => le_trans h h'⟩

section Units

/-- The code units of a character. -/
def units (c : Char) : List Nat :=
  if c.toNat < 0x10000 then [c.toNat]
  else [0xD800 + (c.toNat - 0x10000) / 0x400, 0xDC00 + (c.toNat - 0x10000) % 0x400]

theorem toNat_scalar (c : Char) : c.toNat < 0xD800 ∨ 0xDFFF < c.toNat ∧ c.toNat < 0x110000 := c.valid

theorem units_ne_nil (c : Char) : units c ≠ [] := by
  unfold units
  split <;> simp

/-- The first code units say which character they are of, whatever follows. -/
theorem units_append_inj {c d : Char} {l l' : List Nat} (h : units c ++ l = units d ++ l') :
    c = d ∧ l = l' := by
  have hc := toNat_scalar c
  have hd := toNat_scalar d
  unfold units at h
  split at h <;> split at h
  · obtain ⟨hhead, htail⟩ := List.cons.inj h
    exact ⟨Char.toNat_inj.mp hhead, htail⟩
  · have hhead := (List.cons.inj h).1
    omega
  · have hhead := (List.cons.inj h).1
    omega
  · simp only [List.cons_append, List.nil_append, List.cons.injEq] at h
    obtain ⟨hhigh, hlow, htail⟩ := h
    exact ⟨Char.toNat_inj.mp (by omega), htail⟩

theorem utf16_injective : Function.Injective utf16 := by
  have hlists : ∀ l l' : List Char, l.flatMap units = l'.flatMap units → l = l' := by
    intro l
    induction l with
    | nil =>
      intro l' h
      cases l' with
      | nil => rfl
      | cons d l' =>
        have hnil := (List.append_eq_nil_iff.mp h.symm).1
        exact absurd hnil (units_ne_nil d)
    | cons c l ih =>
      intro l' h
      cases l' with
      | nil =>
        have hnil := (List.append_eq_nil_iff.mp h).1
        exact absurd hnil (units_ne_nil c)
      | cons d l' =>
        obtain ⟨rfl, hrest⟩ := units_append_inj h
        rw [ih l' hrest]
  exact fun s t h => String.toList_inj.mp (hlists _ _ h)

end Units

section Sorted

/-- Entries whose names are those of sorted entries are sorted. -/
theorem sortedEntries_of_names {n : α → String} {m : β → String} {l : List α} {l' : List β}
    (h : l'.map m = (sortedEntries n l).map n) : sortedEntries m l' = l' := by
  have hsorted : ((sortedEntries n l).map n).Pairwise utf16Le := by
    rw [List.pairwise_map]
    exact List.pairwise_insertionSort _ l
  rw [← h, List.pairwise_map] at hsorted
  exact hsorted.insertionSort_eq

theorem sortedEntries_map {name : α → String} {name' : β → String} {f : α → β}
    (h : ∀ a, name' (f a) = name a) (l : List α) :
    sortedEntries name' (l.map f) = (sortedEntries name l).map f := by
  refine (List.map_insertionSort _ _ f l ?_).symm
  intro a _ b _
  rw [h, h]

/-- Entries that their names tell apart are sorted in one way. -/
theorem sortedEntries_congr {name : α → String} {l l' : List α} (hperm : l.Perm l')
    (hinj : ∀ a ∈ l, ∀ b ∈ l, name a = name b → a = b) :
    sortedEntries name l = sortedEntries name l' := by
  have hsort : ∀ l : List α, (sortedEntries name l).Perm l := fun l => List.perm_insertionSort _ l
  refine List.Perm.eq_of_pairwise ?_ (List.pairwise_insertionSort _ l)
    (List.pairwise_insertionSort _ l') ((hsort l).trans (hperm.trans (hsort l').symm))
  intro a b ha hb hab hba
  refine hinj a ((hsort l).mem_iff.mp ha) b (hperm.mem_iff.mpr ((hsort l').mem_iff.mp hb)) ?_
  exact utf16_injective (le_antisymm hab hba)

theorem sortedEntries_sorted (name : α → String) (l : List α) :
    sortedEntries name (sortedEntries name l) = sortedEntries name l := sortedEntries_of_names rfl

/-- Entries of one name keep their order. -/
theorem sortedEntries_stable (name : α → String) (l : List α) (k : String) :
    (sortedEntries name l).filter (name · = k) = l.filter (name · = k) := by
  have hperm : (sortedEntries name l).Perm l := List.perm_insertionSort _ l
  have hpairwise : (l.filter (name · = k)).Pairwise fun a b => utf16Le (name a) (name b) := by
    refine List.pairwise_of_forall_mem_list fun a ha b hb => ?_
    have hname : name a = name b :=
      (of_decide_eq_true (List.mem_filter.mp ha).2).trans
        (of_decide_eq_true (List.mem_filter.mp hb).2).symm
    rw [hname]
    exact le_refl (utf16 (name b))
  have hsublist := (List.sublist_insertionSort hpairwise List.filter_sublist).filter (name · = k)
  rw [List.filter_filter] at hsublist
  simp only [Bool.and_self] at hsublist
  exact (hsublist.eq_of_length (hperm.filter _).length_eq.symm).symm

end Sorted

end Orm.Engine
