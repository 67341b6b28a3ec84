import Mathlib.Order.Nat

/-! The first longest run of positions that satisfy a predicate. -/
namespace Orm.Logic

variable {z : Nat → Prop} {k n : Nat} {best : Option (Nat × Nat)}

/-- The `m` positions from `i` on satisfy the predicate. -/
def Stretch (z : Nat → Prop) (i m : Nat) : Prop := ∀ j, i ≤ j → j < i + m → z j

/-- The run of `n` positions from `s` on is the first of the longest ones below `k`. -/
structure FirstLongest (z : Nat → Prop) (k s n : Nat) : Prop where
  run : Stretch z s n
  within : s + n ≤ k
  longest : ∀ i m, Stretch z i m → i + m ≤ k → m ≤ n
  first : ∀ i, Stretch z i n → i + n ≤ k → s ≤ i

/-- The first longest run below `k` of at least two positions, or that there is none. -/
def BestRun (z : Nat → Prop) (k : Nat) : Option (Nat × Nat) → Prop
  | none => ∀ i m, Stretch z i m → i + m ≤ k → m < 2
  | some (s, n) => 2 ≤ n ∧ FirstLongest z k s n

def bestLength (best : Option (Nat × Nat)) : Nat := (best.map Prod.snd).getD 0

/-- No run goes on over position `k`. -/
def Cut (z : Nat → Prop) (k : Nat) : Prop := ∀ i m, Stretch z i m → i < k → k < i + m → False

theorem bestRun_zero : BestRun z 0 none := by
  intro i m _ hle
  omega

theorem cut_zero : Cut z 0 := by
  intro i m _ hlt
  omega

theorem cut_of_not (h : ¬ z k) : Cut z k := fun _ _ hrun hlt hgt => h (hrun k hlt.le hgt)

theorem cut_succ_of_not (h : ¬ z k) : Cut z (k + 1) := fun _ _ hrun hlt hgt =>
  h (hrun k (by omega) (by omega))

theorem BestRun.skip (h : BestRun z k best) (hk : ¬ z k) : BestRun z (k + 1) best := by
  have hshort : ∀ i m, Stretch z i m → i + m ≤ k + 1 → 0 < m → i + m ≤ k := by
    intro i m hrun hle hm
    by_contra hnot
    exact hk (hrun k (by omega) (by omega))
  cases best with
  | none =>
    intro i m hrun hle
    by_cases hm : 0 < m
    · exact h i m hrun (hshort i m hrun hle hm)
    · omega
  | some r =>
    obtain ⟨htwo, hfirst⟩ := h
    refine ⟨htwo, hfirst.run, hfirst.within.trans (Nat.le_succ k), ?_, ?_⟩
    · intro i m hrun hle
      by_cases hm : 0 < m
      · exact hfirst.longest i m hrun (hshort i m hrun hle hm)
      · omega
    · intro i hrun hle
      exact hfirst.first i hrun (hshort i r.2 hrun hle (by omega))

/-- A whole run after a cut replaces the best run when it is longer. -/
theorem BestRun.block (h : BestRun z k best) (hcut : Cut z k) (hrun : Stretch z k n) :
    BestRun z (k + n) (if bestLength best < n ∧ 2 ≤ n then some (k, n) else best) := by
  have hsplit : ∀ i m, Stretch z i m → i + m ≤ k + n → i + m ≤ k ∨ k ≤ i ∧ m ≤ n := by
    intro i m hrun' hle
    by_contra hnot
    exact hcut i m hrun' (by omega) (by omega)
  by_cases hlonger : bestLength best < n ∧ 2 ≤ n
  · rw [if_pos hlonger]
    have hbefore : ∀ i m, Stretch z i m → i + m ≤ k → m < n := by
      intro i m hrun' hle
      cases best with
      | none => exact lt_of_lt_of_le (h i m hrun' hle) hlonger.2
      | some r => exact lt_of_le_of_lt (h.2.longest i m hrun' hle) hlonger.1
    refine ⟨hlonger.2, hrun, le_rfl, ?_, ?_⟩
    · intro i m hrun' hle
      rcases hsplit i m hrun' hle with hle' | hge
      · exact (hbefore i m hrun' hle').le
      · exact hge.2
    · intro i hrun' hle
      rcases hsplit i n hrun' hle with hle' | hge
      · exact absurd (hbefore i n hrun' hle') (lt_irrefl n)
      · exact hge.1
  · rw [if_neg hlonger]
    cases best with
    | none =>
      intro i m hrun' hle
      rcases hsplit i m hrun' hle with hle' | hge
      · exact h i m hrun' hle'
      · by_contra hnot
        exact hlonger ⟨lt_of_lt_of_le (by omega : 0 < m) hge.2, by omega⟩
    | some r =>
      obtain ⟨htwo, hfirst⟩ := h
      have hshort : n ≤ r.2 := by
        by_contra hnot
        exact hlonger ⟨not_le.mp hnot, by omega⟩
      refine ⟨htwo, hfirst.run, hfirst.within.trans (Nat.le_add_right k n), ?_, ?_⟩
      · intro i m hrun' hle
        rcases hsplit i m hrun' hle with hle' | hge
        · exact hfirst.longest i m hrun' hle'
        · exact hge.2.trans hshort
      · intro i hrun' hle
        rcases hsplit i r.2 hrun' hle with hle' | hge
        · exact hfirst.first i hrun' hle'
        · exact (Nat.le_of_add_right_le hfirst.within).trans hge.1

end Orm.Logic
