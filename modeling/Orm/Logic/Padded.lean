import Orm.Logic.Digits

/-! Decimal numbers of a fixed width, and fractions without their last zeros. -/
namespace Orm.Logic

section Padded
variable {k n m : Nat} {r s : List Char}

/-- A number in at least `k` digits. -/
def padded (k n : Nat) : List Char := List.replicate (k - (digits n).length) '0' ++ digits n

theorem digits_length_le (hk : 0 < k) (h : n < 10 ^ k) : (digits n).length ≤ k := by
  have hcanonical := canonical_digits n
  have hlength := (hcanonical.length_le (k := k)).mpr (by rwa [number_digits])
  by_cases hzero : digits n = ['0']
  · rw [hzero]
    exact hk
  · rwa [if_neg hzero] at hlength

theorem padded_length (hk : 0 < k) (h : n < 10 ^ k) : (padded k n).length = k := by
  have hle := digits_length_le hk h
  rw [padded, List.length_append, List.length_replicate]
  omega

theorem number_of_padded (k n : Nat) : number (padded k n) = n := by
  rw [padded, number_zeros_append, number_digits]

theorem padded_digits (k n : Nat) : Digits (padded k n) := (digits_zeros _).append (digits_digits n)

/-- Two numbers of one width are read in one way. -/
theorem padded_append_inj (hk : 0 < k) (hn : n < 10 ^ k) (hm : m < 10 ^ k)
    (h : padded k n ++ r = padded k m ++ s) : n = m ∧ r = s := by
  obtain ⟨hnumber, hrest⟩ := List.append_inj h ((padded_length hk hn).trans (padded_length hk hm).symm)
  have heq := congrArg number hnumber
  rw [number_of_padded, number_of_padded] at heq
  exact ⟨heq, hrest⟩

end Padded

section Trimmed
variable {f g : List Char}

/-- Digits without their last zeros. -/
def trimZeros (f : List Char) : List Char := f.rdropWhile (· = '0')

theorem trimZeros_append (f : List Char) :
    ∃ j, f = trimZeros f ++ List.replicate j '0' := by
  obtain ⟨j, hj⟩ := dropZeros_append f.reverse
  refine ⟨j, ?_⟩
  have hreverse := congrArg List.reverse hj
  rw [List.reverse_reverse, List.reverse_append, List.reverse_replicate] at hreverse
  exact hreverse

theorem trimZeros_zeros (f : List Char) (j : Nat) :
    trimZeros (f ++ List.replicate j '0') = trimZeros f := by
  induction j with
  | zero => rw [List.replicate_zero, List.append_nil]
  | succ j ih =>
    rw [List.replicate_succ', ← List.append_assoc, trimZeros, List.rdropWhile_concat_pos _ _ _ (by simp)]
    exact ih

/-- A fraction of at most `k` digits in units of its last place. -/
def units (k : Nat) (f : List Char) : Nat := number (f ++ List.replicate (k - f.length) '0')

/-- Fractions are equal exactly when they are without their last zeros. -/
theorem trimZeros_eq_iff {k : Nat} (hf : Digits f) (hg : Digits g) (hfk : f.length ≤ k)
    (hgk : g.length ≤ k) : trimZeros f = trimZeros g ↔ units k f = units k g := by
  have hfill {f : List Char} (hfk : f.length ≤ k) : f ++ List.replicate (k - f.length) '0' =
      trimZeros f ++ List.replicate (k - (trimZeros f).length) '0' := by
    obtain ⟨j, hj⟩ := trimZeros_append f
    have hlength := congrArg List.length hj
    rw [List.length_append, List.length_replicate] at hlength
    have hcount : j + (k - f.length) = k - (trimZeros f).length := by omega
    calc f ++ List.replicate (k - f.length) '0'
        = trimZeros f ++ List.replicate j '0' ++ List.replicate (k - f.length) '0' := by rw [← hj]
      _ = _ := by rw [List.append_assoc, List.replicate_append_replicate, hcount]
  constructor
  · intro h
    rw [units, units, hfill hfk, hfill hgk, h]
  · intro h
    have hpadded : f ++ List.replicate (k - f.length) '0' = g ++ List.replicate (k - g.length) '0' := by
      refine number_inj (hf.append (digits_zeros _)) (hg.append (digits_zeros _)) ?_ h
      rw [List.length_append, List.length_append, List.length_replicate, List.length_replicate]
      omega
    have htrim := congrArg trimZeros hpadded
    rwa [trimZeros_zeros, trimZeros_zeros] at htrim

end Trimmed

end Orm.Logic
