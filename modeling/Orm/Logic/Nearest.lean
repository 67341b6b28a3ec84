import Mathlib.Algebra.Order.Field.Basic
import Mathlib.Algebra.Order.Archimedean.Basic
import Mathlib.Algebra.Ring.Parity
import Mathlib.Data.Rat.Cast.Order
import Mathlib.Order.Monotone.Basic
import Mathlib.Tactic.FieldSimp
import Mathlib.Tactic.Linarith
import Mathlib.Tactic.Positivity
import Mathlib.Tactic.Ring

/-! Rounding to the nearest point of an increasing sequence, and the bit patterns of a binary float. -/
namespace Orm.Logic

section Nearest
variable {f : Nat → ℚ} {x : ℚ} {r j : Nat}

/-- The index of the point nearest to `x`; of two nearest points the one with the even index. -/
def NearestEven (f : Nat → ℚ) (x : ℚ) (r : Nat) : Prop :=
  ∀ k, |x - f r| ≤ |x - f k| ∧ (k ≠ r → |x - f k| = |x - f r| → Even r)

theorem nearestEven_below (hf : StrictMono f) (hlo : f j ≤ x) (hhi : x < f (j + 1))
    (hnear : x - f j ≤ f (j + 1) - x) (htie : x - f j = f (j + 1) - x → Even j) :
    NearestEven f x j := by
  intro k
  rw [abs_of_nonneg (sub_nonneg.mpr hlo)]
  rcases Nat.lt_trichotomy k j with hk | rfl | hk
  · have hlt := hf hk
    rw [abs_of_nonneg (by linarith)]
    exact ⟨by linarith, fun _ heq => absurd heq (by linarith)⟩
  · rw [abs_of_nonneg (sub_nonneg.mpr hlo)]
    exact ⟨le_rfl, fun hne => absurd rfl hne⟩
  · have hle := hf.monotone (Nat.succ_le_of_lt hk)
    rw [abs_of_neg (by linarith)]
    exact ⟨by linarith, fun _ heq => htie (by linarith)⟩

theorem nearestEven_above (hf : StrictMono f) (hlo : f j ≤ x) (hhi : x < f (j + 1))
    (hnear : f (j + 1) - x ≤ x - f j) (htie : x - f j = f (j + 1) - x → Even (j + 1)) :
    NearestEven f x (j + 1) := by
  intro k
  rw [abs_of_neg (sub_neg.mpr hhi)]
  rcases Nat.lt_trichotomy k (j + 1) with hk | rfl | hk
  · have hle := hf.monotone (Nat.le_of_lt_succ hk)
    rw [abs_of_nonneg (sub_nonneg.mpr (hle.trans hlo))]
    exact ⟨by linarith, fun _ heq => htie (by linarith)⟩
  · rw [abs_of_neg (sub_neg.mpr hhi)]
    exact ⟨le_rfl, fun hne => absurd rfl hne⟩
  · have hlt := hf hk
    rw [abs_of_neg (by linarith)]
    exact ⟨by linarith, fun _ heq => absurd heq (by linarith)⟩

/-- The midpoint above an odd index is where rounding passes it. -/
theorem NearestEven.le_odd_iff (hf : StrictMono f) (h : NearestEven f x r) (hodd : Odd j) :
    r ≤ j ↔ x < (f j + f (j + 1)) / 2 := by
  have hstep := hf (Nat.lt_succ_self j)
  constructor
  · intro hle
    have hr := hf.monotone hle
    by_contra hnot
    obtain ⟨hnear, htie⟩ := h (j + 1)
    rw [abs_of_nonneg (by linarith : 0 ≤ x - f r)] at hnear htie
    by_cases hx : f (j + 1) ≤ x
    · rw [abs_of_nonneg (by linarith)] at hnear
      linarith
    · rw [abs_of_neg (by linarith)] at hnear htie
      have hfr : f r = f j := by linarith
      obtain rfl := hf.injective hfr
      exact (Nat.not_even_iff_odd.mpr hodd) (htie (by omega) (by linarith))
  · intro hx
    by_contra hnot
    have hr := hf.monotone (Nat.succ_le_of_lt (not_le.mp hnot))
    obtain ⟨hnear, _⟩ := h j
    rw [abs_of_neg (by linarith : x - f r < 0)] at hnear
    by_cases hxj : f j ≤ x
    · rw [abs_of_nonneg (by linarith)] at hnear
      linarith
    · rw [abs_of_neg (by linarith)] at hnear
      linarith

end Nearest

section Quotient
variable {n d : Nat}

/-- The quotient rounded to the nearest integer, ties to even. -/
def roundEven (n d : Nat) : Nat :=
  let q := n / d
  let twice := n % d * 2
  if d < twice ∨ twice = d ∧ q % 2 = 1 then q + 1 else q

/-- Rounding on a segment where the points are `u` apart and start with `c * u`. -/
theorem nearestEven_segment {f : Nat → ℚ} (hf : StrictMono f) {b c m : Nat} {u : ℚ} (hu : 0 < u)
    (hd : 0 < d) (hline : ∀ i ≤ m, f (b + i) = (c + i) * u) (hparity : Even b ∧ Even c)
    (hlo : c * d ≤ n) (hhi : n < (c + m) * d) :
    NearestEven f (n / d * u) (b + (roundEven n d - c)) ∧ c ≤ roundEven n d ∧
      roundEven n d ≤ c + m := by
  have hq : c ≤ n / d := (Nat.le_div_iff_mul_le hd).mpr hlo
  have hq' : n / d < c + m := (Nat.div_lt_iff_lt_mul hd).mpr hhi
  obtain ⟨i, hi⟩ := Nat.exists_eq_add_of_le hq
  have hd' : (0 : ℚ) < d := Nat.cast_pos.mpr hd
  have hmod := Nat.mod_lt n hd
  have hsum : (n : ℚ) / d = c + i + (n % d : Nat) / d := by
    have hn : (n : ℚ) = d * (c + i) + (n % d : Nat) := by
      exact_mod_cast (by rw [← hi]; exact (Nat.div_add_mod n d).symm)
    rw [hn]
    field_simp
  have hrem : ((n % d : Nat) : ℚ) / d < 1 := by
    rw [div_lt_one hd']
    exact_mod_cast hmod
  have hrem' : (0 : ℚ) ≤ ((n % d : Nat) : ℚ) / d := by positivity
  have hat : f (b + i) = (c + i) * u := hline i (by omega)
  have hnext : f (b + i + 1) = (c + i + 1) * u := by
    rw [Nat.add_assoc, hline (i + 1) (by omega)]
    push_cast
    ring
  obtain ⟨x, hx⟩ : ∃ x, x = (n : ℚ) / d * u := ⟨_, rfl⟩
  obtain ⟨t, ht⟩ : ∃ t, t = ((n % d : Nat) : ℚ) / d := ⟨_, rfl⟩
  rw [← ht] at hsum hrem hrem'
  have hbelow : x - f (b + i) = t * u := by
    rw [hx, hat, hsum]
    ring
  have habove : f (b + i + 1) - x = (1 - t) * u := by
    rw [hx, hnext, hsum]
    ring
  have hlo' : f (b + i) ≤ x := by
    have := mul_nonneg hrem' hu.le
    linarith
  have hhi' : x < f (b + i + 1) := by
    have := mul_pos (sub_pos.mpr hrem) hu
    linarith
  have hhalf : ∀ {a : ℚ}, a = t * 2 - 1 → a * d = (n % d * 2 : Nat) - (d : ℚ) := by
    intro a ha
    rw [ha, ht]
    push_cast
    field_simp
  have hparity' : Even (b + i) ↔ n / d % 2 = 0 := by
    rw [hi, ← Nat.even_iff, Nat.even_add, Nat.even_add, iff_true_left hparity.1,
      iff_true_left hparity.2]
  rw [← hx]
  unfold roundEven
  by_cases hup : d < n % d * 2 ∨ n % d * 2 = d ∧ n / d % 2 = 1
  · simp only [hup, if_true]
    have hindex : b + (n / d + 1 - c) = b + i + 1 := by omega
    have hge : 1 ≤ t * 2 := by
      have hcast : ((d : Nat) : ℚ) ≤ (n % d * 2 : Nat) := by
        exact_mod_cast (by omega : d ≤ n % d * 2)
      have := hhalf rfl
      by_contra hnot
      have := mul_neg_of_neg_of_pos (by linarith : t * 2 - 1 < 0) hd'
      linarith
    rw [hindex]
    refine ⟨nearestEven_above hf hlo' hhi' ?_ ?_, by omega, by omega⟩
    · rw [hbelow, habove]
      exact mul_le_mul_of_nonneg_right (by linarith) hu.le
    · intro heq
      rw [hbelow, habove] at heq
      have heq' : t = 1 - t := mul_right_cancel₀ hu.ne' heq
      have hzero := hhalf (by linarith : (0 : ℚ) = t * 2 - 1)
      have htwice : n % d * 2 = d := by
        rw [zero_mul] at hzero
        exact_mod_cast (by linarith : ((n % d * 2 : Nat) : ℚ) = (d : Nat))
      rw [Nat.even_add_one, hparity']
      omega
  · simp only [hup, if_false]
    have hindex : b + (n / d - c) = b + i := by omega
    have hle : t * 2 ≤ 1 := by
      have hcast : ((n % d * 2 : Nat) : ℚ) ≤ (d : Nat) := by
        exact_mod_cast (by omega : n % d * 2 ≤ d)
      have := hhalf rfl
      by_contra hnot
      have := mul_pos (by linarith : 0 < t * 2 - 1) hd'
      linarith
    rw [hindex]
    refine ⟨nearestEven_below hf hlo' hhi' ?_ ?_, by omega, by omega⟩
    · rw [hbelow, habove]
      exact mul_le_mul_of_nonneg_right (by linarith) hu.le
    · intro heq
      rw [hbelow, habove] at heq
      have heq' : t = 1 - t := mul_right_cancel₀ hu.ne' heq
      have hzero := hhalf (by linarith : (0 : ℚ) = t * 2 - 1)
      have htwice : n % d * 2 = d := by
        rw [zero_mul] at hzero
        exact_mod_cast (by linarith : ((n % d * 2 : Nat) : ℚ) = (d : Nat))
      rw [hparity']
      omega

end Quotient

section Pattern
variable {k : Nat} {e : Int} {n d : Nat}

/-- The leading significand bit of a biased exponent. -/
def leading (k biased : Nat) : Nat := if biased = 0 then 0 else 2 ^ k

/-- The distance of the values of a biased exponent. -/
def spacing (e : Int) (biased : Nat) : ℚ := 2 ^ (e + (biased - 1 : Nat))

/-- The value of a bit pattern with `k` fraction bits whose subnormals count units of `2 ^ e`. -/
def patternValue (k : Nat) (e : Int) (r : Nat) : ℚ :=
  (leading k (r / 2 ^ k) + (r % 2 ^ k : Nat)) * spacing e (r / 2 ^ k)

theorem spacing_pos (e : Int) (biased : Nat) : 0 < spacing e biased := by
  exact zpow_pos (by norm_num) _

/-- The patterns of one biased exponent, up to the first of the next, are equally spaced. -/
theorem patternValue_segment (biased : Nat) {i : Nat} (hi : i ≤ 2 ^ k) :
    patternValue k e (biased * 2 ^ k + i) = (leading k biased + i) * spacing e biased := by
  have hpos : 0 < 2 ^ k := Nat.two_pow_pos k
  unfold patternValue
  rcases Nat.lt_or_eq_of_le hi with hlt | rfl
  · rw [Nat.mul_comm, Nat.mul_add_div hpos, Nat.div_eq_of_lt hlt, Nat.mul_add_mod,
      Nat.mod_eq_of_lt hlt, Nat.add_zero]
  · rw [← Nat.succ_mul, Nat.mul_div_cancel _ hpos, Nat.mul_mod_left]
    cases biased with
    | zero => simp [leading, spacing]
    | succ b =>
      have hspacing : spacing e (b + 1 + 1) = 2 * spacing e (b + 1) := by
        unfold spacing
        rw [Nat.add_sub_cancel, Nat.add_sub_cancel, Nat.cast_succ, ← add_assoc,
          zpow_add_one₀ (by norm_num), mul_comm]
      rw [hspacing]
      simp only [leading, Nat.succ_ne_zero, if_false]
      push_cast
      ring

theorem patternValue_strictMono (k : Nat) (e : Int) : StrictMono (patternValue k e) := by
  refine strictMono_nat_of_lt_succ fun r => ?_
  have hmod := Nat.mod_lt r (Nat.two_pow_pos k)
  have hr : r = r / 2 ^ k * 2 ^ k + r % 2 ^ k := (Nat.div_add_mod' r _).symm
  have hhere := patternValue_segment (e := e) (r / 2 ^ k) hmod.le
  have hnext := patternValue_segment (e := e) (r / 2 ^ k) (Nat.succ_le_of_lt hmod)
  rw [← hr] at hhere
  rw [Nat.succ_eq_add_one, ← Nat.add_assoc, ← hr] at hnext
  rw [hhere, hnext]
  refine mul_lt_mul_of_pos_right ?_ (spacing_pos _ _)
  push_cast
  linarith

/-- The pattern of a quotient of units of a biased exponent that covers it. -/
theorem nearestEven_pattern (hk : k ≠ 0) (biased : Nat) (hd : 0 < d)
    (hlo : leading k biased * d ≤ n) (hhi : n < (leading k biased + 2 ^ k) * d) :
    NearestEven (patternValue k e) (n / d * spacing e biased)
        (biased * 2 ^ k + (roundEven n d - leading k biased)) ∧
      leading k biased ≤ roundEven n d ∧ roundEven n d ≤ leading k biased + 2 ^ k := by
  have heven : Even (2 ^ k) := (Nat.even_pow.mpr ⟨even_two, hk⟩)
  have hlead : Even (leading k biased) := by
    unfold leading
    split
    · exact Even.zero
    · exact heven
  exact nearestEven_segment (patternValue_strictMono k e) (spacing_pos e biased) hd
    (fun i hi => patternValue_segment biased hi) ⟨heven.mul_left _, hlead⟩ hlo hhi

end Pattern

end Orm.Logic
