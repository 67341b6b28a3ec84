import Orm.Logic.Frames

/-! Texts of decimal digits and the numbers that they write. -/
namespace Orm.Logic

variable {l m : List Char} {c : Char} {n k : Nat}

/-- The number that a text of digits writes. -/
def number (l : List Char) : Nat := Nat.ofDigitChars 10 l 0

def Digits (l : List Char) : Prop := ∀ c ∈ l, c.isDigit = true

instance : DecidablePred Digits := fun l => inferInstanceAs (Decidable (∀ c ∈ l, _))

/-- The value of a digit. -/
def digit (c : Char) : Nat := c.toNat - '0'.toNat

theorem isDigit_bounds (h : c.isDigit = true) : 48 ≤ c.toNat ∧ c.toNat ≤ 57 := by
  simp only [Char.isDigit, Bool.and_eq_true, decide_eq_true_eq, ge_iff_le, UInt32.le_iff_toNat_le] at h
  exact h

theorem digit_lt (h : c.isDigit = true) : digit c < 10 := by
  have hbounds := isDigit_bounds h
  change c.toNat - 48 < 10
  omega

theorem digit_inj {d : Char} (hc : c.isDigit = true) (hd : d.isDigit = true)
    (h : digit c = digit d) : c = d := by
  have hbc := isDigit_bounds hc
  have hbd := isDigit_bounds hd
  change c.toNat - 48 = d.toNat - 48 at h
  exact Char.toNat_inj.mp (by omega)

theorem digit_eq_zero (hc : c.isDigit = true) : digit c = 0 ↔ c = '0' := by
  refine ⟨fun h => digit_inj hc rfl h, ?_⟩
  rintro rfl
  rfl

theorem number_nil : number [] = 0 := rfl

theorem number_singleton : number [c] = digit c := by
  simp [number, Nat.ofDigitChars, digit]

theorem number_append : number (l ++ m) = number l * 10 ^ m.length + number m := by
  have hstart : ∀ (m : List Char) (k : Nat),
      Nat.ofDigitChars 10 m k = k * 10 ^ m.length + number m := by
    intro m
    induction m with
    | nil => intro k; simp [Nat.ofDigitChars, number]
    | cons c m ih =>
      intro k
      unfold number
      rw [Nat.ofDigitChars_cons, Nat.ofDigitChars_cons, ih, ih, List.length_cons, pow_succ]
      ring
  unfold number
  rw [Nat.ofDigitChars_append, hstart]
  rfl

theorem number_cons : number (c :: m) = digit c * 10 ^ m.length + number m := by
  have happend := number_append (l := [c]) (m := m)
  rwa [number_singleton] at happend

theorem Digits.append (hl : Digits l) (hm : Digits m) : Digits (l ++ m) := fun c hc =>
  (List.mem_append.mp hc).elim (hl c) (hm c)

theorem Digits.tail (h : Digits (c :: l)) : Digits l := fun d hd => h d (List.mem_cons_of_mem _ hd)

theorem Digits.sublist (h : Digits l) (hsub : m.Sublist l) : Digits m := fun c hc =>
  h c (hsub.subset hc)

theorem Digits.not_mem (h : Digits l) (hc : c.isDigit = false) : c ∉ l := fun hm => by
  have hdigit := h c hm
  rw [hc] at hdigit
  cases hdigit

theorem digits_zeros (k : Nat) : Digits (List.replicate k '0') := fun c hc => by
  rw [List.eq_of_mem_replicate hc]
  rfl

theorem number_lt (h : Digits l) : number l < 10 ^ l.length := by
  induction l with
  | nil => decide
  | cons c l ih =>
    have hc := digit_lt (h c List.mem_cons_self)
    have hl := ih h.tail
    rw [number_cons, List.length_cons, pow_succ]
    nlinarith

/-- Digits of one length are told apart by their number. -/
theorem number_inj (hl : Digits l) (hm : Digits m) (hlength : l.length = m.length)
    (h : number l = number m) : l = m := by
  induction l generalizing m with
  | nil => exact (List.length_eq_zero_iff.mp hlength.symm).symm
  | cons c l ih =>
    cases m with
    | nil => cases hlength
    | cons d m =>
      have hlen : l.length = m.length := Nat.succ.inj hlength
      have hlt := number_lt hl.tail
      have hlt' := number_lt hm.tail
      rw [number_cons, number_cons, ← hlen] at h
      rw [← hlen] at hlt'
      have hhead : digit c = digit d := by
        have hc := congrArg (· / 10 ^ l.length) h
        simp only [Nat.mul_add_div (Nat.pos_of_ne_zero (pow_ne_zero l.length (by decide : (10 : Nat) ≠ 0))),
          mul_comm (digit c), mul_comm (digit d), Nat.div_eq_of_lt hlt, Nat.div_eq_of_lt hlt',
          Nat.add_zero] at hc
        exact hc
      rw [hhead] at h
      rw [digit_inj (hl c List.mem_cons_self) (hm d List.mem_cons_self) hhead,
        ih hl.tail hm.tail hlen (Nat.add_left_cancel h)]

theorem number_zeros (k : Nat) : number (List.replicate k '0') = 0 := by
  induction k with
  | zero => rfl
  | succ k ih =>
    rw [List.replicate_succ, number_cons, ih]
    simp [digit]

theorem number_zeros_append (k : Nat) : number (List.replicate k '0' ++ l) = number l := by
  rw [number_append, number_zeros, Nat.zero_mul, Nat.zero_add]

theorem number_append_zeros (k : Nat) : number (l ++ List.replicate k '0') = number l * 10 ^ k := by
  rw [number_append, number_zeros, List.length_replicate, Nat.add_zero]

theorem number_eq_zero (h : Digits l) : number l = 0 ↔ l.all (· = '0') = true := by
  induction l with
  | nil => simp [number_nil]
  | cons c l ih =>
    have hc := digit_eq_zero (h c List.mem_cons_self)
    rw [number_cons, Nat.add_eq_zero_iff, ih h.tail, Nat.mul_eq_zero, hc]
    simp

section Canonical

/-- Digits without leading zeros. -/
structure Canonical (l : List Char) : Prop where
  nonempty : l ≠ []
  digits : Digits l
  leads : l.head? = some '0' → l = ['0']

theorem Canonical.le_number (h : Canonical l) (hne : l ≠ ['0']) : 10 ^ (l.length - 1) ≤ number l := by
  obtain ⟨c, m, rfl⟩ := List.exists_cons_of_ne_nil h.nonempty
  have hc : digit c ≠ 0 := fun hz =>
    hne (h.leads (by rw [(digit_eq_zero (h.digits c List.mem_cons_self)).mp hz]; rfl))
  rw [number_cons, List.length_cons, Nat.add_sub_cancel]
  nlinarith [Nat.pos_of_ne_zero hc, Nat.zero_le (number m), Nat.pos_of_ne_zero
    (pow_ne_zero m.length (by decide : (10 : Nat) ≠ 0))]

theorem Canonical.number_eq_zero (h : Canonical l) : number l = 0 ↔ l = ['0'] := by
  constructor
  · intro hz
    by_contra hne
    have hle := h.le_number hne
    have hpos : 0 < 10 ^ (l.length - 1) := pow_pos (by decide) _
    omega
  · rintro rfl
    rfl

/-- The number has at most `k` digits exactly when it is below `10 ^ k`. -/
theorem Canonical.length_le (h : Canonical l) :
    (if l = ['0'] then 0 else l.length) ≤ k ↔ number l < 10 ^ k := by
  by_cases hzero : l = ['0']
  · rw [if_pos hzero, h.number_eq_zero.mpr hzero]
    simp
  · rw [if_neg hzero]
    have hle := h.le_number hzero
    have hlt := number_lt h.digits
    have hpos := List.length_pos_iff_ne_nil.mpr h.nonempty
    constructor
    · exact fun hk => lt_of_lt_of_le hlt (Nat.pow_le_pow_right (by decide) hk)
    · intro hnum
      have hpow := (Nat.pow_lt_pow_iff_right (by decide : 1 < 10)).mp (lt_of_le_of_lt hle hnum)
      omega

theorem Canonical.inj (hl : Canonical l) (hm : Canonical m) (h : number l = number m) : l = m := by
  have hlengths : ∀ {l m : List Char}, Canonical l → Canonical m → l ≠ ['0'] → m ≠ ['0'] →
      number l = number m → l.length ≤ m.length := by
    intro l m hl hm hl0 hm0 h
    have hlt := number_lt hm.digits
    have hle := (hl.length_le (k := m.length)).mpr (h ▸ hlt)
    rwa [if_neg hl0] at hle
  by_cases hl0 : l = ['0']
  · rw [hl0, hm.number_eq_zero.mp (h ▸ hl.number_eq_zero.mpr hl0)]
  · have hm0 : m ≠ ['0'] := fun hm0 => hl0 (hl.number_eq_zero.mp (h.trans (hm.number_eq_zero.mpr hm0)))
    exact number_inj hl.digits hm.digits
      (le_antisymm (hlengths hl hm hl0 hm0 h) (hlengths hm hl hm0 hl0 h.symm)) h

/-- The digits without their leading zeros. -/
def stripZeros (l : List Char) : List Char :=
  let rest := l.dropWhile (· = '0')
  if rest = [] then ['0'] else rest

theorem dropZeros_append (l : List Char) :
    ∃ k, l = List.replicate k '0' ++ l.dropWhile (· = '0') := by
  induction l with
  | nil => exact ⟨0, rfl⟩
  | cons c l ih =>
    obtain ⟨k, hk⟩ := ih
    by_cases hc : c = '0'
    · refine ⟨k + 1, ?_⟩
      rw [List.dropWhile_cons_of_pos (by simpa using hc), List.replicate_succ, List.cons_append, ← hk, hc]
    · exact ⟨0, by rw [List.dropWhile_cons_of_neg (by simpa using hc)]; rfl⟩

theorem number_stripZeros (l : List Char) : number (stripZeros l) = number l := by
  obtain ⟨k, hk⟩ := dropZeros_append l
  have hnumber : number (l.dropWhile (· = '0')) = number l := by
    conv_rhs => rw [hk, number_zeros_append]
  unfold stripZeros
  dsimp only
  split
  · next hnil =>
    rw [← hnumber, hnil]
    rfl
  · exact hnumber

theorem canonical_stripZeros (h : Digits l) : Canonical (stripZeros l) := by
  unfold stripZeros
  dsimp only
  split
  · exact ⟨by simp, digits_zeros 1, fun _ => rfl⟩
  · next hne =>
    refine ⟨hne, h.sublist (List.dropWhile_sublist _), fun hhead => ?_⟩
    have hnot := List.head?_dropWhile_not (fun c => decide (c = '0')) l
    rw [hhead] at hnot
    simp at hnot

end Canonical

section Written

theorem number_digits (n : Nat) : number (digits n) = n := Nat.ofDigitChars_ten_toDigits

theorem digits_digits (n : Nat) : Digits (digits n) := fun _ => isDigit_of_mem_digits

theorem canonical_digits (n : Nat) : Canonical (digits n) where
  nonempty := digits_ne_nil n
  digits := digits_digits n
  leads := by
    -- the last digit is written after the digits of the rest
    induction n using Nat.strongRecOn with
    | ind n ih =>
      intro hhead
      by_cases hsmall : n < 10
      · unfold digits at hhead ⊢
        rw [Nat.toDigits_of_lt_base hsmall] at hhead ⊢
        obtain hchar := Option.some.inj hhead
        rw [hchar]
      · have hsplit : digits n = digits (n / 10) ++ [(n % 10).digitChar] :=
          Nat.toDigits_of_base_le (by decide) (by omega)
        have hfront : (digits (n / 10)).head? = some '0' := by
          rw [hsplit] at hhead
          obtain ⟨c, m, hcons⟩ := List.exists_cons_of_ne_nil (digits_ne_nil (n / 10))
          rw [hcons] at hhead ⊢
          exact hhead
        have hzero := ih (n / 10) (by omega) hfront
        have hnumber := number_digits (n / 10)
        rw [hzero] at hnumber
        have : n / 10 = 0 := hnumber.symm
        omega

theorem digits_number (h : Canonical l) : digits (number l) = l :=
  (canonical_digits _).inj h (number_digits _)

end Written

end Orm.Logic
