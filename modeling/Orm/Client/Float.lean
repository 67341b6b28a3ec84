import Mathlib.Data.Nat.Digits.Lemmas
import Orm.Logic.Nearest
import Orm.Client.Decimal

/-! Single-precision floats of the catalog: the IEEE-754 bits of a decimal text. -/
namespace Orm.Client

open Orm.Logic
open Orm.Engine (Failure)

section Model

/-- The number of bits of a non-negative integer. -/
def bitLength (value : Nat) : Nat := if value = 0 then 0 else (Nat.digits 2 value).length

/-- Whether num/den is at least 2^e. -/
def atLeastPowerOfTwo (num den : Nat) (e : Int) : Bool :=
  if 0 ≤ e then den <<< e.toNat ≤ num else den ≤ num <<< (-e).toNat

/-- The quotient num * 2^s / den rounded to the nearest integer, ties to even. -/
def roundScaled (num den : Nat) (s : Int) : Nat :=
  roundEven (if 0 ≤ s then num <<< s.toNat else num) (if 0 ≤ s then den else den <<< (-s).toNat)

/-- The loop that lowers the exponent; `none` when it needs more than `fuel` checks. -/
def lowerExponent (num den : Nat) : Nat → Int → Option Int
  | 0, _ => none
  | fuel + 1, e2 =>
    if atLeastPowerOfTwo num den e2 then some e2 else lowerExponent num den fuel (e2 - 1)

/-- The loop that raises the exponent; `none` when it needs more than `fuel` checks. -/
def raiseExponent (num den : Nat) : Nat → Int → Option Int
  | 0, _ => none
  | fuel + 1, e2 =>
    if atLeastPowerOfTwo num den (e2 + 1) then raiseExponent num den fuel (e2 + 1) else some e2

/-- The bits of a normal value whose significand is rounded to `q`. -/
def normalBits (sign q : Nat) (e2 : Int) : Nat :=
  -- a significand rounded up to the next binade carries into the exponent
  let carried := if q = 1 <<< 24 then (1 <<< 23, e2 + 1) else (q, e2)
  if 127 < carried.2 then sign ||| 0x7f800000
  else sign ||| (carried.2 + 127).toNat <<< 23 ||| (carried.1 - 1 <<< 23)

/-- The bits of a subnormal value of `q` units of 2^-149. -/
def subnormalBits (sign q : Nat) : Nat :=
  if q = 1 <<< 23 then sign ||| 1 <<< 23 else sign ||| q

/-- The bits of the positive quotient num/den under a sign bit. -/
def quotientBits (fuel sign num den : Nat) : Option Nat := do
  let e2 ← lowerExponent num den fuel (bitLength num - bitLength den)
  let e2 ← raiseExponent num den fuel e2
  return if -126 ≤ e2 then normalBits sign (roundScaled num den (23 - e2)) e2
    else subnormalBits sign (roundScaled num den 149)

def exponentMark (c : Char) : Bool := c = 'e' || c = 'E'

/-- Whether a text is an optional sign and digits. -/
def integerText (l : List Char) : Bool := unsignedText l ≠ [] ∧ Digits (unsignedText l)

/-- The integer as a BigInt, which has at most 2^30 bits. -/
def sized (value : Nat) : Except Failure Nat :=
  if value.size ≤ 2 ^ 30 then .ok value
  else .error (.plain "RangeError: Maximum BigInt size exceeded")

/-- The binary text that `bitLength` writes, which has at most 2^29 - 24 characters. -/
def writable (value : Nat) : Except Failure PUnit :=
  if bitLength value ≤ 2 ^ 29 - 24 then .ok ⟨⟩
  else .error (.plain "RangeError: Invalid string length")

/-- The mantissa, multiplied by the power of ten of an exponent that is not negative. -/
def scaled (exponent10 : Int) (mantissa power : Nat) : Except Failure Nat :=
  if 0 ≤ exponent10 then sized (mantissa * power) else .ok mantissa

/-- The quotient of a mantissa and a decimal exponent. The integers that the later shifts form are
less than 150 bits longer than these two, so only here a BigInt can be too large. -/
def quotient (mantissa : Nat) (exponent10 : Int) : Except Failure (Nat × Nat) := do
  let power ← sized (10 ^ exponent10.natAbs)
  let num ← scaled exponent10 mantissa power
  let den := if 0 ≤ exponent10 then 1 else power
  writable num
  writable den
  pure (num, den)

/-- The bits of the digits of a text with a decimal exponent, `none` when it is not finite. -/
def decimalBits (fuel sign digits : Nat) (exponent10 : Option Int) : Option (Except Failure Nat) :=
  match sized digits with
  | .error failure => some (.error failure)
  | .ok mantissa =>
    if mantissa = 0 then some (.ok sign)
    else match exponent10 with
      | none => some (.error (.plain "RangeError: the number cannot be converted to a BigInt"))
      | some exponent => match quotient mantissa exponent with
        | .error failure => some (.error failure)
        | .ok (num, den) => (quotientBits fuel sign num den).map .ok

/-- The IEEE-754 single bits of a decimal text. `toNumber` is the number of the exponent's text, `none`
when it is not finite. -/
def float32BitsOfText (toNumber : List Char → Option Int) (fuel : Nat) (text : List Char) :
    Option (Except Failure Nat) :=
  if text = "NaN".toList then some (.ok 0x7fc00000)
  else if text = "Infinity".toList then some (.ok 0x7f800000)
  else if text = "-Infinity".toList then some (.ok 0xff800000)
  else
    let digitsText := text.takeWhile (!exponentMark ·)
    let rest := text.dropWhile (!exponentMark ·)
    if !(decimalText digitsText && (rest.isEmpty || integerText rest.tail)) then
      some (.error (.orm .catalogValue
        ("float text \"" ++ String.ofList text ++ "\" is not a decimal number")))
    else
      let sign := if text.head? = some '-' then 1 <<< 31 else 0
      let parts := (unsignedText digitsText).splitOn '.'
      let fraction := parts.getD 1 []
      decimalBits fuel sign (number (parts.getD 0 [] ++ fraction))
        ((toNumber (if rest.isEmpty then ['0'] else rest.tail)).map (· - fraction.length))

end Model

section Singles
variable {x : ℚ} {r num den sign : Nat}

/-- The magnitude of a bit pattern of a single without its sign. -/
def singleValue (r : Nat) : ℚ := patternValue 23 (-149) r

/-- The pattern of a magnitude rounded once: the nearest finite single, of two nearest ones the even one,
and infinity from 2^128 - 2^103 on. -/
structure Single (x : ℚ) (r : Nat) : Prop where
  finite : x < 2 ^ 128 - 2 ^ 103 → r < 0x7f800000 ∧ ∀ k < 0x7f800000,
    |x - singleValue r| ≤ |x - singleValue k| ∧
      (k ≠ r → |x - singleValue k| = |x - singleValue r| → Even r)
  infinite : 2 ^ 128 - 2 ^ 103 ≤ x → r = 0x7f800000

theorem singleValue_top : (singleValue 0x7f7fffff + singleValue 0x7f800000) / 2 =
    2 ^ 128 - 2 ^ 103 := by
  have hlast : singleValue 0x7f7fffff = (2 ^ 24 - 1) * 2 ^ 104 := by
    norm_num [singleValue, patternValue, leading, spacing]
  have hnext : singleValue 0x7f800000 = 2 ^ 128 := by
    norm_num [singleValue, patternValue, leading, spacing]
  rw [hlast, hnext]
  norm_num

/-- The nearest pattern, cut at infinity, is the single. -/
theorem single_of_nearest (h : NearestEven (patternValue 23 (-149)) x r) :
    Single x (min r 0x7f800000) := by
  have hiff := h.le_odd_iff (patternValue_strictMono 23 (-149)) (by decide : Odd 0x7f7fffff)
  have htop := singleValue_top
  unfold singleValue at htop
  rw [htop] at hiff
  constructor
  · intro hx
    have hr : r ≤ 0x7f7fffff := hiff.mpr hx
    rw [Nat.min_eq_left (by omega)]
    exact ⟨by omega, fun k _ => h k⟩
  · intro hx
    have hr : ¬ r ≤ 0x7f7fffff := fun hle => absurd (hiff.mp hle) (not_lt.mpr hx)
    exact Nat.min_eq_right (by omega)

theorem single_zero : Single 0 0 := by
  have hzero : patternValue 23 (-149) 0 = 0 := by norm_num [patternValue, leading]
  have hnear : NearestEven (patternValue 23 (-149)) 0 0 := by
    intro k
    rw [hzero]
    exact ⟨by simp, fun _ _ => Even.zero⟩
  exact single_of_nearest hnear

theorem atLeastPowerOfTwo_iff (hden : 0 < den) (e : Int) :
    atLeastPowerOfTwo num den e = true ↔ (2 : ℚ) ^ e ≤ num / den := by
  have hden' : (0 : ℚ) < den := Nat.cast_pos.mpr hden
  unfold atLeastPowerOfTwo
  rw [le_div_iff₀ hden']
  by_cases he : 0 ≤ e
  · obtain ⟨k, rfl⟩ := Int.eq_ofNat_of_zero_le he
    rw [if_pos he, decide_eq_true_eq, Int.toNat_natCast, Nat.shiftLeft_eq, zpow_natCast, mul_comm den]
    exact_mod_cast Iff.rfl
  · obtain ⟨k, hk⟩ := Int.eq_ofNat_of_zero_le (by omega : 0 ≤ -e)
    obtain rfl : e = -(k : Int) := by omega
    rw [if_neg he, decide_eq_true_eq, neg_neg, Int.toNat_natCast, Nat.shiftLeft_eq, zpow_neg,
      zpow_natCast, inv_mul_le_iff₀ (by positivity), mul_comm]
    exact_mod_cast Iff.rfl

theorem bitLength_bounds (hpos : 0 < num) :
    (2 : ℚ) ^ ((bitLength num : Int) - 1) ≤ num ∧ (num : ℚ) < 2 ^ (bitLength num : Int) := by
  have hlow := Nat.pow_le_of_le_log hpos.ne' (le_refl (Nat.log 2 num))
  have hhigh := Nat.lt_pow_succ_log_self (by decide : 1 < 2) num
  have hlength : bitLength num = Nat.log 2 num + 1 := by
    unfold bitLength
    rw [if_neg hpos.ne', Nat.length_digits 2 num (by decide) hpos.ne']
  rw [hlength]
  constructor
  · rw [Nat.cast_succ, add_sub_cancel_right, zpow_natCast]
    exact_mod_cast hlow
  · rw [zpow_natCast]
    exact_mod_cast hhigh

/-- The exponent that the loops start from is the right one or one above. -/
theorem start_bounds (hnum : 0 < num) (hden : 0 < den) :
    (2 : ℚ) ^ ((bitLength num : Int) - bitLength den - 1) ≤ num / den ∧
      (num : ℚ) / den < 2 ^ ((bitLength num : Int) - bitLength den + 1) := by
  have hden' : (0 : ℚ) < den := Nat.cast_pos.mpr hden
  have hnum' : (0 : ℚ) < num := Nat.cast_pos.mpr hnum
  obtain ⟨hlow, hhigh⟩ := bitLength_bounds hnum
  obtain ⟨hlow', hhigh'⟩ := bitLength_bounds hden
  have htwo : (2 : ℚ) ≠ 0 := by norm_num
  constructor
  · rw [le_div_iff₀ hden']
    calc (2 : ℚ) ^ ((bitLength num : Int) - bitLength den - 1) * den
        ≤ 2 ^ ((bitLength num : Int) - bitLength den - 1) * 2 ^ (bitLength den : Int) :=
          mul_le_mul_of_nonneg_left hhigh'.le (zpow_pos (by norm_num) _).le
      _ = 2 ^ ((bitLength num : Int) - 1) := by
          rw [← zpow_add₀ htwo]
          congr 1
          omega
      _ ≤ num := hlow
  · rw [div_lt_iff₀ hden']
    calc (num : ℚ) < 2 ^ (bitLength num : Int) := hhigh
      _ = 2 ^ ((bitLength num : Int) - bitLength den + 1) * 2 ^ ((bitLength den : Int) - 1) := by
          rw [← zpow_add₀ htwo]
          congr 1
          omega
      _ ≤ 2 ^ ((bitLength num : Int) - bitLength den + 1) * den :=
          mul_le_mul_of_nonneg_left hlow' (zpow_pos (by norm_num) _).le

/-- The loops end after at most two checks, with the binade of the quotient. -/
theorem exponent_found (hnum : 0 < num) (hden : 0 < den) {fuel : Nat} (hfuel : 2 ≤ fuel) :
    ∃ e2, lowerExponent num den fuel (bitLength num - bitLength den) = some e2 ∧
      raiseExponent num den fuel e2 = some e2 ∧ (2 : ℚ) ^ e2 ≤ num / den ∧
      (num : ℚ) / den < 2 ^ (e2 + 1) := by
  obtain ⟨n, rfl⟩ := Nat.exists_eq_add_of_le hfuel
  obtain ⟨hlow, hhigh⟩ := start_bounds hnum hden
  generalize (bitLength num : Int) - bitLength den = e at hlow hhigh
  have hraise : ∀ e2, (num : ℚ) / den < 2 ^ (e2 + 1) →
      raiseExponent num den (2 + n) e2 = some e2 := by
    intro e2 hlt
    have hnot : ¬ atLeastPowerOfTwo num den (e2 + 1) = true := by
      rw [atLeastPowerOfTwo_iff hden]
      exact not_le.mpr hlt
    rw [Nat.add_comm]
    exact if_neg hnot
  by_cases hat : atLeastPowerOfTwo num den e = true
  · refine ⟨e, ?_, hraise e hhigh, (atLeastPowerOfTwo_iff hden e).mp hat, hhigh⟩
    rw [Nat.add_comm]
    exact if_pos hat
  · have hlt : (num : ℚ) / den < 2 ^ (e - 1 + 1) := by
      rw [sub_add_cancel]
      exact not_le.mp (mt (atLeastPowerOfTwo_iff hden e).mpr hat)
    refine ⟨e - 1, ?_, hraise (e - 1) hlt, hlow, hlt⟩
    have hnext := (atLeastPowerOfTwo_iff hden (e - 1)).mpr hlow
    rw [Nat.add_comm]
    exact (if_neg hat).trans (if_pos hnext)

theorem roundScaled_eq (num : Nat) (hden : 0 < den) (s : Int) :
    ∃ n d, 0 < d ∧ roundScaled num den s = roundEven n d ∧ (n : ℚ) / d = num / den * 2 ^ s := by
  have hden' : (den : ℚ) ≠ 0 := Nat.cast_ne_zero.mpr hden.ne'
  unfold roundScaled
  by_cases hs : 0 ≤ s
  · obtain ⟨k, rfl⟩ := Int.eq_ofNat_of_zero_le hs
    refine ⟨_, _, ?_, rfl, ?_⟩
    · rwa [if_pos hs]
    · rw [if_pos hs, if_pos hs, Int.toNat_natCast, Nat.shiftLeft_eq, zpow_natCast]
      push_cast
      ring
  · obtain ⟨k, hk⟩ := Int.eq_ofNat_of_zero_le (by omega : 0 ≤ -s)
    obtain rfl : s = -(k : Int) := by omega
    refine ⟨_, _, ?_, rfl, ?_⟩
    · rw [if_neg hs, neg_neg, Int.toNat_natCast, Nat.shiftLeft_eq]
      positivity
    · rw [if_neg hs, if_neg hs, neg_neg, Int.toNat_natCast, Nat.shiftLeft_eq, zpow_neg, zpow_natCast]
      push_cast
      field_simp

/-- A sign bit: clear or set. -/
def SignBit (sign : Nat) : Prop := sign = 0 ∨ sign = 2 ^ 31

theorem SignBit.or_eq (h : SignBit sign) (hr : r < 2 ^ 31) : sign ||| r = sign + r := by
  rcases h with rfl | rfl
  · rw [Nat.zero_or, Nat.zero_add]
  · have hadd := Nat.two_pow_add_eq_or_of_lt hr 1
    rw [Nat.mul_one] at hadd
    exact hadd.symm

/-- The bits of a normal value: the exponent and fraction fields, cut at infinity. -/
theorem normalBits_eq (h : SignBit sign) {q : Nat} {e2 : Int} (he : -126 ≤ e2)
    (hq : 2 ^ 23 ≤ q ∧ q ≤ 2 ^ 23 + 2 ^ 23) : normalBits sign q e2 =
      sign + min ((e2 + 127).toNat * 2 ^ 23 + (q - 2 ^ 23)) 0x7f800000 := by
  obtain ⟨b, hb⟩ := Int.eq_ofNat_of_zero_le (by omega : 0 ≤ e2 + 127)
  have hfields : ∀ c p : Nat, p < 2 ^ 23 → c < 255 →
      sign ||| c <<< 23 ||| p = sign + (c * 2 ^ 23 + p) := by
    intro c p hp hc
    rw [Nat.or_assoc, ← Nat.shiftLeft_add_eq_or_of_lt hp, Nat.shiftLeft_eq, h.or_eq (by omega)]
  have hshift : (1 : Nat) <<< 23 = 2 ^ 23 := rfl
  unfold normalBits
  by_cases hcarry : q = 1 <<< 24
  · have hq' : q - 2 ^ 23 = 2 ^ 23 := by
      rw [hcarry]
      rfl
    simp only [if_pos hcarry, hq', hshift, Nat.sub_self]
    have hnext : e2 + 1 + 127 = ((b + 1 : Nat) : Int) := by omega
    rw [hb, hnext, Int.toNat_natCast, Int.toNat_natCast]
    by_cases htop : 127 < e2 + 1
    · rw [if_pos htop, h.or_eq (by decide), Nat.min_eq_right (by omega)]
    · rw [if_neg htop, hfields _ _ (by decide) (by omega), Nat.min_eq_left (by omega)]
      omega
  · have hlt : q < 2 ^ 23 + 2 ^ 23 := lt_of_le_of_ne hq.2 hcarry
    simp only [if_neg hcarry, hshift]
    rw [hb, Int.toNat_natCast]
    by_cases htop : 127 < e2
    · rw [if_pos htop, h.or_eq (by decide), Nat.min_eq_right (by omega)]
    · rw [if_neg htop, hfields _ _ (by omega) (by omega), Nat.min_eq_left (by omega)]

theorem subnormalBits_eq (h : SignBit sign) {q : Nat} (hq : q ≤ 2 ^ 23) :
    subnormalBits sign q = sign + min q 0x7f800000 := by
  unfold subnormalBits
  rw [Nat.min_eq_left (by omega)]
  by_cases hcarry : q = 1 <<< 23
  · rw [if_pos hcarry, hcarry, h.or_eq (by decide)]
  · rw [if_neg hcarry, h.or_eq (by omega)]

/-- A positive quotient is rounded once to a single. -/
theorem quotientBits_single (h : SignBit sign) (hnum : 0 < num) (hden : 0 < den) {fuel : Nat}
    (hfuel : 2 ≤ fuel) :
    ∃ r, quotientBits fuel sign num den = some (sign + r) ∧ Single (num / den) r := by
  obtain ⟨e2, hlower, hraise, hlow, hhigh⟩ := exponent_found hnum hden hfuel
  have htwo : (2 : ℚ) ≠ 0 := by norm_num
  have hbits : quotientBits fuel sign num den =
      some (if -126 ≤ e2 then normalBits sign (roundScaled num den (23 - e2)) e2
        else subnormalBits sign (roundScaled num den 149)) := by
    unfold quotientBits
    rw [hlower]
    change (raiseExponent num den fuel e2).bind _ = _
    rw [hraise]
    rfl
  rw [hbits]
  by_cases he : -126 ≤ e2
  · obtain ⟨n, d, hd, hround, hquot⟩ := roundScaled_eq num hden (23 - e2)
    have hd' : (0 : ℚ) < d := Nat.cast_pos.mpr hd
    obtain ⟨b, hb⟩ := Int.eq_ofNat_of_zero_le (by omega : 0 ≤ e2 + 126)
    have hlead : leading 23 (b + 1) = 2 ^ 23 := rfl
    have hspacing : spacing (-149) (b + 1) = 2 ^ (e2 - 23) := by
      unfold spacing
      congr 1
      omega
    have hlo : leading 23 (b + 1) * d ≤ n := by
      have hle : (2 : ℚ) ^ 23 ≤ n / d := by
        rw [hquot]
        calc (2 : ℚ) ^ 23 = 2 ^ e2 * 2 ^ (23 - e2) := by
              rw [← zpow_add₀ htwo, add_sub_cancel]
              rfl
          _ ≤ num / den * 2 ^ (23 - e2) :=
              mul_le_mul_of_nonneg_right hlow (zpow_pos (by norm_num) _).le
      rw [le_div_iff₀ hd'] at hle
      rw [hlead]
      exact_mod_cast hle
    have hhi : n < (leading 23 (b + 1) + 2 ^ 23) * d := by
      have hlt : (n : ℚ) / d < 2 ^ 24 := by
        rw [hquot]
        calc (num : ℚ) / den * 2 ^ (23 - e2) < 2 ^ (e2 + 1) * 2 ^ (23 - e2) :=
              mul_lt_mul_of_pos_right hhigh (zpow_pos (by norm_num) _)
          _ = 2 ^ (24 : Int) := by
              rw [← zpow_add₀ htwo]
              congr 1
              omega
      rw [div_lt_iff₀ hd'] at hlt
      rw [hlead]
      exact_mod_cast hlt
    obtain ⟨hnear, hrange⟩ := nearestEven_pattern (e := -149) (by decide : 23 ≠ 0) (b + 1) hd hlo hhi
    have hvalue : (n : ℚ) / d * spacing (-149) (b + 1) = num / den := by
      rw [hquot, hspacing, mul_assoc, ← zpow_add₀ htwo]
      simp
    rw [hvalue] at hnear
    rw [if_pos he, hround, normalBits_eq h he (hlead ▸ hrange)]
    have hbiased : (e2 + 127).toNat = b + 1 := by omega
    rw [hbiased]
    exact ⟨_, rfl, single_of_nearest (hlead ▸ hnear)⟩
  · obtain ⟨n, d, hd, hround, hquot⟩ := roundScaled_eq num hden 149
    have hd' : (0 : ℚ) < d := Nat.cast_pos.mpr hd
    have hspacing : spacing (-149) 0 = 2 ^ (-149 : Int) := rfl
    have hlead : leading 23 0 = 0 := rfl
    have hhi : n < (leading 23 0 + 2 ^ 23) * d := by
      have hlt : (n : ℚ) / d < 2 ^ 23 := by
        rw [hquot]
        calc (num : ℚ) / den * 2 ^ (149 : Int) < 2 ^ (e2 + 1) * 2 ^ (149 : Int) :=
              mul_lt_mul_of_pos_right hhigh (zpow_pos (by norm_num) _)
          _ = 2 ^ (e2 + 1 + 149) := (zpow_add₀ htwo _ _).symm
          _ ≤ 2 ^ (23 : Int) := zpow_le_zpow_right₀ (by norm_num) (by omega)
      rw [div_lt_iff₀ hd'] at hlt
      rw [hlead, Nat.zero_add]
      exact_mod_cast hlt
    obtain ⟨hnear, hrange⟩ := nearestEven_pattern (e := -149) (by decide : 23 ≠ 0) 0 hd
      (by rw [hlead, Nat.zero_mul]; exact Nat.zero_le n) hhi
    have hvalue : (n : ℚ) / d * spacing (-149) 0 = num / den := by
      rw [hquot, hspacing, mul_assoc, ← zpow_add₀ htwo]
      simp
    rw [hvalue, hlead, Nat.zero_mul, Nat.zero_add, Nat.sub_zero] at hnear
    rw [hlead, Nat.zero_add] at hrange
    rw [if_neg he, hround, subnormalBits_eq h hrange.2]
    exact ⟨_, rfl, single_of_nearest hnear⟩

end Singles

section Sizes

theorem ten_pow_le_two_pow {a j k : Nat} (ha : a ≤ 3 * j) (hk : 10 * j ≤ k) : 10 ^ a ≤ 2 ^ k := by
  have hthree : 10 ^ 3 ≤ 2 ^ 10 := by decide
  calc 10 ^ a ≤ 10 ^ (3 * j) := Nat.pow_le_pow_right (by decide) ha
    _ = (10 ^ 3) ^ j := pow_mul 10 3 j
    _ ≤ (2 ^ 10) ^ j := Nat.pow_le_pow_left hthree j
    _ = 2 ^ (10 * j) := (pow_mul 2 10 j).symm
    _ ≤ 2 ^ k := Nat.pow_le_pow_right (by decide) hk

theorem ten_pow_le {a : Nat} (h : a ≤ 160000000) : 10 ^ a ≤ 2 ^ (2 ^ 29 - 24) :=
  ten_pow_le_two_pow (by omega : a ≤ 3 * 53333334) (by decide)

theorem sized_of_lt {n a : Nat} (hlt : n < 10 ^ a) (ha : a ≤ 160000000) : sized n = .ok n := by
  have hle : 2 ^ (2 ^ 29 - 24) ≤ 2 ^ 2 ^ 30 := Nat.pow_le_pow_right (by decide) (by decide)
  refine if_pos (Nat.size_le.mpr ?_)
  exact lt_of_lt_of_le hlt ((ten_pow_le ha).trans hle)

theorem writable_of_lt {n a : Nat} (hlt : n < 10 ^ a) (ha : a ≤ 160000000) :
    writable n = .ok ⟨⟩ := by
  refine if_pos ?_
  unfold bitLength
  split
  · exact Nat.zero_le _
  · rw [Nat.digits_length_le_iff (by decide)]
    exact lt_of_lt_of_le hlt (ten_pow_le ha)

/-- The quotient of a mantissa and an exponent that are not too large. -/
theorem quotient_of_lt {n a : Nat} {e : Int} (hpos : 0 < n) (hlt : n < 10 ^ a)
    (hsize : a + e.natAbs ≤ 160000000) :
    ∃ num den, quotient n e = .ok (num, den) ∧ 0 < num ∧ 0 < den ∧
      (num : ℚ) / den = n * 10 ^ e := by
  have hpower : 10 ^ e.natAbs < 10 ^ (e.natAbs + 1) := Nat.pow_lt_pow_right (by decide) (by omega)
  have hten : 0 < 10 ^ e.natAbs := Nat.pow_pos (by decide)
  have ha : 0 < a := by
    rcases Nat.eq_zero_or_pos a with rfl | ha
    · rw [Nat.pow_zero] at hlt
      omega
    · exact ha
  by_cases he : 0 ≤ e
  · have hprod : n * 10 ^ e.natAbs < 10 ^ (a + e.natAbs) := by
      rw [Nat.pow_add]
      exact Nat.mul_lt_mul_of_pos_right hlt hten
    have hone : 1 < 10 ^ a := Nat.one_lt_pow (by omega) (by decide)
    refine ⟨n * 10 ^ e.natAbs, 1, ?_, Nat.mul_pos hpos hten, Nat.one_pos, ?_⟩
    · have hnum : scaled e n (10 ^ e.natAbs) = .ok (n * 10 ^ e.natAbs) := by
        rw [scaled, if_pos he, sized_of_lt hprod hsize]
      refine ok_bind.mpr ⟨_, sized_of_lt hpower (by omega), ok_bind.mpr ⟨_, hnum, ?_⟩⟩
      refine ok_bind.mpr ⟨_, writable_of_lt hprod hsize, ?_⟩
      rw [if_pos he]
      exact ok_bind.mpr ⟨_, writable_of_lt hone (by omega), rfl⟩
    · obtain ⟨k, rfl⟩ := Int.eq_ofNat_of_zero_le he
      simp
  · refine ⟨n, 10 ^ e.natAbs, ?_, hpos, hten, ?_⟩
    · have hnum : scaled e n (10 ^ e.natAbs) = .ok n := if_neg he
      refine ok_bind.mpr ⟨_, sized_of_lt hpower (by omega), ok_bind.mpr ⟨_, hnum, ?_⟩⟩
      refine ok_bind.mpr ⟨_, writable_of_lt hlt (by omega), ?_⟩
      rw [if_neg he]
      exact ok_bind.mpr ⟨_, writable_of_lt hpower (by omega), rfl⟩
    · obtain ⟨k, hk⟩ := Int.eq_ofNat_of_zero_le (by omega : 0 ≤ -e)
      obtain rfl : e = -(k : Int) := by omega
      simp [div_eq_mul_inv]

theorem two_pow_le_ten_pow {a k : Nat} (h : k ≤ 3 * a) : 2 ^ k ≤ 10 ^ a := by
  calc 2 ^ k ≤ 2 ^ (3 * a) := Nat.pow_le_pow_right (by decide) h
    _ = (2 ^ 3) ^ a := pow_mul 2 3 a
    _ ≤ 10 ^ a := Nat.pow_le_pow_left (by decide) a

theorem sized_of_le {n : Nat} (h : 2 ^ 2 ^ 30 ≤ n) :
    sized n = .error (.plain "RangeError: Maximum BigInt size exceeded") :=
  if_neg (Nat.not_le.mpr (Nat.lt_size.mpr h))

end Sizes

section Texts
variable {toNumber : List Char → Option Int} {m x w f : List Char} {b : Bool} {e : Int}

/-- The exponent that a text writes after its digits, of at most 15 digits. -/
inductive ExponentPart : List Char → Int → Prop
  | none : ExponentPart [] 0
  | written {c : Char} {sign d : List Char} {b : Bool} (mark : exponentMark c = true)
    (signed : Sign sign b) (nonempty : d ≠ []) (digits : Digits d) (short : d.length ≤ 15) :
    ExponentPart (c :: (sign ++ d)) (if b then -(number d : Int) else number d)

/-- `Number` reads an integer of at most 15 digits exactly. -/
def ReadsIntegers (toNumber : List Char → Option Int) : Prop :=
  ∀ (sign d : List Char) (b : Bool), Sign sign b → d ≠ [] → Digits d → d.length ≤ 15 →
    toNumber (sign ++ d) = some (if b then -(number d : Int) else number d)

theorem ExponentPart.integer (h : ExponentPart x e) :
    (x.isEmpty || integerText x.tail) = true := by
  cases h with
  | none => rfl
  | @written c sign d b hmark hsigned hne hdigits hshort =>
    have hhead : ∀ k : Char, k.isDigit = false → d.head? ≠ some k := by
      intro k hk heq
      rw [hdigits k (List.mem_of_mem_head? heq)] at hk
      cases hk
    change decide _ = true
    rw [decide_eq_true_eq]
    change unsignedText (sign ++ d) ≠ [] ∧ Digits (unsignedText (sign ++ d))
    rw [unsigned_append hsigned (hhead _ rfl) (hhead _ rfl)]
    exact ⟨hne, hdigits⟩

theorem ExponentPart.read (h : ExponentPart x e) (hread : ReadsIntegers toNumber) :
    toNumber (if x.isEmpty then ['0'] else x.tail) = some e := by
  cases h with
  | none => exact hread [] ['0'] false .none (by simp) (digits_zeros 1) (by simp)
  | written _ hsigned hne hdigits hshort => exact hread _ _ _ hsigned hne hdigits hshort

/-- The digits of a decimal text hold no exponent mark. -/
theorem DecimalForm.unmarked (h : DecimalForm m b w f) : ∀ c ∈ m, (!exponentMark c) = true := by
  obtain ⟨sign, tail, hsign, ⟨_, hw⟩, htail, rfl⟩ := h
  have hdigit : ∀ {l : List Char}, Digits l → ∀ c ∈ l, (!exponentMark c) = true := by
    intro l hl c hc
    rw [Bool.not_eq_true', Bool.eq_false_iff]
    intro hmark
    have hdigit := hl c hc
    rcases (Bool.or_eq_true _ _).mp hmark with hmark | hmark
    · rw [of_decide_eq_true hmark] at hdigit
      cases hdigit
    · rw [of_decide_eq_true hmark] at hdigit
      cases hdigit
  intro c hc
  rw [List.mem_append, List.mem_append] at hc
  rcases hc with hc | hc | hc
  · cases hsign with
    | none => cases hc
    | plus =>
      rw [List.mem_singleton.mp hc]
      rfl
    | minus =>
      rw [List.mem_singleton.mp hc]
      rfl
  · exact hdigit hw c hc
  · cases htail with
    | none => cases hc
    | point _ hf =>
      rcases List.mem_cons.mp hc with rfl | hc
      · rfl
      · exact hdigit hf c hc

theorem DecimalForm.exists_digit (h : DecimalForm m b w f) : ∃ c ∈ m, c.isDigit = true := by
  obtain ⟨sign, tail, _, ⟨hne, hw⟩, _, rfl⟩ := h
  obtain ⟨c, rest, rfl⟩ := List.exists_cons_of_ne_nil hne
  exact ⟨c, by simp, hw c List.mem_cons_self⟩

/-- The text up to its exponent, and the rest. -/
theorem split_exponent (hm : DecimalForm m b w f) (hx : ExponentPart x e) :
    (m ++ x).takeWhile (!exponentMark ·) = m ∧ (m ++ x).dropWhile (!exponentMark ·) = x := by
  have hunmarked := hm.unmarked
  cases hx with
  | none =>
    rw [List.append_nil]
    exact ⟨List.takeWhile_eq_self_iff.mpr hunmarked, List.dropWhile_eq_nil_iff.mpr hunmarked⟩
  | @written c _ _ _ hmark =>
    have hc : (!exponentMark c) = false := by
      rw [hmark]
      rfl
    rw [List.takeWhile_append_of_pos hunmarked, List.dropWhile_append_of_pos hunmarked,
      List.takeWhile_cons, List.dropWhile_cons]
    simp [hc]

theorem float32BitsOfText_eq (hread : ReadsIntegers toNumber) (hm : DecimalForm m b w f)
    (hx : ExponentPart x e) (fuel : Nat) :
    float32BitsOfText toNumber fuel (m ++ x) =
      decimalBits fuel (if b then 2 ^ 31 else 0) (number (w ++ f)) (some (e - f.length)) := by
  obtain ⟨htake, hdrop⟩ := split_exponent hm hx
  obtain ⟨hunsigned, hminus⟩ := hm.parts
  obtain ⟨d, hd, hdigit⟩ := hm.exists_digit
  have hspecial : ∀ text : List Char, (∀ c ∈ text, c.isDigit = false) → m ++ x ≠ text := by
    rintro text hnone rfl
    rw [hnone d (List.mem_append_left _ hd)] at hdigit
    cases hdigit
  have hhead : ((m ++ x).head? = some '-') ↔ b = true := by
    rw [List.head?_append_of_ne_nil _ (List.ne_nil_of_mem hd)]
    exact hminus
  have hsign : (if (m ++ x).head? = some '-' then 1 <<< 31 else 0 : Nat) =
      if b then 2 ^ 31 else 0 := by
    simp only [hhead]
    rfl
  have hwhole : ((unsignedText m).splitOn '.').getD 0 [] = w := by
    rw [hm.split]
    split <;> rfl
  have hfraction : ((unsignedText m).splitOn '.').getD 1 [] = f := by
    rw [hm.split]
    split
    · next hnil => exact hnil.symm
    · rfl
  unfold float32BitsOfText
  rw [if_neg (hspecial _ (by simp)), if_neg (hspecial _ (by simp)), if_neg (hspecial _ (by simp))]
  simp only [htake, hdrop, hwhole, hfraction, hsign, hm.decimalText, hx.integer, hx.read hread,
    Bool.and_self, Bool.not_true, Bool.false_eq_true, if_false, Option.map_some]

/-- Every matched text with an exponent of at most 15 digits gives the bits of its exact value, rounded
once, when its digits and the absolute value of its decimal exponent are together at most 160,000,000;
two checks of each loop are enough. -/
theorem float32BitsOfText_single (hread : ReadsIntegers toNumber) (hm : DecimalForm m b w f)
    (hx : ExponentPart x e) (hsize : (w ++ f).length + (e - f.length).natAbs ≤ 160000000)
    {fuel : Nat} (hfuel : 2 ≤ fuel) :
    ∃ r, float32BitsOfText toNumber fuel (m ++ x) = some (.ok ((if b then 2 ^ 31 else 0) + r)) ∧
      Single (|decimalValue b w f| * 10 ^ e) r := by
  have hbit : SignBit (if b then 2 ^ 31 else 0) := by
    cases b
    · exact .inl rfl
    · exact .inr rfl
  have hvalue : |decimalValue b w f| * 10 ^ e = number (w ++ f) * 10 ^ (e - f.length) := by
    rw [abs_decimalValue, zpow_sub₀ (by norm_num), zpow_natCast]
    ring
  have hdigits : Digits (w ++ f) := by
    obtain ⟨sign, tail, -, hw, hf, -⟩ := hm
    exact hw.2.append hf.digits
  have hlt : number (w ++ f) < 10 ^ (w ++ f).length := number_lt hdigits
  rw [float32BitsOfText_eq hread hm hx, decimalBits, sized_of_lt hlt (by omega)]
  by_cases hzero : number (w ++ f) = 0
  · refine ⟨0, if_pos hzero, ?_⟩
    rw [hvalue, hzero, Nat.cast_zero, zero_mul]
    exact single_zero
  · have hpos : 0 < number (w ++ f) := Nat.pos_of_ne_zero hzero
    obtain ⟨num, den, hquotient, hnum, hden, hratio⟩ := quotient_of_lt hpos hlt hsize
    obtain ⟨r, hr, hsingle⟩ := quotientBits_single hbit hnum hden hfuel
    refine ⟨r, ?_, ?_⟩
    · simp only [if_neg hzero, hquotient, hr, Option.map_some]
    · rw [hvalue, ← hratio]
      exact hsingle

/-- The integer that a text of a sign and digits writes. -/
def exactNumber (l : List Char) : Option Int :=
  some (if l.head? = some '-' then -(number (unsignedText l) : Int) else number (unsignedText l))

theorem readsIntegers_exact : ReadsIntegers exactNumber := by
  intro sign d b hsign hne hdigits _
  have hhead : ∀ k : Char, k.isDigit = false → d.head? ≠ some k := by
    intro k hk heq
    rw [hdigits k (List.mem_of_mem_head? heq)] at hk
    cases hk
  unfold exactNumber
  rw [unsigned_append hsign (hhead _ rfl) (hhead _ rfl)]
  cases hsign with
  | none => rw [List.nil_append, if_neg (hhead _ rfl), if_neg (by decide)]
  | plus => rfl
  | minus => rfl

theorem float32BitsOfText_seventeen : ReadsIntegers exactNumber ∧
    ∃ r, float32BitsOfText exactNumber 2 (['-', '1', '7'] ++ ['e', '0']) = some (.ok (2 ^ 31 + r)) ∧
      Single (|decimalValue true ['1', '7'] []| * 10 ^ (0 : Int)) r := by
  have hform : DecimalForm ['-', '1', '7'] true ['1', '7'] [] :=
    ⟨['-'], [], .minus, ⟨by simp, by simp [Digits]⟩, .none, rfl⟩
  have hzero : (number ['0'] : Int) = 0 := congrArg Nat.cast (number_zeros 1)
  have hexponent : ExponentPart ['e', '0'] 0 := by
    have hwritten : ExponentPart ('e' :: ([] ++ ['0']))
        (if false then -(number ['0'] : Int) else number ['0']) :=
      .written rfl .none (by simp) (digits_zeros 1) (by simp)
    simpa [hzero] using hwritten
  exact ⟨readsIntegers_exact, float32BitsOfText_single readsIntegers_exact hform hexponent
    (by simp) (le_refl 2)⟩

/-- A power of ten of more than 2^30 bits is no BigInt. -/
theorem float32BitsOfText_large (hread : ReadsIntegers toNumber) (hm : DecimalForm m b w f)
    (hx : ExponentPart x e) (hsized : sized (number (w ++ f)) = .ok (number (w ++ f)))
    (hne : number (w ++ f) ≠ 0) (hlarge : 2 ^ 30 ≤ 3 * (e - f.length).natAbs) (fuel : Nat) :
    float32BitsOfText toNumber fuel (m ++ x) =
      some (.error (.plain "RangeError: Maximum BigInt size exceeded")) := by
  have hpower := sized_of_le (two_pow_le_ten_pow hlarge)
  have hquotient : quotient (number (w ++ f)) (e - f.length) =
      .error (.plain "RangeError: Maximum BigInt size exceeded") := by
    rw [quotient, hpower]
    rfl
  rw [float32BitsOfText_eq hread hm hx, decimalBits]
  simp only [hsized, if_neg hne, hquotient]

/-- The text `1e400000000`. -/
theorem float32BitsOfText_range :
    ReadsIntegers exactNumber ∧ DecimalForm ['1'] false ['1'] [] ∧
      ExponentPart ('e' :: ([] ++ '4' :: List.replicate 8 '0'))
        (number ('4' :: List.replicate 8 '0')) ∧
      ∀ fuel, float32BitsOfText exactNumber fuel
          (['1'] ++ 'e' :: ([] ++ '4' :: List.replicate 8 '0')) =
        some (.error (.plain "RangeError: Maximum BigInt size exceeded")) := by
  have hform : DecimalForm ['1'] false ['1'] [] :=
    ⟨[], [], .none, ⟨by simp, by simp [Digits]⟩, .none, rfl⟩
  have hexponent : ExponentPart ('e' :: ([] ++ '4' :: List.replicate 8 '0'))
      (number ('4' :: List.replicate 8 '0')) :=
    .written rfl .none (by simp) (by simp [Digits]) (by simp)
  have hone : number (['1'] ++ []) = 1 := rfl
  have hvalue : number ('4' :: List.replicate 8 '0') = 400000000 := rfl
  refine ⟨readsIntegers_exact, hform, hexponent, fun fuel => ?_⟩
  refine float32BitsOfText_large readsIntegers_exact hform hexponent ?_ ?_ ?_ fuel
  · exact sized_of_lt (a := 1) (by rw [hone]; decide) (by omega)
  · rw [hone]
    decide
  · rw [hvalue]
    simp

end Texts

end Orm.Client
