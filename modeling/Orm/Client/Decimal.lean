import Orm.Logic.Digits
import Orm.Client.Codec

/-! Exact decimals: the text of a value and the scaled integer that SQLite stores. -/
namespace Orm.Client

open Orm.Logic
open Orm.Engine (Code Failure)

section Model

def decimalFailure (input : List Char) (reason : String) : Failure :=
  .orm .codecEncode ("decimal " ++ String.ofList (jsonText input) ++ ": " ++ reason)

/-- A text without its sign. -/
def unsignedText : List Char → List Char
  | '+' :: rest => rest
  | '-' :: rest => rest
  | text => text

/-- Whether a text is an optional sign, digits, and optionally a point and digits. -/
def decimalText (input : List Char) : Bool :=
  match (unsignedText input).splitOn '.' with
  | [whole] => whole ≠ [] ∧ Digits whole
  | [whole, fraction] => (whole ≠ [] ∧ Digits whole) ∧ fraction ≠ [] ∧ Digits fraction
  | _ => false

/-- Checks an exact decimal value and pads it to its scale. -/
def normalizeDecimal (input : List Char) (precision scale : Nat) : Except Failure (List Char) :=
  if precision < 1 ∨ 18 < precision ∨ precision < scale then
    .error (decimalFailure input "invalid precision or scale")
  else if !decimalText input then .error (decimalFailure input "invalid text")
  else
    let parts := (unsignedText input).splitOn '.'
    let wholePart := parts.getD 0 []
    let fractionPart := parts.getD 1 []
    let whole := stripZeros wholePart
    if scale < fractionPart.length then .error (decimalFailure input "fraction exceeds scale")
    else if precision < (if whole = ['0'] then 0 else whole.length) + scale then
      .error (decimalFailure input "value exceeds precision")
    else
      let fraction := fractionPart ++ List.replicate (scale - fractionPart.length) '0'
      let zero := whole = ['0'] && fraction.all (· = '0')
      let negative := input.head? = some '-' && !zero
      .ok ((if negative then ['-'] else []) ++ whole ++ (if scale = 0 then [] else '.' :: fraction))

/-- The integer of a text of digits with an optional minus. -/
def bigInt : List Char → Int
  | '-' :: rest => -(number rest : Int)
  | text => number text

/-- The scaled integer of a decimal. -/
def decimalScaled (input : List Char) (precision scale : Nat) : Except Failure Int :=
  (normalizeDecimal input precision scale).map fun text => bigInt (text.erase '.')

def codeText : Code → String
  | .codecEncode => "CODEC_ENCODE"
  | .codecDecode => "CODEC_DECODE"
  | _ => ""

def failureText : Failure → String
  | .orm code message => "OrmError: " ++ codeText code ++ ": " ++ message
  | .plain message => "Error: " ++ message

/-- The decimal of a scaled integer. -/
def decimalFromScaled (raw : Int) (precision scale : Nat) : Except Failure (List Char) :=
  let unpadded := digits raw.natAbs
  let padded := List.replicate (scale + 1 - unpadded.length) '0' ++ unpadded
  let split := padded.length - scale
  let text := if 0 < scale then padded.take split ++ '.' :: padded.drop split else padded
  (normalizeDecimal ((if raw < 0 then ['-'] else []) ++ text) precision scale).mapError fun cause =>
    .orm .codecDecode ("invalid scaled decimal cell: " ++ failureText cause)

end Model

section Forms
variable {t r w f : List Char} {b : Bool} {s p : Nat}

/-- The sign of a plain decimal number, and whether it is negative. -/
inductive Sign : List Char → Bool → Prop
  | none : Sign [] false
  | plus : Sign ['+'] false
  | minus : Sign ['-'] true

/-- What follows the whole digits: nothing, or a point and the fraction digits. -/
inductive Tail : List Char → List Char → Prop
  | none : Tail [] []
  | point {f : List Char} (nonempty : f ≠ []) (digits : Digits f) : Tail ('.' :: f) f

/-- The text is a plain decimal number with these whole and fraction digits. -/
def DecimalForm (t : List Char) (b : Bool) (w f : List Char) : Prop :=
  ∃ sign tail, Sign sign b ∧ (w ≠ [] ∧ Digits w) ∧ Tail tail f ∧ t = sign ++ (w ++ tail)

/-- The value of a plain decimal number. -/
def decimalValue (b : Bool) (w f : List Char) : ℚ :=
  (if b then -1 else 1) * (number (w ++ f) / 10 ^ f.length)

def Denotes (t : List Char) (v : ℚ) : Prop := ∃ b w f, DecimalForm t b w f ∧ v = decimalValue b w f

theorem Tail.digits (h : Tail t f) : Digits f := by
  cases h with
  | none => nofun
  | point _ hdigits => exact hdigits

theorem unsigned_append {sign rest : List Char} (hsign : Sign sign b) (hrest : rest.head? ≠ some '+')
    (hrest' : rest.head? ≠ some '-') : unsignedText (sign ++ rest) = rest := by
  cases hsign with
  | none =>
    cases rest with
    | nil => rfl
    | cons c rest =>
      change unsignedText (c :: rest) = c :: rest
      unfold unsignedText
      split
      · next heq => exact absurd (congrArg List.head? heq) hrest
      · next heq => exact absurd (congrArg List.head? heq) hrest'
      · rfl
  | plus => rfl
  | minus => rfl

theorem DecimalForm.parts (h : DecimalForm t b w f) :
    unsignedText t = w ++ (if f = [] then [] else '.' :: f) ∧ (t.head? = some '-' ↔ b = true) := by
  obtain ⟨sign, tail, hsign, ⟨hne, hw⟩, htail, rfl⟩ := h
  obtain ⟨c, rest, rfl⟩ := List.exists_cons_of_ne_nil hne
  have hc := hw c List.mem_cons_self
  have hhead : ∀ d : Char, d.isDigit = false → (c :: rest ++ tail).head? ≠ some d := by
    intro d hd heq
    obtain rfl := Option.some.inj heq
    rw [hc] at hd
    cases hd
  refine ⟨?_, ?_⟩
  · rw [unsigned_append hsign (hhead _ rfl) (hhead _ rfl)]
    cases htail with
    | none => rfl
    | point hfne _ => rw [if_neg hfne]
  · cases hsign with
    | none => exact ⟨fun heq => absurd heq (hhead _ rfl), nofun⟩
    | plus => exact ⟨nofun, nofun⟩
    | minus => exact ⟨fun _ => rfl, fun _ => rfl⟩

theorem DecimalForm.split (h : DecimalForm t b w f) :
    (unsignedText t).splitOn '.' = if f = [] then [w] else [w, f] := by
  obtain ⟨hparts, _⟩ := h.parts
  obtain ⟨sign, tail, _, ⟨_, hw⟩, htail, _⟩ := h
  have hpoint : '.' ∉ w := hw.not_mem rfl
  have hpoint' : '.' ∉ f := htail.digits.not_mem rfl
  rw [hparts]
  by_cases hf : f = []
  · rw [if_pos hf, if_pos hf, List.append_nil, List.splitOn_eq_singleton hpoint]
  · rw [if_neg hf, if_neg hf]
    have hjoin : (List.intercalate ['.'] [w, f]).splitOn '.' = [w, f] :=
      List.splitOn_intercalate '.' (by simp [hpoint, hpoint']) (by simp)
    simpa using hjoin

theorem DecimalForm.decimalText (h : DecimalForm t b w f) : decimalText t = true := by
  have hsplit := h.split
  obtain ⟨sign, tail, _, hw, htail, _⟩ := h
  unfold Orm.Client.decimalText
  rw [hsplit]
  cases htail with
  | none => simpa using hw
  | point hne hdigits =>
    rw [if_neg hne]
    simpa using And.intro hw (And.intro hne hdigits)

theorem signed_text (t : List Char) : ∃ sign b, Sign sign b ∧ t = sign ++ unsignedText t := by
  unfold unsignedText
  split
  · exact ⟨_, _, .plus, rfl⟩
  · exact ⟨_, _, .minus, rfl⟩
  · exact ⟨_, _, .none, rfl⟩

theorem written_of_decimalText (h : decimalText t = true) : ∃ b w f, DecimalForm t b w f := by
  obtain ⟨sign, b, hsign, ht⟩ := signed_text t
  have hjoin : List.intercalate ['.'] ((unsignedText t).splitOn '.') = unsignedText t :=
    List.intercalate_splitOn '.'
  unfold decimalText at h
  split at h
  · next whole hsplit =>
    rw [hsplit, List.intercalate_singleton] at hjoin
    refine ⟨b, whole, [], sign, [], hsign, of_decide_eq_true h, .none, ?_⟩
    rw [List.append_nil, hjoin]
    exact ht
  · next whole fraction hsplit =>
    have hparts := of_decide_eq_true h
    rw [hsplit] at hjoin
    refine ⟨b, whole, fraction, sign, _, hsign, hparts.1, .point hparts.2.1 hparts.2.2, ?_⟩
    rw [ht, ← hjoin]
    simp
  · cases h

end Forms

section Normal
variable {t r w f : List Char} {b : Bool} {s p : Nat}

/-- The normal text of a decimal: no leading zeros, `s` fraction digits and no negative zero. -/
structure Normal (s : Nat) (r : List Char) (b : Bool) (w f : List Char) : Prop where
  whole : Canonical w
  fraction : Digits f
  length : f.length = s
  sign : b = true → number (w ++ f) ≠ 0
  text : r = (if b then ['-'] else []) ++ w ++ (if s = 0 then [] else '.' :: f)

/-- The scaled integer of whole and fraction digits. -/
def scaledValue (b : Bool) (w f : List Char) : Int :=
  (if b then -1 else 1) * (number (w ++ f) : Int)

theorem scaledValue_cast : (scaledValue b w f : ℚ) = decimalValue b w f * 10 ^ f.length := by
  have hpos : (10 : ℚ) ^ f.length ≠ 0 := pow_ne_zero _ (by norm_num)
  unfold scaledValue decimalValue
  rw [mul_assoc, div_mul_cancel₀ _ hpos]
  cases b <;> simp

theorem Normal.written (h : Normal s r b w f) : DecimalForm r b w f := by
  refine ⟨if b then ['-'] else [], if s = 0 then [] else '.' :: f, ?_, ⟨h.whole.nonempty,
    h.whole.digits⟩, ?_, ?_⟩
  · cases b with
    | false => exact .none
    | true => exact .minus
  · have hlength := h.length
    by_cases hs : s = 0
    · rw [if_pos hs]
      rw [hs] at hlength
      rw [List.length_eq_zero_iff.mp hlength]
      exact .none
    · rw [if_neg hs]
      refine .point (fun hnil => hs ?_) h.fraction
      rw [← hlength, hnil]
      rfl
  · rw [h.text, List.append_assoc]

/-- A normal text is told by its scaled integer. -/
theorem Normal.unique {r' w' f' : List Char} {b' : Bool} (h : Normal s r b w f)
    (h' : Normal s r' b' w' f') (heq : scaledValue b w f = scaledValue b' w' f') : r = r' := by
  have hnumber : number (w ++ f) = number (w' ++ f') := by
    have habs := congrArg Int.natAbs heq
    unfold scaledValue at habs
    cases b <;> cases b' <;> simpa using habs
  have hsign : b = b' := by
    have hzero := h.sign
    have hzero' := h'.sign
    unfold scaledValue at heq
    cases b <;> cases b' <;> simp at heq hzero hzero' ⊢ <;> omega
  have hlt := number_lt h.fraction
  have hlt' := number_lt h'.fraction
  rw [number_append, number_append, h.length, h'.length] at hnumber
  rw [h.length] at hlt
  rw [h'.length] at hlt'
  have hpos : 0 < 10 ^ s := pow_pos (by decide) s
  have hfraction : number f = number f' := by
    have hmod := congrArg (· % 10 ^ s) hnumber
    simpa [Nat.mul_add_mod_of_lt, Nat.add_mod, Nat.mod_eq_of_lt hlt, Nat.mod_eq_of_lt hlt'] using hmod
  have hwhole : number w = number w' := by
    rw [hfraction] at hnumber
    exact Nat.eq_of_mul_eq_mul_right hpos (Nat.add_right_cancel hnumber)
  rw [h.text, h'.text, hsign, h.whole.inj h'.whole hwhole,
    number_inj h.fraction h'.fraction (h.length.trans h'.length.symm) hfraction]

/-- The precision and scale of a decimal type. -/
def DecimalType (p s : Nat) : Prop := 1 ≤ p ∧ p ≤ 18 ∧ s ≤ p

instance : Decidable (DecimalType p s) := inferInstanceAs (Decidable (_ ∧ _))

/-- The fraction digits padded to the scale. -/
def paddedFraction (s : Nat) (f : List Char) : List Char := f ++ List.replicate (s - f.length) '0'

theorem paddedFraction_length (h : f.length ≤ s) : (paddedFraction s f).length = s := by
  unfold paddedFraction
  rw [List.length_append, List.length_replicate]
  omega

theorem digits_padded (h : Digits f) : Digits (paddedFraction s f) := h.append (digits_zeros _)

theorem number_padded (w f : List Char) : number (stripZeros w ++ paddedFraction s f) =
    number (w ++ f) * 10 ^ (s - f.length) := by
  unfold paddedFraction
  rw [← List.append_assoc, number_append_zeros, number_append, number_append, number_stripZeros]

theorem padded_value (h : f.length ≤ s) (b : Bool) :
    decimalValue b (stripZeros w) (paddedFraction s f) = decimalValue b w f := by
  have hpow : (10 : ℚ) ^ s = 10 ^ f.length * 10 ^ (s - f.length) := by
    rw [← pow_add]
    congr 1
    omega
  have hpos : (10 : ℚ) ^ (s - f.length) ≠ 0 := pow_ne_zero _ (by norm_num)
  unfold decimalValue
  rw [number_padded, paddedFraction_length h, hpow]
  push_cast
  rw [mul_div_mul_right _ _ hpos]

/-- What the call makes of a plain decimal number. -/
theorem normalizeDecimal_written (hps : DecimalType p s) (h : DecimalForm t b w f) :
    (f.length ≤ s ∧ number w < 10 ^ (p - s) ∧ ∃ r b', normalizeDecimal t p s = .ok r ∧
      Normal s r b' (stripZeros w) (paddedFraction s f) ∧
      decimalValue b' (stripZeros w) (paddedFraction s f) = decimalValue b w f) ∨
    (¬ (f.length ≤ s ∧ number w < 10 ^ (p - s)) ∧ ∃ e, normalizeDecimal t p s = .error e) := by
  obtain ⟨hp, hp', hs⟩ := hps
  have hw : Digits w := by
    obtain ⟨_, _, _, hw, _⟩ := h
    exact hw.2
  have hf : Digits f := by
    obtain ⟨_, _, _, _, htail, _⟩ := h
    exact htail.digits
  have hparts : ((unsignedText t).splitOn '.').getD 0 [] = w ∧
      ((unsignedText t).splitOn '.').getD 1 [] = f := by
    rw [h.split]
    by_cases hnil : f = []
    · rw [if_pos hnil, hnil]
      exact ⟨rfl, rfl⟩
    · rw [if_neg hnil]
      exact ⟨rfl, rfl⟩
  have hcanonical := canonical_stripZeros hw
  have hwidth : ¬ p < (if stripZeros w = ['0'] then 0 else (stripZeros w).length) + s ↔
      number w < 10 ^ (p - s) := by
    rw [← number_stripZeros w, ← hcanonical.length_le]
    omega
  have hguard : ¬ (p < 1 ∨ 18 < p ∨ p < s) := by omega
  unfold normalizeDecimal
  rw [if_neg hguard, h.decimalText]
  simp only [hparts, Bool.not_true, Bool.false_eq_true, if_false]
  by_cases hfs : s < f.length
  · rw [if_pos hfs]
    exact .inr ⟨by omega, _, rfl⟩
  · rw [if_neg hfs]
    by_cases hwide : p < (if stripZeros w = ['0'] then 0 else (stripZeros w).length) + s
    · rw [if_pos hwide]
      exact .inr ⟨fun hboth => hwidth.mpr hboth.2 hwide, _, rfl⟩
    · rw [if_neg hwide]
      refine .inl ⟨by omega, hwidth.mp hwide, _, decide (t.head? = some '-') &&
        !(decide (stripZeros w = ['0']) &&
          (f ++ List.replicate (s - f.length) '0').all (· = '0')), rfl, ?_⟩
      have hzero : ((decide (stripZeros w = ['0']) &&
          (f ++ List.replicate (s - f.length) '0').all (· = '0')) = true) ↔
          number (stripZeros w ++ paddedFraction s f) = 0 := by
        have hpow : 10 ^ (paddedFraction s f).length ≠ 0 := pow_ne_zero _ (by decide)
        rw [Bool.and_eq_true, decide_eq_true_eq, ← hcanonical.number_eq_zero, number_append,
          Nat.add_eq_zero_iff, Nat.mul_eq_zero]
        exact and_congr ⟨.inl, fun h' => h'.resolve_right hpow⟩ (number_eq_zero (digits_padded hf)).symm
      refine ⟨⟨hcanonical, digits_padded hf, paddedFraction_length (by omega), ?_, ?_⟩, ?_⟩
      · intro hneg
        rw [Bool.and_eq_true, Bool.not_eq_true', ← Bool.not_eq_true, hzero] at hneg
        exact hneg.2
      · rfl
      · rw [← padded_value (by omega : f.length ≤ s) b]
        -- the sign is kept unless the value is zero
        unfold decimalValue
        by_cases hnumber : number (stripZeros w ++ paddedFraction s f) = 0
        · rw [hnumber]
          simp
        · have hkeep := fun h' => hnumber (hzero.mp h')
          have hsame : (decide (t.head? = some '-') && !(decide (stripZeros w = ['0']) &&
              (f ++ List.replicate (s - f.length) '0').all (· = '0'))) = b := by
            rw [Bool.not_eq_true _ |>.mp hkeep, Bool.not_false, Bool.and_true, Bool.eq_iff_iff,
              decide_eq_true_eq]
            exact h.parts.2
          rw [hsame]

end Normal

section Exact
variable {t r w f : List Char} {b : Bool} {s p : Nat} {v : ℚ}

theorem abs_decimalValue : |decimalValue b w f| = number (w ++ f) / 10 ^ f.length := by
  unfold decimalValue
  rw [abs_mul, abs_of_nonneg (by positivity : (0 : ℚ) ≤ number (w ++ f) / 10 ^ f.length)]
  cases b <;> simp

/-- The whole digits bound the value. -/
theorem abs_value_lt (hf : Digits f) (k : Nat) :
    |decimalValue b w f| < 10 ^ k ↔ number w < 10 ^ k := by
  have hpos : (0 : ℚ) < 10 ^ f.length := by positivity
  have hlt := number_lt hf
  have hcast : ((number (w ++ f) : ℚ) < 10 ^ k * 10 ^ f.length) ↔
      number w * 10 ^ f.length + number f < 10 ^ k * 10 ^ f.length := by
    rw [number_append]
    exact_mod_cast Iff.rfl
  rw [abs_decimalValue, div_lt_iff₀ hpos, hcast]
  constructor
  · intro h
    exact lt_of_mul_lt_mul_right (lt_of_le_of_lt (Nat.le_add_right _ _) h) (Nat.zero_le _)
  · intro h
    have hle : (number w + 1) * 10 ^ f.length ≤ 10 ^ k * 10 ^ f.length :=
      Nat.mul_le_mul_right _ h
    rw [Nat.add_mul] at hle
    omega

theorem Normal.unique_value {r' w' f' : List Char} {b' : Bool} (h : Normal s r b w f)
    (h' : Normal s r' b' w' f') (heq : decimalValue b w f = decimalValue b' w' f') : r = r' := by
  refine h.unique h' ?_
  have hcast : (scaledValue b w f : ℚ) = scaledValue b' w' f' := by
    rw [scaledValue_cast, scaledValue_cast, heq, h.length, h'.length]
  exact_mod_cast hcast

/-- What an accepted text is: its normal text has its value. -/
theorem normalizeDecimal_ok (hps : DecimalType p s) (h : normalizeDecimal t p s = .ok r)
    (ht : Denotes t v) :
    ∃ b w f, Normal s r b w f ∧ decimalValue b w f = v ∧ number w < 10 ^ (p - s) := by
  obtain ⟨b, w, f, hwritten, rfl⟩ := ht
  rcases normalizeDecimal_written hps hwritten with ⟨_, hbound, r', b', hok, hnormal, hvalue⟩ | herror
  · obtain rfl := Except.ok.inj (h.symm.trans hok)
    exact ⟨b', _, _, hnormal, hvalue, by rwa [number_stripZeros]⟩
  · obtain ⟨_, e, he⟩ := herror
    cases h.symm.trans he

/-- A text in range with the value of a normal text has that normal text. -/
theorem normalizeDecimal_of_value {w' f' : List Char} {b' : Bool} (hps : DecimalType p s)
    (hwritten : DecimalForm t b' w' f') (hlength : f'.length ≤ s) (hbound : number w' < 10 ^ (p - s))
    (hnormal : Normal s r b w f) (hvalue : decimalValue b' w' f' = decimalValue b w f) :
    normalizeDecimal t p s = .ok r := by
  rcases normalizeDecimal_written hps hwritten with ⟨_, _, r', b'', hok, hnormal', hvalue'⟩ | herror
  · rw [hok, hnormal'.unique_value hnormal (hvalue'.trans hvalue)]
  · exact absurd ⟨hlength, hbound⟩ herror.1

theorem decimalText_of_ok (hps : DecimalType p s) (h : normalizeDecimal t p s = .ok r) :
    decimalText t = true := by
  obtain ⟨hp, hp', hs⟩ := hps
  have hguard : ¬ (p < 1 ∨ 18 < p ∨ p < s) := by omega
  unfold normalizeDecimal at h
  rw [if_neg hguard] at h
  by_contra hnot
  rw [Bool.not_eq_true] at hnot
  rw [hnot] at h
  cases h

/-- The integer of a normal text without its point. -/
theorem Normal.bigInt (h : Normal s r b w f) : bigInt (r.erase '.') = scaledValue b w f := by
  have hpoint : '.' ∉ w := h.whole.digits.not_mem rfl
  have hfraction : '.' ∉ f := h.fraction.not_mem rfl
  have herase : r.erase '.' = (if b then ['-'] else []) ++ (w ++ f) := by
    have hsign : '.' ∉ (if b then ['-'] else []) ++ w := by
      cases b <;> simp [hpoint]
    rw [h.text]
    by_cases hs : s = 0
    · have hnil : f = [] := List.length_eq_zero_iff.mp (h.length.trans hs)
      rw [if_pos hs, hnil, List.append_nil, List.append_nil, List.erase_of_not_mem hsign]
    · rw [if_neg hs, List.erase_append_right _ hsign, List.erase_cons_head, List.append_assoc]
  rw [herase]
  cases b with
  | true =>
    change -(number (w ++ f) : Int) = -1 * (number (w ++ f) : Int)
    omega
  | false =>
    obtain ⟨c, rest, rfl⟩ := List.exists_cons_of_ne_nil h.whole.nonempty
    have hc := h.whole.digits c List.mem_cons_self
    have hminus : c ≠ '-' := by
      rintro rfl
      cases hc
    change Orm.Client.bigInt (c :: (rest ++ f)) = _
    unfold Orm.Client.bigInt scaledValue
    split
    · next heq => exact absurd (List.cons.inj heq).1 hminus
    · simp

theorem decimalScaled_ok (h : normalizeDecimal t p s = .ok r) (hnormal : Normal s r b w f) :
    decimalScaled t p s = .ok (scaledValue b w f) := by
  unfold decimalScaled
  rw [h, ← hnormal.bigInt]
  rfl

/-- The scaled integer of a normal text is read back as the text. -/
theorem decimalFromScaled_normal (hps : DecimalType p s) (h : Normal s r b w f)
    (hbound : number w < 10 ^ (p - s)) :
    decimalFromScaled (scaledValue b w f) p s = .ok r := by
  generalize hn : scaledValue b w f = n
  have hcast : (n : ℚ) = decimalValue b w f * 10 ^ s := by
    rw [← hn, scaledValue_cast, h.length]
  obtain ⟨padded, hpadded⟩ : ∃ l, l =
      List.replicate (s + 1 - (digits n.natAbs).length) '0' ++ digits n.natAbs := ⟨_, rfl⟩
  have hdigits : Digits padded := hpadded ▸ (digits_zeros _).append (digits_digits _)
  have hnumber : number padded = n.natAbs := by
    rw [hpadded, number_zeros_append, number_digits]
  have hlength : s < padded.length := by
    rw [hpadded, List.length_append, List.length_replicate]
    omega
  have hjoin : padded.take (padded.length - s) ++ padded.drop (padded.length - s) = padded :=
    List.take_append_drop _ _
  have hfraction : (padded.drop (padded.length - s)).length = s := by
    rw [List.length_drop]
    omega
  have hwritten : DecimalForm ((if n < 0 then ['-'] else []) ++ if 0 < s then
        padded.take (padded.length - s) ++ '.' :: padded.drop (padded.length - s) else padded)
      (decide (n < 0)) (padded.take (padded.length - s)) (padded.drop (padded.length - s)) := by
    refine ⟨if n < 0 then ['-'] else [], if 0 < s then '.' :: padded.drop (padded.length - s) else [],
      ?_, ⟨?_, hdigits.sublist (List.take_sublist _ _)⟩, ?_, ?_⟩
    · by_cases hneg : n < 0
      · rw [if_pos hneg, decide_eq_true hneg]
        exact .minus
      · rw [if_neg hneg, decide_eq_false hneg]
        exact .none
    · intro hnil
      have htake := congrArg List.length hnil
      rw [List.length_take, List.length_nil] at htake
      omega
    · by_cases hs : 0 < s
      · rw [if_pos hs]
        refine .point (fun hnil => ?_) (hdigits.sublist (List.drop_sublist _ _))
        rw [hnil] at hfraction
        simp at hfraction
        omega
      · rw [if_neg hs, List.length_eq_zero_iff.mp (hfraction.trans (by omega))]
        exact .none
    · by_cases hs : 0 < s
      · rw [if_pos hs, if_pos hs]
      · have hs0 : s = 0 := by omega
        rw [if_neg hs, if_neg hs, hs0, Nat.sub_zero, List.take_length, List.append_nil]
  have hvalue : decimalValue (decide (n < 0)) (padded.take (padded.length - s))
      (padded.drop (padded.length - s)) = decimalValue b w f := by
    have hpos : (10 : ℚ) ^ s ≠ 0 := pow_ne_zero _ (by norm_num)
    rw [eq_comm, ← mul_left_inj' hpos, ← hcast]
    unfold decimalValue
    rw [hjoin, hnumber, hfraction, mul_assoc, div_mul_cancel₀ _ hpos]
    by_cases hneg : n < 0
    · rw [decide_eq_true hneg, if_pos rfl, Nat.cast_natAbs, abs_of_neg hneg]
      simp
    · rw [decide_eq_false hneg, if_neg (by simp), Nat.cast_natAbs, abs_of_nonneg (not_lt.mp hneg)]
      simp
  have hbound' : number (padded.take (padded.length - s)) < 10 ^ (p - s) := by
    rw [← abs_value_lt (b := decide (n < 0)) (hdigits.sublist (List.drop_sublist _ _)), hvalue,
      abs_value_lt h.fraction]
    exact hbound
  have hok := normalizeDecimal_of_value hps hwritten (le_of_eq hfraction) hbound' h hvalue
  unfold decimalFromScaled
  simp only [← hpadded, hok]
  rfl

/-- What the three functions say of the decimals of a precision and a scale. -/
structure DecimalsExact (p s : Nat) : Prop where
  accepts : ∀ t, (∃ r, normalizeDecimal t p s = .ok r) ↔
    ∃ b w f, DecimalForm t b w f ∧ f.length ≤ s ∧ |decimalValue b w f| < 10 ^ (p - s)
  result : ∀ t r v, normalizeDecimal t p s = .ok r → Denotes t v →
    Denotes r v ∧ normalizeDecimal r p s = .ok r
  unique : ∀ t t' r r' v, normalizeDecimal t p s = .ok r → normalizeDecimal t' p s = .ok r' →
    Denotes t v → Denotes t' v → r = r'
  scaled : ∀ t r v, normalizeDecimal t p s = .ok r → Denotes t v →
    ∃ n : Int, decimalScaled t p s = .ok n ∧ (n : ℚ) = v * 10 ^ s ∧ decimalFromScaled n p s = .ok r
  order : ∀ t t' v v' n n', Denotes t v → Denotes t' v' → decimalScaled t p s = .ok n →
    decimalScaled t' p s = .ok n' → (v < v' ↔ n < n')

theorem decimals_exact (p s : Nat) (hps : DecimalType p s) : DecimalsExact p s where
  accepts := by
    intro t
    constructor
    · rintro ⟨r, hr⟩
      obtain ⟨b, w, f, hwritten⟩ := written_of_decimalText (decimalText_of_ok hps hr)
      rcases normalizeDecimal_written hps hwritten with ⟨hlength, hbound, _⟩ | ⟨_, e, he⟩
      · have hf : Digits f := by
          obtain ⟨_, _, _, _, htail, _⟩ := hwritten
          exact htail.digits
        exact ⟨b, w, f, hwritten, hlength, (abs_value_lt hf _).mpr hbound⟩
      · cases hr.symm.trans he
    · rintro ⟨b, w, f, hwritten, hlength, hbound⟩
      have hf : Digits f := by
        obtain ⟨_, _, _, _, htail, _⟩ := hwritten
        exact htail.digits
      rcases normalizeDecimal_written hps hwritten with ⟨_, _, r, _, hok, _⟩ | ⟨hnot, _⟩
      · exact ⟨r, hok⟩
      · exact absurd ⟨hlength, (abs_value_lt hf _).mp hbound⟩ hnot
  result := by
    intro t r v hr ht
    obtain ⟨b, w, f, hnormal, hvalue, hbound⟩ := normalizeDecimal_ok hps hr ht
    exact ⟨⟨b, w, f, hnormal.written, hvalue.symm⟩, normalizeDecimal_of_value hps hnormal.written
      (le_of_eq hnormal.length) hbound hnormal rfl⟩
  unique := by
    intro t t' r r' v hr hr' ht ht'
    obtain ⟨b, w, f, hnormal, hvalue, _⟩ := normalizeDecimal_ok hps hr ht
    obtain ⟨b', w', f', hnormal', hvalue', _⟩ := normalizeDecimal_ok hps hr' ht'
    exact hnormal.unique_value hnormal' (hvalue.trans hvalue'.symm)
  scaled := by
    intro t r v hr ht
    obtain ⟨b, w, f, hnormal, hvalue, hbound⟩ := normalizeDecimal_ok hps hr ht
    refine ⟨scaledValue b w f, decimalScaled_ok hr hnormal, ?_,
      decimalFromScaled_normal hps hnormal hbound⟩
    rw [scaledValue_cast, hnormal.length, hvalue]
  order := by
    intro t t' v v' n n' ht ht' hn hn'
    have hcast : ∀ {t v n}, Denotes t v → decimalScaled t p s = .ok n → (n : ℚ) = v * 10 ^ s := by
      intro t v n ht hn
      obtain ⟨r, hr⟩ : ∃ r, normalizeDecimal t p s = .ok r := by
        unfold decimalScaled at hn
        cases hr : normalizeDecimal t p s with
        | error e =>
          rw [hr] at hn
          cases hn
        | ok r => exact ⟨r, rfl⟩
      obtain ⟨b, w, f, hnormal, hvalue, _⟩ := normalizeDecimal_ok hps hr ht
      rw [decimalScaled_ok hr hnormal] at hn
      rw [← Except.ok.inj hn, scaledValue_cast, hnormal.length, hvalue]
    have hpos : (0 : ℚ) < 10 ^ s := by positivity
    rw [← mul_lt_mul_iff_left₀ hpos, ← hcast ht hn, ← hcast ht' hn']
    exact Int.cast_lt

theorem decimals_exact_five_two : DecimalType 5 2 ∧ DecimalsExact 5 2 :=
  ⟨by decide, decimals_exact 5 2 (by decide)⟩

end Exact

end Orm.Client
