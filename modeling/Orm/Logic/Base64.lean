import Orm.Logic.Utf8

/-! Base64: bytes in threes as four characters of six bits, padded at the end. -/
namespace Orm.Logic.Base64

/-- The character of six bits. -/
def sextetChar (n : Nat) : Char :=
  Char.ofNat (if n < 26 then 65 + n else if n < 52 then 71 + n else if n < 62 then n - 4
    else if n = 62 then 43 else 47)

/-- The six bits of a character of the alphabet. -/
def sextet (c : Char) : Option Nat :=
  if 'A' ≤ c ∧ c ≤ 'Z' then some (c.toNat - 65)
  else if 'a' ≤ c ∧ c ≤ 'z' then some (c.toNat - 71)
  else if '0' ≤ c ∧ c ≤ '9' then some (c.toNat + 4)
  else if c = '+' then some 62
  else if c = '/' then some 63
  else none

/-- The sextets of bytes; the bits that the last bytes leave are zero. -/
def sextets : List UInt8 → List Nat
  | a :: b :: c :: rest =>
    a.toNat / 4 :: (a.toNat % 4 * 16 + b.toNat / 16) :: (b.toNat % 16 * 4 + c.toNat / 64) ::
      c.toNat % 64 :: sextets rest
  | [a, b] => [a.toNat / 4, a.toNat % 4 * 16 + b.toNat / 16, b.toNat % 16 * 4]
  | [a] => [a.toNat / 4, a.toNat % 4 * 16]
  | [] => []

/-- The bytes of sextets; bits that make no whole byte are dropped. -/
def bytes : List Nat → List UInt8
  | p :: q :: r :: s :: rest =>
    UInt8.ofNat (p * 4 + q / 16) :: UInt8.ofNat (q % 16 * 16 + r / 4) :: UInt8.ofNat (r % 4 * 64 + s) ::
      bytes rest
  | [p, q, r] => [UInt8.ofNat (p * 4 + q / 16), UInt8.ofNat (q % 16 * 16 + r / 4)]
  | [p, q] => [UInt8.ofNat (p * 4 + q / 16)]
  | _ => []

/-- The padded text of bytes. -/
def encode (b : List UInt8) : List Char :=
  (sextets b).map sextetChar ++ List.replicate ((3 - b.length % 3) % 3) '='

/-- The bytes of a text; characters outside the alphabet are skipped. -/
def decode (s : List Char) : List UInt8 := bytes (s.filterMap sextet)

theorem sextet_sextetChar (n : Fin 64) : sextet (sextetChar n) = some n.val := by
  decide +revert

theorem sextets_lt (b : List UInt8) : ∀ n ∈ sextets b, n < 64 := by
  induction b using sextets.induct with
  | case1 a b c rest ih =>
    have ha := a.toNat_lt
    have hb := b.toNat_lt
    have hc := c.toNat_lt
    intro n hn
    simp only [sextets, List.mem_cons] at hn
    rcases hn with rfl | rfl | rfl | rfl | hn
    · omega
    · omega
    · omega
    · omega
    · exact ih n hn
  | case2 a b =>
    have ha := a.toNat_lt
    have hb := b.toNat_lt
    intro n hn
    simp only [sextets, List.mem_cons, List.not_mem_nil, or_false] at hn
    omega
  | case3 a =>
    have ha := a.toNat_lt
    intro n hn
    simp only [sextets, List.mem_cons, List.not_mem_nil, or_false] at hn
    omega
  | case4 => simp [sextets]

theorem bytes_sextets (b : List UInt8) : bytes (sextets b) = b := by
  have hfirst : ∀ (a : UInt8) (n : Nat), n < 16 →
      UInt8.ofNat (a.toNat / 4 * 4 + (a.toNat % 4 * 16 + n) / 16) = a := by
    intro a n hn
    rw [show a.toNat / 4 * 4 + (a.toNat % 4 * 16 + n) / 16 = a.toNat by omega, UInt8.ofNat_toNat]
  have hsecond : ∀ (b : UInt8) (m n : Nat), n < 4 →
      UInt8.ofNat ((m * 16 + b.toNat / 16) % 16 * 16 + (b.toNat % 16 * 4 + n) / 4) = b := by
    intro b m n hn
    have hb := b.toNat_lt
    rw [show (m * 16 + b.toNat / 16) % 16 * 16 + (b.toNat % 16 * 4 + n) / 4 = b.toNat by omega,
      UInt8.ofNat_toNat]
  have hthird : ∀ (c : UInt8) (m : Nat),
      UInt8.ofNat ((m * 4 + c.toNat / 64) % 4 * 64 + c.toNat % 64) = c := by
    intro c m
    have hc := c.toNat_lt
    rw [show (m * 4 + c.toNat / 64) % 4 * 64 + c.toNat % 64 = c.toNat by omega, UInt8.ofNat_toNat]
  induction b using sextets.induct with
  | case1 a b c rest ih =>
    have hb := b.toNat_lt
    have hc := c.toNat_lt
    rw [sextets, bytes, ih, hfirst a _ (by omega), hsecond b _ _ (by omega), hthird]
  | case2 a b =>
    have hb := b.toNat_lt
    have hlast := hsecond b (a.toNat % 4) 0 (by decide)
    rw [Nat.add_zero] at hlast
    rw [sextets, bytes, hfirst a _ (by omega), hlast]
  | case3 a =>
    have hlast := hfirst a 0 (by decide)
    rw [Nat.add_zero] at hlast
    rw [sextets, bytes, hlast]
  | case4 => rfl

theorem decode_encode (b : List UInt8) : decode (encode b) = b := by
  have hpad : ∀ n, (List.replicate n '=').filterMap sextet = [] := by
    intro n
    induction n with
    | zero => rfl
    | succ n ih =>
      rw [List.replicate_succ, List.filterMap_cons_none (by decide), ih]
  have hchars : ((sextets b).map sextetChar).filterMap sextet = sextets b := by
    rw [List.filterMap_map]
    refine (List.filterMap_congr fun n hn => ?_).trans List.filterMap_some
    exact sextet_sextetChar ⟨n, sextets_lt b n hn⟩
  rw [decode, encode, List.filterMap_append, hpad, hchars, List.append_nil, bytes_sextets]

/-- The characters of a padded text. -/
def IsChar (c : Char) : Bool := (sextet c).isSome || c = '='

theorem isChar_encode (b : List UInt8) : ∀ c ∈ encode b, IsChar c = true := by
  intro c hc
  rcases List.mem_append.mp hc with hc | hc
  · obtain ⟨n, hn, rfl⟩ := List.mem_map.mp hc
    have hsextet := sextet_sextetChar ⟨n, sextets_lt b n hn⟩
    simp [IsChar, hsextet]
  · rw [List.eq_of_mem_replicate hc]
    decide

theorem isChar_ascii {c : Char} (h : IsChar c = true) : c.toNat < 128 := by
  unfold IsChar sextet at h
  split_ifs at h with hupper hlower hdigit hplus hslash
  · exact lt_of_le_of_lt (show c.toNat ≤ 90 from hupper.2) (by decide)
  · exact lt_of_le_of_lt (show c.toNat ≤ 122 from hlower.2) (by decide)
  · exact lt_of_le_of_lt (show c.toNat ≤ 57 from hdigit.2) (by decide)
  · rw [hplus]
    decide
  · rw [hslash]
    decide
  · simp only [Option.isSome_none, Bool.false_or, decide_eq_true_eq] at h
    rw [h]
    decide

end Orm.Logic.Base64
