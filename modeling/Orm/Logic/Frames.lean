import Orm.Logic.Utf8

/-! Texts framed by their length in bytes: a sequence of frames has one reading. -/
namespace Orm.Logic

/-- The decimal digits of a number. -/
def digits (n : Nat) : List Char := Nat.toDigits 10 n

/-- A text after its length in UTF-8 bytes. -/
def framed (payload : List Char) : List Char :=
  digits (Utf8.encode payload).length ++ ':' :: payload

theorem digits_injective : Function.Injective digits := by
  intro m n h
  have hm := Nat.ofDigitChars_ten_toDigits (n := m)
  have hn := Nat.ofDigitChars_ten_toDigits (n := n)
  rw [show Nat.toDigits 10 m = Nat.toDigits 10 n from h] at hm
  exact hm.symm.trans hn

theorem isDigit_of_mem_digits {n : Nat} {c : Char} (h : c ∈ digits n) : c.isDigit = true :=
  Nat.isDigit_of_mem_toDigits (by decide) (by decide) h

theorem colon_not_mem_digits (n : Nat) : ':' ∉ digits n := fun h =>
  absurd (isDigit_of_mem_digits h) (by decide)

theorem digits_ne_nil (n : Nat) : digits n ≠ [] := Nat.toDigits_ne_nil

/-- The first separator ends the first part. -/
theorem append_separator_inj {α : Type} {x : α} {as bs as' bs' : List α} (ha : x ∉ as)
    (ha' : x ∉ as') (h : as ++ x :: bs = as' ++ x :: bs') : as = as' ∧ bs = bs' := by
  induction as generalizing as' with
  | nil =>
    cases as' with
    | nil => exact ⟨rfl, (List.cons.inj h).2⟩
    | cons a as' =>
      have hx := (List.cons.inj h).1
      exact absurd (hx ▸ List.mem_cons_self) ha'
  | cons a as ih =>
    cases as' with
    | nil =>
      have hx := (List.cons.inj h).1
      exact absurd (hx ▸ List.mem_cons_self) ha
    | cons a' as' =>
      obtain ⟨rfl, hrest⟩ := List.cons.inj h
      obtain ⟨rfl, hbs⟩ := ih (fun hm => ha (List.mem_cons_of_mem _ hm))
        (fun hm => ha' (List.mem_cons_of_mem _ hm)) hrest
      exact ⟨rfl, hbs⟩

/-- Two starts of one text with the same number of bytes are equal. -/
theorem append_bytes_inj {p q r s : List Char} (h : p ++ r = q ++ s)
    (hlength : (Utf8.encode p).length = (Utf8.encode q).length) : p = q ∧ r = s := by
  induction p generalizing q with
  | nil =>
    cases q with
    | nil => exact ⟨rfl, h⟩
    | cons c q =>
      have hsize : (String.utf8EncodeChar c).length = c.utf8Size := String.length_utf8EncodeChar c
      have hpos : 0 < c.utf8Size := c.utf8Size_pos
      rw [Utf8.encode_cons, List.length_append] at hlength
      change 0 = _ at hlength
      omega
  | cons c p ih =>
    cases q with
    | nil =>
      have hsize : (String.utf8EncodeChar c).length = c.utf8Size := String.length_utf8EncodeChar c
      have hpos : 0 < c.utf8Size := c.utf8Size_pos
      rw [Utf8.encode_cons, List.length_append] at hlength
      change _ = 0 at hlength
      omega
    | cons d q =>
      obtain ⟨rfl, hrest⟩ := List.cons.inj h
      rw [Utf8.encode_cons, Utf8.encode_cons, List.length_append, List.length_append] at hlength
      obtain ⟨rfl, hs⟩ := ih hrest (by omega)
      exact ⟨rfl, hs⟩

/-- A frame ends where its length says. -/
theorem framed_append_inj {p q r s : List Char} (h : framed p ++ r = framed q ++ s) :
    p = q ∧ r = s := by
  unfold framed at h
  rw [List.append_assoc, List.append_assoc, List.cons_append, List.cons_append] at h
  obtain ⟨hdigits, hrest⟩ := append_separator_inj (colon_not_mem_digits _)
    (colon_not_mem_digits _) h
  exact append_bytes_inj hrest (digits_injective hdigits)

theorem framed_cons (payload : List Char) :
    ∃ c rest, framed payload = c :: rest ∧ c.isDigit = true := by
  obtain ⟨c, cs, hcs⟩ := List.exists_cons_of_ne_nil
    (digits_ne_nil (Utf8.encode payload).length)
  refine ⟨c, cs ++ ':' :: payload, by rw [framed, hcs]; rfl, ?_⟩
  exact isDigit_of_mem_digits (n := (Utf8.encode payload).length) (hcs ▸ List.mem_cons_self)

end Orm.Logic
