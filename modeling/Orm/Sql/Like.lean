import Mathlib.Data.List.Forall2
import Mathlib.Data.List.Infix
import Mathlib.Tactic.NormNum

/-! The LIKE operator with an escape character, REPLACE, and the search for a substring. -/
namespace Orm.Sql

section Like
variable {esc : Char} {same : Char → Char → Bool} {v p s : List Char}

/-- Whether a text matches a LIKE pattern, with `same` to compare two characters. A pattern that ends
with its escape character matches nothing. -/
def like (esc : Char) (same : Char → Char → Bool) : List Char → List Char → Bool
  | [], s => s.isEmpty
  | c :: p, s =>
    if c = esc then
      match p, s with
      | d :: p, x :: s => same d x && like esc same p s
      | _, _ => false
    else if c = '%' then s.tails.any (like esc same p)
    else match s with
      | [] => false
      | x :: s => (c = '_' || same c x) && like esc same p s

/-- A text with the escape character before each character that a pattern reads otherwise. -/
def escaped (esc : Char) (v : List Char) : List Char :=
  v.flatMap fun c => if c = esc ∨ c = '%' ∨ c = '_' then [esc, c] else [c]

theorem like_any (h : esc ≠ '%') : like esc same ('%' :: p) s = true ↔
    ∃ t, t <:+ s ∧ like esc same p t = true := by
  rw [like.eq_def]
  simp only [if_neg h.symm, if_true, List.any_eq_true, List.mem_tails]

theorem like_escape (c : Char) : like esc same (esc :: c :: p) s = true ↔
    ∃ x t, s = x :: t ∧ same c x = true ∧ like esc same p t = true := by
  cases s <;> simp [like]

theorem like_other {c : Char} (h : c ≠ esc ∧ c ≠ '%' ∧ c ≠ '_') : like esc same (c :: p) s = true ↔
    ∃ x t, s = x :: t ∧ same c x = true ∧ like esc same p t = true := by
  rw [like.eq_def]
  cases s <;> simp [h]

/-- An escaped text matches a text of the same characters. -/
theorem like_escaped : like esc same (escaped esc v ++ p) s = true ↔
    ∃ x y, s = x ++ y ∧ List.Forall₂ (same · · = true) v x ∧ like esc same p y = true := by
  induction v generalizing s with
  | nil =>
    constructor
    · intro h
      exact ⟨[], s, rfl, .nil, h⟩
    · rintro ⟨x, y, rfl, hx, h⟩
      cases hx
      exact h
  | cons c v ih =>
    have hstep : like esc same (escaped esc (c :: v) ++ p) s = true ↔
        ∃ x s', s = x :: s' ∧ same c x = true ∧ like esc same (escaped esc v ++ p) s' = true := by
      by_cases hc : c = esc ∨ c = '%' ∨ c = '_'
      · have hcons : escaped esc (c :: v) = esc :: c :: escaped esc v := by
          simp [escaped, hc]
        rw [hcons]
        exact like_escape c
      · have hcons : escaped esc (c :: v) = c :: escaped esc v := by
          simp [escaped, hc]
        rw [not_or, not_or] at hc
        rw [hcons]
        exact like_other hc
    rw [hstep]
    constructor
    · rintro ⟨x, s', rfl, hx, h⟩
      obtain ⟨xs, y, rfl, hxs, hy⟩ := ih.mp h
      exact ⟨x :: xs, y, rfl, .cons hx hxs, hy⟩
    · rintro ⟨xs, y, rfl, hxs, hy⟩
      cases hxs with
      | @cons _ x _ xs hx hxs => exact ⟨x, xs ++ y, rfl, hx, ih.mpr ⟨xs, y, rfl, hxs, hy⟩⟩

/-- An escaped text between wildcards matches the texts that hold it, up to the folding of characters. -/
theorem like_substring (h : esc ≠ '%') {f : Char → Char} (hsame : ∀ c d, same c d = true ↔ f c = f d) :
    like esc same ('%' :: escaped esc v ++ ['%']) s = true ↔ v.map f <:+: s.map f := by
  have hforall : ∀ x, List.Forall₂ (same · · = true) v x ↔ v.map f = x.map f := by
    intro x
    simp only [hsame, ← List.forall₂_eq_eq_eq, List.forall₂_map_left_iff, List.forall₂_map_right_iff]
  rw [List.cons_append, like_any h]
  constructor
  · rintro ⟨t, ⟨w, rfl⟩, ht⟩
    obtain ⟨x, y, rfl, hx, _⟩ := like_escaped.mp ht
    refine ⟨w.map f, y.map f, ?_⟩
    rw [(hforall x).mp hx, List.map_append, List.map_append, List.append_assoc]
  · rintro ⟨w, y, hs⟩
    obtain ⟨t, y', hty, ht, rfl⟩ := List.map_eq_append_iff.mp hs.symm
    obtain ⟨w', x, rfl, rfl, hx⟩ := List.map_eq_append_iff.mp ht
    refine ⟨x ++ y', ⟨w', by rw [hty, List.append_assoc]⟩, ?_⟩
    exact like_escaped.mpr ⟨x, y', rfl, (hforall x).mpr hx.symm, (like_any h).mpr ⟨[], List.nil_suffix, rfl⟩⟩

end Like

section Functions
variable {v s : List Char}

/-- REPLACE of one character by a text. -/
def replaceChar (c : Char) (r s : List Char) : List Char := s.flatMap fun d => if d = c then r else [d]

/-- The position of the first occurrence, counted from 1, or 0. -/
def instr : List Char → List Char → Nat
  | [], v => if v = [] then 1 else 0
  | x :: s, v =>
    if v.isPrefixOf (x :: s) then 1 else if instr s v = 0 then 0 else instr s v + 1

theorem instr_pos : 0 < instr s v ↔ v <:+: s := by
  induction s with
  | nil =>
    unfold instr
    by_cases hv : v = []
    · simp [hv]
    · simp [hv]
  | cons x s ih =>
    unfold instr
    rw [List.infix_cons_iff, ← ih]
    by_cases hprefix : v.isPrefixOf (x :: s)
    · rw [if_pos hprefix]
      exact ⟨fun _ => .inl (List.isPrefixOf_iff_prefix.mp hprefix), fun _ => Nat.one_pos⟩
    · rw [if_neg hprefix]
      have hnot : ¬ v <+: x :: s := fun h => hprefix (List.isPrefixOf_iff_prefix.mpr h)
      by_cases hzero : instr s v = 0
      · simp [hzero, hnot]
      · rw [if_neg hzero]
        exact ⟨fun _ => .inr (Nat.pos_of_ne_zero hzero), fun _ => Nat.succ_pos _⟩

/-- The lower case of the first `n` letters. -/
def lowerFirst (n : Nat) (c : Char) : Char :=
  if 65 ≤ c.toNat ∧ c.toNat < 65 + n then Char.ofNat (c.toNat + 32) else c

theorem toNat_ofNat {n : Nat} (h : n < 55296) : (Char.ofNat n).toNat = n := by
  rw [Char.ofNat, dif_pos (Or.inl h)]
  rfl

/-- One replacement after the other lowers one letter after the other. -/
theorem replaceChar_fold {n : Nat} (hn : n ≤ 26) (s : List Char) :
    (List.range n).foldl (fun s i => replaceChar (Char.ofNat (65 + i)) [Char.ofNat (97 + i)] s) s =
      s.map (lowerFirst n) := by
  induction n with
  | zero =>
    have hzero : ∀ c, lowerFirst 0 c = c := fun c => if_neg (by omega)
    simp [funext hzero]
  | succ n ih =>
    rw [List.range_succ, List.foldl_append, ih (by omega)]
    have hletter := toNat_ofNat (by omega : 65 + n < 55296)
    have hstep : ∀ c, (if lowerFirst n c = Char.ofNat (65 + n) then Char.ofNat (97 + n)
        else lowerFirst n c) = lowerFirst (n + 1) c := by
      intro c
      by_cases hbefore : 65 ≤ c.toNat ∧ c.toNat < 65 + n
      · have hlower := toNat_ofNat (by omega : c.toNat + 32 < 55296)
        have hne : Char.ofNat (c.toNat + 32) ≠ Char.ofNat (65 + n) := by
          intro heq
          have hnat := congrArg Char.toNat heq
          omega
        rw [lowerFirst, if_pos hbefore, if_neg hne, lowerFirst, if_pos (by omega)]
      · rw [lowerFirst, if_neg hbefore]
        by_cases hhere : c = Char.ofNat (65 + n)
        · have hc : c.toNat = 65 + n := by rw [hhere, hletter]
          rw [if_pos hhere, lowerFirst, if_pos (by omega), hc]
          congr 1
          omega
        · have hc : c.toNat ≠ 65 + n := fun heq => hhere (by rw [← heq, Char.ofNat_toNat])
          rw [if_neg hhere, lowerFirst, if_neg (by omega)]
    change (s.map (lowerFirst n)).flatMap _ = _
    rw [List.flatMap_map, List.map_eq_flatMap]
    congr 1
    funext c
    rw [← hstep c]
    split <;> rfl

end Functions

end Orm.Sql
