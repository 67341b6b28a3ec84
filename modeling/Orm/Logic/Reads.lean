import Orm.Logic.Holds

/-! Readers that take the front of a list: what they return, what they stop with, and how they
repeat. -/
namespace Orm.Logic

variable {β ε α γ τ : Type}

abbrev Reader (β ε α : Type) := StateT (List β) (Except ε) α

variable {p : Reader β ε α} {q : α → Reader β ε γ} {l r : List β} {x : ε} {N n k : Nat}

theorem reader_bind {c : γ} : (p >>= q) l = .ok (c, r) ↔
    ∃ a m, p l = .ok (a, m) ∧ q a m = .ok (c, r) := by
  constructor
  · intro h
    obtain ⟨⟨a, m⟩, hp, hq⟩ := ok_bind.mp h
    exact ⟨a, m, hp, hq⟩
  · rintro ⟨a, m, hp, hq⟩
    exact ok_bind.mpr ⟨(a, m), hp, hq⟩

theorem reader_bind_error : (p >>= q) l = .error x ↔
    p l = .error x ∨ ∃ a m, p l = .ok (a, m) ∧ q a m = .error x := by
  change (p l >>= fun s => q s.1 s.2) = .error x ↔ _
  cases p l with
  | error y => simp [bind, Except.bind]
  | ok s => simp [bind, Except.bind, Prod.ext_iff]

theorem reader_pure {a b : α} : (pure a : Reader β ε α) l = .ok (b, r) ↔ a = b ∧ l = r := by
  simp [pure, StateT.pure, Except.pure]

section Throws

/-- What a reader can stop with. -/
def Throws (Q : ε → Prop) (p : Reader β ε α) : Prop := ∀ l x, p l = .error x → Q x

variable {Q : ε → Prop}

theorem Throws.pure (a : α) : Throws Q (pure a : Reader β ε α) := by
  intro l x h
  cases h

theorem Throws.bind (hp : Throws Q p) (hq : ∀ a, Throws Q (q a)) : Throws Q (p >>= q) := by
  intro l x h
  rcases reader_bind_error.mp h with h | ⟨a, m, -, h⟩
  · exact hp l x h
  · exact hq a m x h

end Throws

section Reads

/-- On lists shorter than `N` the reader takes what `write` writes of some `t` in `P`, and returns
its value. -/
structure Reads (N : Nat) (p : Reader β ε α) (P : τ → Prop) (write : τ → List β) (value : τ → α) :
    Prop where
  ok_iff : ∀ {l}, l.length < N → ∀ {a r}, p l = .ok (a, r) ↔
    ∃ t, P t ∧ l = write t ++ r ∧ a = value t

variable {P : τ → Prop} {write : τ → List β} {value : τ → α}

/-- A reader a number of times in a row. -/
def times (p : Reader β ε α) : Nat → Reader β ε (List α)
  | 0 => pure []
  | n + 1 => do
    let a ← p
    let as ← times p n
    pure (a :: as)

theorem Reads.times (h : Reads N p P write value) (n : Nat) : Reads N (times p n)
    (fun ts : List τ => ts.length = n ∧ ∀ t ∈ ts, P t) (List.flatMap write) (List.map value) where
  ok_iff := by
    induction n with
    | zero =>
      intro l _ as r
      rw [Logic.times, reader_pure]
      constructor
      · rintro ⟨rfl, rfl⟩
        exact ⟨[], by simp⟩
      · rintro ⟨ts, ⟨hlength, -⟩, rfl, rfl⟩
        obtain rfl := List.length_eq_zero_iff.mp hlength
        exact ⟨rfl, rfl⟩
    | succ n ih =>
      intro l hl as r
      rw [Logic.times, reader_bind]
      constructor
      · rintro ⟨a, m, ha, hrest⟩
        obtain ⟨t, ht, rfl, rfl⟩ := (h.ok_iff hl).mp ha
        obtain ⟨bs, m', hbs, hpure⟩ := reader_bind.mp hrest
        obtain ⟨rfl, rfl⟩ := reader_pure.mp hpure
        have hm : m.length < N := lt_of_le_of_lt (by simp) hl
        obtain ⟨ts, ⟨hlength, hts⟩, rfl, rfl⟩ := (ih hm).mp hbs
        exact ⟨t :: ts, ⟨by simp [hlength], List.forall_mem_cons.mpr ⟨ht, hts⟩⟩, by simp, rfl⟩
      · rintro ⟨ts, ⟨hlength, hts⟩, rfl, rfl⟩
        obtain ⟨t, ts, rfl⟩ := List.exists_cons_of_length_eq_add_one hlength
        obtain ⟨ht, hts⟩ := List.forall_mem_cons.mp hts
        have hm : (ts.flatMap write ++ r).length < N := by
          refine lt_of_le_of_lt ?_ hl
          simp only [List.flatMap_cons, List.length_append]
          omega
        refine ⟨value t, ts.flatMap write ++ r, (h.ok_iff hl).mpr ⟨t, ht, by simp, rfl⟩, ?_⟩
        refine reader_bind.mpr ⟨ts.map value, r, (ih hm).mpr ⟨ts, ⟨?_, hts⟩, rfl, rfl⟩, rfl⟩
        simpa using hlength

end Reads

section Errors

/-- A row stops where one of its readers stops. -/
theorem times_error : times p n l = .error x ↔
    ∃ k as m, k < n ∧ times p k l = .ok (as, m) ∧ p m = .error x := by
  induction n generalizing l with
  | zero =>
    constructor
    · intro h
      cases h
    · rintro ⟨k, -, -, hk, -⟩
      exact absurd hk (Nat.not_lt_zero k)
  | succ n ih =>
    rw [times, reader_bind_error]
    constructor
    · rintro (hfirst | ⟨a, m, ha, hrest⟩)
      · exact ⟨0, [], l, Nat.succ_pos n, rfl, hfirst⟩
      · rcases reader_bind_error.mp hrest with hrest | ⟨_, _, -, hpure⟩
        · obtain ⟨k, as, m', hk, has, herror⟩ := ih.mp hrest
          refine ⟨k + 1, a :: as, m', Nat.succ_lt_succ hk, ?_, herror⟩
          exact reader_bind.mpr ⟨a, m, ha, reader_bind.mpr ⟨as, m', has, rfl⟩⟩
        · cases hpure
    · rintro ⟨k, as, m, hk, has, herror⟩
      cases k with
      | zero =>
        obtain ⟨-, rfl⟩ := reader_pure.mp has
        exact .inl herror
      | succ k =>
        obtain ⟨a, m', ha, hrest⟩ := reader_bind.mp has
        obtain ⟨as', m'', has', hpure⟩ := reader_bind.mp hrest
        obtain ⟨-, rfl⟩ := reader_pure.mp hpure
        refine .inr ⟨a, m', ha, reader_bind_error.mpr (.inl ?_)⟩
        exact ih.mpr ⟨k, as', m'', Nat.lt_of_succ_lt_succ hk, has', herror⟩

end Errors

end Orm.Logic
