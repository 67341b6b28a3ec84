import Mathlib

/-! Rules for computations that may fail: what a successful run returns, and which invariant of
the state it keeps. -/
namespace Orm.Logic

variable {σ ε α β : Type}

theorem ok_bind {x : Except ε α} {f : α → Except ε β} {b : β} :
    (x >>= f) = .ok b ↔ ∃ a, x = .ok a ∧ f a = .ok b := by
  cases x with
  | error e => simp [bind, Except.bind]
  | ok a => simp [bind, Except.bind]

theorem exists_ok {x : Except ε α} (h : x.isOk = true) : ∃ a, x = .ok a := by
  cases x with
  | error e => cases h
  | ok a => exact ⟨a, rfl⟩

theorem ok_forM {f : α → Except ε PUnit.{1}} {l : List α} {u : PUnit.{1}}
    (h : l.forM f = .ok u) : ∀ a ∈ l, f a = .ok ⟨⟩ := by
  induction l with
  | nil => simp
  | cons a l ih =>
    obtain ⟨_, ha, hl⟩ := ok_bind.mp h
    intro c hc
    rcases List.mem_cons.mp hc with rfl | hc
    · exact ha
    · exact ih hl c hc

theorem ok_mapM {f : α → Except ε β} {l : List α} {bs : List β} (h : l.mapM f = .ok bs) :
    List.Forall₂ (fun a b => f a = .ok b) l bs := by
  induction l generalizing bs with
  | nil =>
    obtain rfl : [] = bs := by simpa [pure, Except.pure] using h
    exact .nil
  | cons a l ih =>
    rw [List.mapM_cons] at h
    obtain ⟨b, hb, h⟩ := ok_bind.mp h
    obtain ⟨rest, hrest, h⟩ := ok_bind.mp h
    obtain rfl : b :: rest = bs := by simpa [pure, Except.pure] using h
    exact .cons hb (ih hrest)

/-- A run of `x` that succeeds keeps `I` and returns a value in `A`. -/
def Holds (I : σ → Prop) (x : StateT σ (Except ε) α) (A : α → Prop) : Prop :=
  ∀ s a s', x s = .ok (a, s') → I s → I s' ∧ A a

namespace Holds
variable {I : σ → Prop} {A : α → Prop} {B : β → Prop}

theorem mono {A' : α → Prop} {x : StateT σ (Except ε) α} (hx : Holds I x A)
    (h : ∀ a, A a → A' a) : Holds I x A' :=
  fun s a s' hr hs => ⟨(hx s a s' hr hs).1, h a (hx s a s' hr hs).2⟩

theorem pure {a : α} (h : A a) : Holds (ε := ε) I (pure a) A := by
  intro s b s' hr hs
  obtain ⟨rfl, rfl⟩ : a = b ∧ s = s' := by
    simpa [Pure.pure, StateT.pure, Except.pure] using hr
  exact ⟨hs, h⟩

theorem bind {x : StateT σ (Except ε) α} {f : α → StateT σ (Except ε) β} (hx : Holds I x A)
    (hf : ∀ a, A a → Holds I (f a) B) : Holds I (x >>= f) B := by
  intro s b s' hr hs
  obtain ⟨⟨a, t⟩, ha, hb⟩ := ok_bind.mp hr
  obtain ⟨ht, hA⟩ := hx s a t ha hs
  exact hf a hA t b s' hb ht

theorem map {x : StateT σ (Except ε) α} {f : α → β} (hx : Holds I x fun a => B (f a)) :
    Holds I (f <$> x) B := by
  intro s b s' hr hs
  obtain ⟨⟨a, t⟩, ha, hb⟩ := ok_bind.mp hr
  obtain ⟨rfl, rfl⟩ : f a = b ∧ t = s' := by simpa [Pure.pure, Except.pure] using hb
  exact hx s a t ha hs

theorem lift {x : Except ε α} (h : ∀ a, x = .ok a → A a) :
    Holds I (liftM x : StateT σ (Except ε) α) A := by
  intro s a s' hr hs
  obtain ⟨b, hb, hr⟩ := ok_bind.mp hr
  obtain ⟨rfl, rfl⟩ : b = a ∧ s = s' := by simpa [Pure.pure, Except.pure] using hr
  exact ⟨hs, h b hb⟩

theorem error {x : StateT σ (Except ε) α} (h : ∀ s r, x s ≠ .ok r) : Holds I x A :=
  fun s _ _ hr => absurd hr (h s _)

theorem mapM {R : α → β → Prop} {f : α → StateT σ (Except ε) β} {l : List α}
    (h : ∀ a ∈ l, Holds I (f a) (R a)) : Holds I (l.mapM f) (List.Forall₂ R l) := by
  induction l with
  | nil => exact pure .nil
  | cons a l ih =>
    rw [List.mapM_cons]
    refine bind (h a List.mem_cons_self) fun b hb => ?_
    refine bind (ih fun c hc => h c (List.mem_cons_of_mem _ hc)) fun bs hbs => ?_
    exact pure (.cons hb hbs)

end Holds

end Orm.Logic
