import Orm.Logic.Holds

/-! Computations that only add to a log: what a run adds, with the places that it takes there. -/
namespace Orm.Logic

variable {σ ε α β τ : Type}

/-- A successful run adds entries to the log; its value with these entries at their places is in
`A`. -/
def Adds (log : σ → List τ) (x : StateT σ (Except ε) α) (A : α → List (τ × Nat) → Prop) : Prop :=
  ∀ s a s', x s = .ok (a, s') → ∃ new, log s' = log s ++ new ∧ A a (new.zipIdx (log s).length)

/-- The values that a list gives in turn, with the entries that each adds. -/
inductive InTurn (R : α → β → List τ → Prop) : List α → List β → List τ → Prop where
  | nil : InTurn R [] [] []
  | cons {a : α} {b : β} {l : List τ} {as : List α} {bs : List β} {ls : List τ}
    (head : R a b l) (tail : InTurn R as bs ls) : InTurn R (a :: as) (b :: bs) (l ++ ls)

namespace Adds
variable {log : σ → List τ} {A : α → List (τ × Nat) → Prop} {B : β → List (τ × Nat) → Prop}

theorem mono {A' : α → List (τ × Nat) → Prop} {x : StateT σ (Except ε) α} (hx : Adds log x A)
    (h : ∀ a l, A a l → A' a l) : Adds log x A' := by
  intro s a s' hr
  obtain ⟨new, hlog, hA⟩ := hx s a s' hr
  exact ⟨new, hlog, h a _ hA⟩

theorem pure {a : α} (h : A a []) : Adds (ε := ε) log (pure a) A := by
  intro s b s' hr
  obtain ⟨rfl, rfl⟩ : a = b ∧ s = s' := by
    simpa [Pure.pure, StateT.pure, Except.pure] using hr
  exact ⟨[], (List.append_nil _).symm, h⟩

theorem bind {x : StateT σ (Except ε) α} {f : α → StateT σ (Except ε) β} (hx : Adds log x A)
    (hf : ∀ a l, A a l → Adds log (f a) fun b l' => B b (l ++ l')) : Adds log (x >>= f) B := by
  intro s b s' hr
  obtain ⟨⟨a, t⟩, ha, hb⟩ := ok_bind.mp hr
  obtain ⟨new, hlog, hA⟩ := hx s a t ha
  obtain ⟨new', hlog', hB⟩ := hf a _ hA t b s' hb
  refine ⟨new ++ new', by rw [hlog', hlog, List.append_assoc], ?_⟩
  rwa [List.zipIdx_append, ← List.length_append, ← hlog]

theorem map {x : StateT σ (Except ε) α} {f : α → β} (hx : Adds log x fun a l => B (f a) l) :
    Adds log (f <$> x) B := by
  intro s b s' hr
  obtain ⟨⟨a, t⟩, ha, hb⟩ := ok_bind.mp hr
  obtain ⟨rfl, rfl⟩ : f a = b ∧ t = s' := by simpa [Pure.pure, Except.pure] using hb
  exact hx s a t ha

theorem lift {x : Except ε α} (h : ∀ a, x = .ok a → A a []) :
    Adds log (liftM x : StateT σ (Except ε) α) A := by
  intro s a s' hr
  obtain ⟨b, hb, hr⟩ := ok_bind.mp hr
  obtain ⟨rfl, rfl⟩ : b = a ∧ s = s' := by simpa [Pure.pure, Except.pure] using hr
  exact ⟨[], (List.append_nil _).symm, h b hb⟩

theorem lift_bind {x : Except ε α} {f : α → StateT σ (Except ε) β}
    (h : ∀ a, x = .ok a → Adds log (f a) B) :
    Adds log ((liftM x : StateT σ (Except ε) α) >>= f) B := by
  refine bind (lift (A := fun a l => x = .ok a ∧ l = []) fun a ha => ⟨ha, rfl⟩) ?_
  rintro a l ⟨ha, rfl⟩
  exact h a ha

theorem error {x : StateT σ (Except ε) α} (h : ∀ s r, x s ≠ .ok r) : Adds log x A :=
  fun s _ _ hr => absurd hr (h s _)

theorem ite {c : Prop} [Decidable c] {x y : StateT σ (Except ε) α} (hx : c → Adds log x A)
    (hy : ¬ c → Adds log y A) : Adds log (if c then x else y) A := by
  split
  · exact hx ‹_›
  · exact hy ‹_›

theorem mapM {R : α → β → List (τ × Nat) → Prop} {f : α → StateT σ (Except ε) β} {l : List α}
    (h : ∀ a ∈ l, Adds log (f a) (R a)) : Adds log (l.mapM f) (InTurn R l) := by
  induction l with
  | nil => exact pure .nil
  | cons a l ih =>
    rw [List.mapM_cons]
    refine bind (h a List.mem_cons_self) fun b lb hb => ?_
    refine bind (ih fun c hc => h c (List.mem_cons_of_mem _ hc)) fun bs lbs hbs => ?_
    refine pure ?_
    rw [List.append_nil]
    exact .cons hb hbs

theorem mapM_lift {f : α → Except ε β} (l : List α) :
    Adds log (l.mapM fun a => (liftM (f a) : StateT σ (Except ε) β)) fun bs l' =>
      List.Forall₂ (fun a b => f a = .ok b) l bs ∧ l' = [] := by
  induction l with
  | nil => exact pure ⟨.nil, rfl⟩
  | cons a l ih =>
    rw [List.mapM_cons]
    refine lift_bind fun b hb => bind ih ?_
    rintro bs _ ⟨hbs, rfl⟩
    exact pure ⟨.cons hb hbs, rfl⟩

end Adds

end Orm.Logic
