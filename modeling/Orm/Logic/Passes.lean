import Orm.Logic.Holds

/-! Passes over one value. A first pass rewrites it, and a second pass over its result does what a
third pass does over the value itself. -/
namespace Orm.Logic

variable {σ τ υ ε ε₁ ε₂ α α' β β' γ δ : Type}

/-- When `w` succeeds in a state that ends `Good`, then `v` on its result and `u` succeed with
equal results, and they keep `I`. -/
def Passes (Good : σ → Prop) (I : σ → τ → υ → Prop) (w : StateT σ (Except ε) α)
    (v : α → StateT τ (Except ε₁) β) (u : StateT υ (Except ε₂) β) : Prop :=
  ∀ s a s', w s = .ok (a, s') → Good s' → Good s ∧ ∀ t x, I s t x →
    ∃ b t' x', v a t = .ok (b, t') ∧ u x = .ok (b, x') ∧ I s' t' x'

/-- Runs two passes one after the other. -/
def both (x : StateT σ (Except ε) α) (y : StateT σ (Except ε) β) : StateT σ (Except ε) (α × β) := do
  let a ← x
  let b ← y
  pure (a, b)

theorem run_pure {a : α} {s : σ} : (pure a : StateT σ (Except ε) α) s = .ok (a, s) := rfl

theorem run_bind_ok {x : StateT σ (Except ε) α} {f : α → StateT σ (Except ε) β} {s t : σ} {a : α}
    (h : x s = .ok (a, t)) : (x >>= f) s = f a t := by
  change (x s >>= fun p => f p.1 p.2) = _
  rw [h]
  rfl

theorem run_map_ok {x : StateT σ (Except ε) α} {f : α → β} {s t : σ} {a : α}
    (h : x s = .ok (a, t)) : (f <$> x) s = .ok (f a, t) := by
  change (x s >>= fun p => pure (f p.1, p.2)) = _
  rw [h]
  rfl

theorem run_both_ok {x : StateT σ (Except ε) α} {y : StateT σ (Except ε) β} {s t t' : σ} {a : α}
    {b : β} (hx : x s = .ok (a, t)) (hy : y t = .ok (b, t')) :
    both x y s = .ok ((a, b), t') := by
  rw [both, run_bind_ok hx, run_bind_ok hy, run_pure]

namespace Passes
variable {Good : σ → Prop} {I : σ → τ → υ → Prop}

theorem pure {a : α} {b : β} {v : α → StateT τ (Except ε₁) β} (h : v a = pure b) :
    Passes Good I (pure a : StateT σ (Except ε) α) v (pure b : StateT υ (Except ε₂) β) := by
  intro s a' s' hw hgood
  cases hw
  refine ⟨hgood, fun t x hi => ⟨b, t, x, ?_, rfl, hi⟩⟩
  rw [h]
  rfl

theorem both {w : StateT σ (Except ε) α} {v : α → StateT τ (Except ε₁) β}
    {u : StateT υ (Except ε₂) β} {w' : StateT σ (Except ε) α'}
    {v' : α' → StateT τ (Except ε₁) β'} {u' : StateT υ (Except ε₂) β'}
    (h : Passes Good I w v u) (h' : Passes Good I w' v' u') :
    Passes Good I (both w w') (fun p => Logic.both (v p.1) (v' p.2)) (Logic.both u u') := by
  intro s p s₂ hw hgood
  obtain ⟨⟨a, s₁⟩, hw₁, hw₂⟩ := ok_bind.mp hw
  obtain ⟨⟨a', s₂'⟩, hw₂, hpure⟩ := ok_bind.mp hw₂
  cases hpure
  obtain ⟨hgood₁, h'⟩ := h' s₁ a' s₂ hw₂ hgood
  obtain ⟨hgood₀, h⟩ := h s a s₁ hw₁ hgood₁
  refine ⟨hgood₀, fun t x hi => ?_⟩
  obtain ⟨b, t₁, x₁, hv₁, hu₁, hi₁⟩ := h t x hi
  obtain ⟨b', t₂, x₂, hv₂, hu₂, hi₂⟩ := h' t₁ x₁ hi₁
  exact ⟨(b, b'), t₂, x₂, run_both_ok hv₁ hv₂, run_both_ok hu₁ hu₂, hi₂⟩

/-- Passes over the parts of a value are passes over the value, for the results in `A` that the
first pass may have. -/
theorem mapOf {w : StateT σ (Except ε) α} {v : α → StateT τ (Except ε₁) β}
    {u : StateT υ (Except ε₂) β} (h : Passes Good I w v u) {A : α → Prop}
    (hA : Holds (fun _ => True) w A) {f : α → γ} {g : β → δ} {V : γ → StateT τ (Except ε₁) δ}
    (hv : ∀ a, A a → V (f a) = g <$> v a) : Passes Good I (f <$> w) V (g <$> u) := by
  intro s c s' hw hgood
  obtain ⟨⟨a, s₁⟩, hw, hpure⟩ := ok_bind.mp hw
  cases hpure
  obtain ⟨hgood₀, h⟩ := h s a s' hw hgood
  refine ⟨hgood₀, fun t x hi => ?_⟩
  obtain ⟨b, t', x', hvb, hub, hi'⟩ := h t x hi
  refine ⟨g b, t', x', ?_, run_map_ok hub, hi'⟩
  rw [hv a (hA s a s' hw trivial).2, run_map_ok hvb]

theorem map {w : StateT σ (Except ε) α} {v : α → StateT τ (Except ε₁) β}
    {u : StateT υ (Except ε₂) β} (h : Passes Good I w v u) {f : α → γ} {g : β → δ}
    {V : γ → StateT τ (Except ε₁) δ} (hv : ∀ a, V (f a) = g <$> v a) :
    Passes Good I (f <$> w) V (g <$> u) :=
  h.mapOf (A := fun _ => True) (fun _ _ _ _ _ => ⟨trivial, trivial⟩) fun a _ => hv a

theorem mapM {w : α → StateT σ (Except ε) α'} {v : α' → StateT τ (Except ε₁) β}
    {u : α → StateT υ (Except ε₂) β} (l : List α) (h : ∀ a ∈ l, Passes Good I (w a) v (u a)) :
    Passes Good I (l.mapM w) (fun l' => l'.mapM v) (l.mapM u) := by
  induction l with
  | nil => exact pure rfl
  | cons a l ih =>
    have hrest := ih fun a' ha' => h a' (List.mem_cons_of_mem _ ha')
    have hall := (h a List.mem_cons_self).both hrest
    have hcons := hall.map (f := fun p => p.1 :: p.2) (g := fun p => p.1 :: p.2)
      (V := fun l' => l'.mapM v) fun p => by
        simp only [Logic.both, map_bind, map_pure, List.mapM_cons]
    simpa only [Logic.both, map_bind, map_pure, List.mapM_cons] using hcons

end Passes

end Orm.Logic
