import Mathlib

/-! Runs of steps over a store of keyed values: steps that change nothing, programs that change one
key each, and keys that move. -/
namespace Orm.Logic

section Steps
variable {α β σ : Type} {exec : α → σ → Option σ} {l l' : List α} {s t u : σ}

/-- Runs steps in order; the run stops at the first step that cannot run. -/
def runSteps (exec : α → σ → Option σ) (l : List α) (s : σ) : Option σ :=
  l.foldlM (fun s a => exec a s) s

@[simp] theorem runSteps_nil : runSteps exec [] s = some s := rfl

@[simp] theorem runSteps_cons {a : α} :
    runSteps exec (a :: l) s = (exec a s).bind (runSteps exec l) := rfl

theorem runSteps_append : runSteps exec (l ++ l') s = (runSteps exec l s).bind (runSteps exec l') := by
  simp only [runSteps, List.foldlM_append]
  rfl

theorem runSteps_append_of (h : runSteps exec l s = some t) :
    runSteps exec (l ++ l') s = runSteps exec l' t := by
  rw [runSteps_append, h]
  rfl

theorem runSteps_cons_of {a : α} (h : exec a s = some t) :
    runSteps exec (a :: l) s = runSteps exec l t := by
  rw [runSteps_cons, h]
  rfl

theorem runSteps_append_eq_some : runSteps exec (l ++ l') s = some u ↔
    ∃ t, runSteps exec l s = some t ∧ runSteps exec l' t = some u := by
  rw [runSteps_append, Option.bind_eq_some_iff]

theorem runSteps_map {f : β → α} {l : List β} :
    runSteps exec (l.map f) s = runSteps (fun b => exec (f b)) l s := List.foldlM_map ..

/-- Steps that leave a state as it is. -/
theorem runSteps_same (h : ∀ a ∈ l, exec a s = some s) : runSteps exec l s = some s := by
  induction l with
  | nil => rfl
  | cons a l ih =>
    rw [runSteps_cons_of (h a List.mem_cons_self)]
    exact ih fun b hb => h b (List.mem_cons_of_mem _ hb)

section Takes
variable {τ : Type} {P : τ → σ → Prop} {f g : α → τ}

/-- Steps that each take an old name and leave at most a new one: a name that is not there is not
taken, unless a step leaves it. -/
theorem runSteps_absent (hstep : ∀ a ∈ l, ∀ s s', exec a s = some s' →
      P (f a) s ∧ ¬ P (f a) s' ∧ ∀ k, P k s' → P k s ∨ k = g a)
    (hrun : runSteps exec l s = some t) {k : τ} (hk : ¬ P k s) (hnew : k ∉ l.map g) :
    k ∉ l.map f := by
  induction l generalizing s with
  | nil => simp
  | cons a l ih =>
    obtain ⟨s', hfirst, hrest⟩ := Option.bind_eq_some_iff.mp hrun
    obtain ⟨hthere, _, hframe⟩ := hstep a List.mem_cons_self s s' hfirst
    rw [List.map_cons, List.mem_cons, not_or] at hnew ⊢
    refine ⟨fun heq => hk (heq ▸ hthere), ih (fun b hb => hstep b (List.mem_cons_of_mem _ hb)) hrest
      (fun h => ?_) hnew.2⟩
    exact (hframe k h).elim hk hnew.1

/-- A run of such steps takes no name twice when it leaves none of the names that it takes. -/
theorem runSteps_takes (hstep : ∀ a ∈ l, ∀ s s', exec a s = some s' →
      P (f a) s ∧ ¬ P (f a) s' ∧ ∀ k, P k s' → P k s ∨ k = g a)
    (hrun : runSteps exec l s = some t) (hnew : ∀ k ∈ l.map f, k ∉ l.map g) :
    (l.map f).Nodup := by
  induction l generalizing s with
  | nil => exact List.nodup_nil
  | cons a l ih =>
    obtain ⟨s', hfirst, hrest⟩ := Option.bind_eq_some_iff.mp hrun
    obtain ⟨_, hgone, _⟩ := hstep a List.mem_cons_self s s' hfirst
    have hlater := fun b hb => hstep b (List.mem_cons_of_mem a hb)
    have hapart : ∀ k ∈ f a :: l.map f, k ∉ l.map g := fun k hk hm =>
      hnew k hk (List.mem_cons_of_mem _ hm)
    exact List.nodup_cons.mpr ⟨runSteps_absent hlater hrest hgone (hapart _ List.mem_cons_self),
      ih hlater hrest fun k hk => hapart k (List.mem_cons_of_mem _ hk)⟩

end Takes

end Steps

section Keys
variable {α β κ ρ : Type} [DecidableEq κ]

/-- Programs that each change their own key: the keys have the outcomes of their programs, and the
other keys stay. -/
theorem runSteps_each {exec : α → (κ → Option ρ) → Option (κ → Option ρ)} {g : β → List α}
    {f : β → κ} {o : β → Option ρ} {P : β → (κ → Option ρ) → Prop} {items : List β}
    {s : κ → Option ρ} (hkeys : (items.map f).Nodup)
    (hstay : ∀ b ∈ items, ∀ b' ∈ items, f b ≠ f b' → ∀ s, P b s →
      P b (Function.update s (f b') (o b')))
    (hrun : ∀ b ∈ items, ∀ s, P b s →
      runSteps exec (g b) s = some (Function.update s (f b) (o b)))
    (hs : ∀ b ∈ items, P b s) :
    ∃ s', runSteps exec (items.flatMap g) s = some s' ∧ (∀ b ∈ items, s' (f b) = o b) ∧
      ∀ k ∉ items.map f, s' k = s k := by
  induction items generalizing s with
  | nil => exact ⟨s, rfl, by simp, fun _ _ => rfl⟩
  | cons b items ih =>
    have hhead := hrun b List.mem_cons_self s (hs b List.mem_cons_self)
    have hnodup := List.nodup_cons.mp hkeys
    have hne : ∀ b' ∈ items, f b' ≠ f b := fun b' hb' heq =>
      hnodup.1 (heq ▸ List.mem_map_of_mem hb')
    obtain ⟨s', hrest, hkeep, hframe⟩ := ih hnodup.2
      (fun c hc c' hc' => hstay c (List.mem_cons_of_mem _ hc) c' (List.mem_cons_of_mem _ hc'))
      (fun c hc => hrun c (List.mem_cons_of_mem _ hc))
      (s := Function.update s (f b) (o b)) fun c hc =>
        hstay c (List.mem_cons_of_mem _ hc) b List.mem_cons_self (hne c hc) s
          (hs c (List.mem_cons_of_mem _ hc))
    refine ⟨s', ?_, ?_, ?_⟩
    · rw [List.flatMap_cons, runSteps_append_of hhead]
      exact hrest
    · intro c hc
      rcases List.mem_cons.mp hc with rfl | hc
      · rw [hframe _ hnodup.1, Function.update_self]
      · exact hkeep c hc
    · intro k hk
      rw [List.map_cons, List.mem_cons, not_or] at hk
      rw [hframe k hk.2, Function.update_of_ne hk.1]

section Turns
variable {exec : α → (κ → Option ρ) → Option (κ → Option ρ)} {k : κ} {prog prog' : List α}
  {r r' r'' : ρ}

/-- The program turns the value of a key from one into another and changes no other key. -/
def Turns (exec : α → (κ → Option ρ) → Option (κ → Option ρ)) (k : κ) (prog : List α) (r r' : ρ) :
    Prop :=
  ∀ s, s k = some r → runSteps exec prog s = some (Function.update s k (some r'))

theorem Turns.nil : Turns exec k [] r r := by
  intro s hs
  rw [runSteps_nil, ← hs, Function.update_eq_self]

theorem Turns.append (h : Turns exec k prog r r') (h' : Turns exec k prog' r' r'') :
    Turns exec k (prog ++ prog') r r'' := by
  intro s hs
  rw [runSteps_append_of (h s hs), h' _ (Function.update_self ..), Function.update_idem]

theorem Turns.cons {a : α} (h : Turns exec k [a] r r') (h' : Turns exec k prog r' r'') :
    Turns exec k (a :: prog) r r'' := h.append h'

/-- Changes the value of one key. -/
def onKey (k : κ) (f : ρ → Option ρ) (s : κ → Option ρ) : Option (κ → Option ρ) :=
  (s k).bind fun r => (f r).map fun r' => Function.update s k (some r')

theorem Turns.onKey {a : α} {f : ρ → Option ρ} (ha : ∀ s, exec a s = onKey k f s)
    (hf : f r = some r') : Turns exec k [a] r r' := by
  intro s hs
  rw [runSteps_cons, ha, Orm.Logic.onKey, hs, Option.bind_some, hf]
  rfl

end Turns

/-- Moves the value of a key to a key without one. -/
def moveKey (old new : κ) (s : κ → Option ρ) : Option (κ → Option ρ) :=
  match s old, s new with
  | some r, none => some (Function.update (Function.update s old none) new (some r))
  | _, _ => none

theorem moveKey_eq_some {old new : κ} {s : κ → Option ρ} {r : ρ} (hold : s old = some r)
    (hnew : s new = none) :
    moveKey old new s = some (Function.update (Function.update s old none) new (some r)) := by
  unfold moveKey
  rw [hold, hnew]

theorem moveKey_spec {old new : κ} {s s' : κ → Option ρ} (h : moveKey old new s = some s') :
    (∃ r, s old = some r ∧ s' new = some r) ∧ s new = none ∧ s' old = none ∧
      ∀ k, k ≠ old → k ≠ new → s' k = s k := by
  unfold moveKey at h
  split at h
  · next r hold hnew =>
    obtain rfl := Option.some.inj h
    have hne : old ≠ new := by
      rintro rfl
      rw [hold] at hnew
      cases hnew
    refine ⟨⟨r, hold, Function.update_self ..⟩, hnew, ?_, ?_⟩
    · rw [Function.update_of_ne hne, Function.update_self]
    · intro k hk hk'
      rw [Function.update_of_ne hk', Function.update_of_ne hk]
  · cases h

/-- Moves of distinct keys to distinct keys without values. -/
theorem run_moves {l : List (κ × κ)} {s : κ → Option ρ} (hold : (l.map Prod.fst).Nodup)
    (hnew : (l.map Prod.snd).Nodup) (hsome : ∀ e ∈ l, (s e.1).isSome)
    (hnone : ∀ e ∈ l, s e.2 = none) :
    ∃ s', runSteps (fun e => moveKey e.1 e.2) l s = some s' ∧ (∀ e ∈ l, s' e.2 = s e.1) ∧
      (∀ e ∈ l, s' e.1 = none) ∧
      ∀ k, k ∉ l.map Prod.fst → k ∉ l.map Prod.snd → s' k = s k := by
  induction l generalizing s with
  | nil => exact ⟨s, rfl, by simp, by simp, fun _ _ _ => rfl⟩
  | cons e l ih =>
    obtain ⟨holdHead, holdTail⟩ := List.nodup_cons.mp hold
    obtain ⟨hnewHead, hnewTail⟩ := List.nodup_cons.mp hnew
    obtain ⟨r, hr⟩ := Option.isSome_iff_exists.mp (hsome e List.mem_cons_self)
    obtain ⟨t, hmove⟩ : ∃ t, moveKey e.1 e.2 s = some t :=
      ⟨_, moveKey_eq_some hr (hnone e List.mem_cons_self)⟩
    obtain ⟨⟨r', hr', hmoved⟩, hfree, hgone, hframe⟩ := moveKey_spec hmove
    -- an old key of the rest is neither key of the first move, and so is a new one
    have hapart : ∀ e' ∈ l, (e'.1 ≠ e.1 ∧ e'.1 ≠ e.2) ∧ e'.2 ≠ e.1 ∧ e'.2 ≠ e.2 := by
      intro e' he'
      have hmem : e' ∈ e :: l := List.mem_cons_of_mem _ he'
      refine ⟨⟨fun h => holdHead (h ▸ List.mem_map_of_mem he'), fun h => ?_⟩, fun h => ?_,
        fun h => hnewHead (h ▸ List.mem_map_of_mem he')⟩
      · have := hsome e' hmem
        rw [h, hfree] at this
        cases this
      · have := hnone e' hmem
        rw [h, hr] at this
        cases this
    obtain ⟨s', hrun, hthere, haway, hrest⟩ := ih (s := t) holdTail hnewTail
      (fun e' he' => by
        rw [hframe _ (hapart e' he').1.1 (hapart e' he').1.2]
        exact hsome e' (List.mem_cons_of_mem _ he'))
      fun e' he' => by
        rw [hframe _ (hapart e' he').2.1 (hapart e' he').2.2]
        exact hnone e' (List.mem_cons_of_mem _ he')
    have hstay : ∀ k, k = e.1 ∨ k = e.2 → k ∉ l.map Prod.fst ∧ k ∉ l.map Prod.snd := by
      rintro k (rfl | rfl)
      · refine ⟨holdHead, fun hm => ?_⟩
        obtain ⟨e', he', heq⟩ := List.mem_map.mp hm
        exact (hapart e' he').2.1 heq
      · refine ⟨fun hm => ?_, hnewHead⟩
        obtain ⟨e', he', heq⟩ := List.mem_map.mp hm
        exact (hapart e' he').1.2 heq
    refine ⟨s', ?_, ?_, ?_, ?_⟩
    · rw [runSteps_cons, hmove]
      exact hrun
    · intro e' he'
      rcases List.mem_cons.mp he' with rfl | he'
      · have hk := hstay e'.2 (.inr rfl)
        rw [hrest _ hk.1 hk.2, hmoved, hr']
      · rw [hthere e' he', hframe _ (hapart e' he').1.1 (hapart e' he').1.2]
    · intro e' he'
      rcases List.mem_cons.mp he' with rfl | he'
      · have hk := hstay e'.1 (.inl rfl)
        rw [hrest _ hk.1 hk.2, hgone]
      · exact haway e' he'
    · intro k hk hk'
      rw [List.map_cons, List.mem_cons, not_or] at hk hk'
      rw [hrest k hk.2 hk'.2, hframe k hk.1 hk'.1]

/-- Moves that run take no key twice when no key is both an old and a new one. -/
theorem moves_once {l : List (κ × κ)} {s t : κ → Option ρ}
    (hrun : runSteps (fun e => moveKey e.1 e.2) l s = some t)
    (hapart : ∀ e ∈ l, ∀ e' ∈ l, e.1 ≠ e'.2) : (l.map Prod.fst).Nodup := by
  refine runSteps_takes (g := Prod.snd) (P := fun k (s : κ → Option ρ) => (s k).isSome)
    (fun e _ s s' hmove => ?_) hrun ?_
  · obtain ⟨⟨r, hr, _⟩, _, hgone, hframe⟩ := moveKey_spec hmove
    refine ⟨by rw [hr]; rfl, by rw [hgone]; nofun, fun k hk => ?_⟩
    by_cases hnew : k = e.2
    · exact .inr hnew
    · refine .inl ?_
      by_cases hold : k = e.1
      · rw [hold, hr]
        rfl
      · rwa [hframe k hold hnew] at hk
  · intro k hk hm
    obtain ⟨e, he, rfl⟩ := List.mem_map.mp hk
    obtain ⟨e', he', heq⟩ := List.mem_map.mp hm
    exact hapart e he e' he' heq.symm

end Keys

end Orm.Logic
