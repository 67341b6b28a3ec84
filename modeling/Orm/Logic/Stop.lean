import Mathlib

/-! Commands that may stop before any of their writes: the state they leave behind when they
return, fail or stop. -/
namespace Orm.Logic

/-- Why a command did not return: it failed, or it stopped at a write. -/
inductive Halt (ε : Type) where
  | stopped
  | failed (e : ε)
  deriving DecidableEq, Repr

/-- A state with the number of writes that a command may still make; `none` for a command that
nothing stops. -/
structure Run (σ : Type) where
  state : σ
  writes : Option Nat

/-- A command: it returns or halts, and leaves a state behind. -/
def Cmd (σ ε α : Type) := Run σ → Except (Halt ε) α × Run σ

namespace Cmd
variable {σ ε α β : Type}

/-- Runs `f` after `x` unless `x` halts. -/
def andThen (x : Cmd σ ε α) (f : α → Cmd σ ε β) : Cmd σ ε β := fun r =>
  match x r with
  | (.ok a, r') => f a r'
  | (.error e, r') => (.error e, r')

instance : Monad (Cmd σ ε) where
  pure a := fun r => (.ok a, r)
  bind := andThen

def fail (e : ε) : Cmd σ ε α := fun r => (.error (.failed e), r)

def read : Cmd σ ε σ := fun r => (.ok r.state, r)

/-- Changes the state, unless the command stops before it does. -/
def write (f : σ → σ) : Cmd σ ε PUnit.{1} := fun r =>
  match r.writes with
  | none => (.ok ⟨⟩, ⟨f r.state, none⟩)
  | some 0 => (.error .stopped, r)
  | some (n + 1) => (.ok ⟨⟩, ⟨f r.state, some n⟩)

/-- What a pure check returns. -/
def check (x : Except ε α) : Cmd σ ε α :=
  match x with
  | .ok a => pure a
  | .error e => fail e

theorem andThen_pure (x : Cmd σ ε α) : andThen x pure = x := by
  funext r
  unfold andThen
  rcases x r with ⟨_ | _, _⟩ <;> rfl

theorem andThen_assoc {γ : Type} (x : Cmd σ ε α) (f : α → Cmd σ ε β) (g : β → Cmd σ ε γ) :
    andThen (andThen x f) g = andThen x fun a => andThen (f a) g := by
  funext r
  unfold andThen
  rcases x r with ⟨_ | _, _⟩ <;> rfl

instance : LawfulMonad (Cmd σ ε) :=
  LawfulMonad.mk' (Cmd σ ε) andThen_pure (fun _ _ => rfl) andThen_assoc

@[simp] theorem check_ok (a : α) : (check (.ok a) : Cmd σ ε α) = pure a := rfl

/-- How a command started with `n` writes ended: it returned in `A` or halted as `E` says. A
command that nothing stops does not stop. -/
def Ends (n : Option Nat) (A : α → σ → Prop) (E : Halt ε → σ → Prop) :
    Except (Halt ε) α × Run σ → Prop
  | (.ok a, r) => A a r.state ∧ (n = none → r.writes = none)
  | (.error h, r) => E h r.state ∧ (n = none → h ≠ .stopped)

/-- From a state in `I`, the command returns a value and a state in `A`, or halts as `E` says. -/
def Triple (I : σ → Prop) (x : Cmd σ ε α) (A : α → σ → Prop) (E : Halt ε → σ → Prop) : Prop :=
  ∀ r, I r.state → Ends r.writes A E (x r)

variable {I I' : σ → Prop} {E E' : Halt ε → σ → Prop} {A A' : α → σ → Prop} {B : β → σ → Prop}
  {x : Cmd σ ε α} {f : α → Cmd σ ε β}

theorem Ends.weaken {m n : Option Nat} {o : Except (Halt ε) α × Run σ} (h : Ends n A E o)
    (hmn : m = none → n = none) : Ends m A E o := by
  rcases o with ⟨e | a, r⟩
  · exact ⟨h.1, fun hm => h.2 (hmn hm)⟩
  · exact ⟨h.1, fun hm => h.2 (hmn hm)⟩

namespace Triple

theorem pure {a : α} (h : ∀ s, I s → A a s) : Triple I (pure a) A E :=
  fun r hr => ⟨h r.state hr, id⟩

theorem fail {e : ε} (h : ∀ s, I s → E (.failed e) s) : Triple I (Cmd.fail e) A E :=
  fun r hr => ⟨h r.state hr, fun _ => by simp⟩

theorem bind (hx : Triple I x A E) (hf : ∀ a, Triple (A a) (f a) B E) :
    Triple I (x >>= f) B E := by
  intro r hr
  have hxr := hx r hr
  change Ends r.writes B E (andThen x f r)
  unfold andThen
  rcases hrun : x r with ⟨e | a, r'⟩
  · rw [hrun] at hxr
    exact hxr
  · rw [hrun] at hxr
    exact (hf a r' hxr.1).weaken hxr.2

theorem mono (hx : Triple I x A E) (hI : ∀ s, I' s → I s) (hA : ∀ a s, A a s → A' a s)
    (hE : ∀ h s, E h s → E' h s) : Triple I' x A' E' := by
  intro r hr
  have hxr := hx r (hI _ hr)
  rcases hrun : x r with ⟨e | a, r'⟩
  · rw [hrun] at hxr
    exact ⟨hE _ _ hxr.1, hxr.2⟩
  · rw [hrun] at hxr
    exact ⟨hA _ _ hxr.1, hxr.2⟩

/-- A part of the precondition that does not depend on the state. -/
theorem assume {φ : Prop} (h : φ → Triple I x A E) : Triple (fun s => φ ∧ I s) x A E :=
  fun r hr => h hr.1 r hr.2

/-- After a read the state is known. -/
theorem read_bind {f : σ → Cmd σ ε β} (h : ∀ s, I s → Triple (fun t => t = s) (f s) B E) :
    Triple I (Cmd.read >>= f) B E :=
  fun r hr => h r.state hr r rfl

theorem write {g : σ → σ} {U : PUnit.{1} → σ → Prop} (hs : ∀ s, I s → U ⟨⟩ (g s))
    (hE : ∀ s, I s → E .stopped s) : Triple I (Cmd.write g) U E := by
  rintro ⟨s, _ | _ | n⟩ hr
  · exact ⟨hs s hr, id⟩
  · exact ⟨hE s hr, by simp⟩
  · exact ⟨hs s hr, by simp⟩

section Known
variable {s : σ}

/-- A triple from every single state. -/
theorem of_known (h : ∀ s, I s → Triple (fun t => t = s) x A E) : Triple I x A E :=
  fun r hr => h r.state hr r rfl

theorem pure_known {a : α} (h : A a s) : Triple (fun t => t = s) (Pure.pure a) A E :=
  pure fun _ ht => ht ▸ h

theorem fail_known {e : ε} (h : E (.failed e) s) : Triple (fun t => t = s) (Cmd.fail e) A E :=
  fail fun _ ht => ht ▸ h

theorem read_known {f : σ → Cmd σ ε β} (h : Triple (fun t => t = s) (f s) B E) :
    Triple (fun t => t = s) (Cmd.read >>= f) B E :=
  read_bind fun _ ht => ht ▸ h

theorem write_known {g : σ → σ} {U : PUnit.{1} → σ → Prop} (h : U ⟨⟩ (g s))
    (hE : E .stopped s) : Triple (fun t => t = s) (Cmd.write g) U E :=
  write (fun _ ht => ht ▸ h) fun _ ht => ht ▸ hE

end Known

theorem check {c : Except ε α} (hok : ∀ a, c = .ok a → ∀ s, I s → A a s)
    (hE : ∀ e, c = .error e → ∀ s, I s → E (.failed e) s) : Triple I (Cmd.check c) A E := by
  cases c with
  | ok a => exact pure (hok a rfl)
  | error e => exact fail (hE e rfl)

theorem returns (hx : Triple I x A E) {s s' : σ} {n k : Option Nat} {a : α}
    (hrun : x ⟨s, n⟩ = (.ok a, ⟨s', k⟩)) (hs : I s) : A a s' := by
  have hr := hx ⟨s, n⟩ hs
  rw [hrun] at hr
  exact hr.1

end Triple

end Cmd

end Orm.Logic
