import Orm.Logic.Holds

/-! Programs that take names, each of them once. -/
namespace Orm.Logic

variable {ν ε α β : Type}

/-- Takes a name, or fails with `e` when it is taken. -/
def takeName [DecidableEq ν] (e : ε) (name : ν) : StateT (List ν) (Except ε) Unit := fun taken =>
  if name ∈ taken then .error e else .ok ((), name :: taken)

/-- The program takes exactly `names` and returns `a`, and it fails only on a name that is taken. -/
def Takes (x : StateT (List ν) (Except ε) α) (names : List ν) (a : α) : Prop :=
  ∀ taken r, x taken = .ok r ↔
    names.Nodup ∧ names.Disjoint taken ∧ r = (a, names.reverse ++ taken)

theorem nodup_append_taken {names more taken : List ν} :
    (names ++ more).Nodup ∧ (names ++ more).Disjoint taken ↔
      (names.Nodup ∧ names.Disjoint taken) ∧
        more.Nodup ∧ more.Disjoint (names.reverse ++ taken) := by
  rw [List.nodup_append', List.disjoint_append_left, List.disjoint_append_right,
    List.disjoint_reverse_right, @List.disjoint_comm _ more names]
  tauto

theorem nodup_cons_append {name : ν} {names taken : List ν}
    (h : (name :: names ++ taken).Nodup) : name ∉ taken ∧ (names ++ name :: taken).Nodup := by
  have hmiddle := List.nodup_middle.mpr h
  exact ⟨(List.nodup_cons.mp (List.nodup_append'.mp hmiddle).2.1).1, hmiddle⟩

namespace Takes

theorem pure (a : α) : Takes (Pure.pure a : StateT (List ν) (Except ε) α) [] a := by
  intro taken r
  constructor
  · intro h
    cases h
    exact ⟨List.nodup_nil, List.disjoint_nil_left _, rfl⟩
  · rintro ⟨-, -, rfl⟩
    rfl

theorem bind {x : StateT (List ν) (Except ε) α} {f : α → StateT (List ν) (Except ε) β}
    {names more : List ν} {a : α} {b : β} (hx : Takes x names a) (hf : Takes (f a) more b) :
    Takes (x >>= f) (names ++ more) b := by
  intro taken r
  rw [← and_assoc, nodup_append_taken]
  constructor
  · intro h
    obtain ⟨⟨a', taken'⟩, hrun, hrest⟩ := ok_bind.mp h
    obtain ⟨hnodup, hapart, heq⟩ := (hx taken _).mp hrun
    cases heq
    obtain ⟨hnodup', hapart', rfl⟩ := (hf _ _).mp hrest
    refine ⟨⟨⟨hnodup, hapart⟩, hnodup', hapart'⟩, ?_⟩
    rw [List.reverse_append, List.append_assoc]
  · rintro ⟨⟨⟨hnodup, hapart⟩, hnodup', hapart'⟩, rfl⟩
    refine ok_bind.mpr ⟨_, (hx taken _).mpr ⟨hnodup, hapart, rfl⟩, ?_⟩
    refine (hf _ _).mpr ⟨hnodup', hapart', ?_⟩
    rw [List.reverse_append, List.append_assoc]

theorem takeName [DecidableEq ν] (e : ε) (name : ν) : Takes (takeName e name) [name] () := by
  intro taken r
  by_cases h : name ∈ taken
  · have herr : Logic.takeName e name taken = .error e := if_pos h
    rw [herr]
    constructor
    · intro hr
      cases hr
    · rintro ⟨-, hapart, -⟩
      exact absurd h (hapart (List.mem_singleton_self _))
  · have hok : Logic.takeName e name taken = .ok ((), name :: taken) := if_neg h
    rw [hok]
    constructor
    · intro hr
      cases hr
      exact ⟨List.nodup_singleton _, List.singleton_disjoint.mpr h, rfl⟩
    · rintro ⟨-, -, rfl⟩
      rfl

end Takes

end Orm.Logic
