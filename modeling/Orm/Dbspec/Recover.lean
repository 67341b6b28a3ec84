import Orm.Dbspec.History

/-! The statements that a command sends for one plan: each runs, fails without an effect or is not
sent. -/
namespace Orm.Dbspec

open Orm.Logic (Cmd Halt Run)
open Orm.Logic.Cmd (Triple)

variable {S C : Type}

/-- The statement that a command sends in a catalog, given its restore statement. -/
def Db.chosen (db : Db S C) (c : C) (statement : S) (restore : Option S)
    (restoreIf : Option Effect) : Option S :=
  match restore, restoreIf with
  | none, _ => some statement
  | some _, none => none
  | some r, some e => (db.holds e c).map fun there => if there then r else statement

section Plan
variable {a : Applier S C} {p : Plan} {n : Nat} {w : World S C}

section Run
variable (a) {E : Halt ApplyError → World S C → Prop}

theorem chosen_triple (w : World S C) (i : Nat) (statement : S) (restore : Option S)
    (restoreIf : Option Effect) (hE : ∀ h, E h w) :
    Triple (fun t => t = w) (a.chosen p i statement restore restoreIf)
      (fun st t => a.db.chosen w.catalog statement restore restoreIf = some st ∧ t = w) E := by
  unfold Applier.chosen
  cases restore with
  | none => exact Triple.pure_known ⟨rfl, rfl⟩
  | some r =>
    cases restoreIf with
    | none => exact Triple.fail_known (hE _)
    | some e =>
      refine Triple.bind (A := fun b t => a.db.holds e w.catalog = some b ∧ t = w)
        (Triple.read_known ?_) fun b => Triple.pure fun t ht => ⟨?_, ht.2⟩
      · cases hb : a.db.holds e w.catalog with
        | none => exact Triple.fail_known (hE _)
        | some b => exact Triple.pure_known ⟨rfl, rfl⟩
      · rw [Db.chosen, ht.1]
        rfl

/-- A statement runs, fails without an effect or is not sent. -/
theorem run_sent_triple (w : World S C) (i : Nat) (back : Bool) (st : S) :
    Triple (fun t => t = w) (a.run p i back st)
      (fun _ t => ∃ c', a.db.exec st w.catalog = some c' ∧
        t = { w with catalog := c', log := w.log ++ [⟨i, back, st, w.catalog⟩] })
      (fun _ t => t = w ∨ a.db.exec st w.catalog = none ∧
        t = { w with catalog := w.catalog, log := w.log ++ [⟨i, back, st, w.catalog⟩] }) := by
  refine Triple.read_known (Triple.bind (A := fun _ t => t = a.sent i back st w)
    (Triple.write_known rfl (Or.inl rfl)) fun _ => ?_)
  cases hexec : a.db.exec st w.catalog with
  | none =>
    refine Triple.fail_known (Or.inr ⟨rfl, ?_⟩)
    rw [Applier.sent, hexec]
    rfl
  | some c' =>
    refine Triple.pure_known ⟨c', rfl, ?_⟩
    rw [Applier.sent, hexec]
    rfl

end Run

/-- The plan is not among the plans before it. -/
theorem name_not_mem (hn : Named (a.chain.take n ++ [p])) :
    p.name ∉ (a.chain.take n).map Plan.name := by
  rw [Named, List.map_append, List.nodup_append] at hn
  intro hmem
  exact hn.2.2 _ hmem _ (by simp) rfl

theorem foreignKeyCheck_triple {E : Halt ApplyError → World S C → Prop} (hE : ∀ h, E h w) :
    Triple (fun t => t = w) (a.foreignKeyCheck p) (fun _ t => t = w) E := by
  refine Triple.read_known ?_
  by_cases hbroken : a.db.brokenForeignKeys w.catalog = 0
  · rw [if_pos hbroken]
    exact Triple.pure_known rfl
  · rw [if_neg hbroken]
    exact Triple.fail_known (hE _)

theorem HistoryState.known_of_rests {s : HistoryState} (h : s.rests = true) : s.known = true := by
  cases s <;> first | rfl | cases h

theorem take_append_last (hlast : a.chain[n]? = some p) :
    a.chain.take n ++ [p] = a.chain.take (n + 1) := by
  rw [List.take_add_one, hlast]
  rfl

theorem named_last (hn : Named a.chain) (hlast : a.chain[n]? = some p) :
    Named (a.chain.take n ++ [p]) := by
  rw [take_append_last hlast]
  exact named_take hn

end Plan

end Orm.Dbspec
