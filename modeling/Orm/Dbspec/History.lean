import Orm.Dbspec.Apply

/-! The history as the rows of the first plans of the chain, and what the commands read from it
and write to it. -/
namespace Orm.Dbspec

/-- The state and the step of a recorded plan. -/
abbrev Mark := HistoryState × Nat

/-- The rows of plans in chain order. -/
def rowsOf (ps : List Plan) (f : Plan → Mark) : List (String × HistoryRow) :=
  ps.map fun p => (p.name, ⟨hashOrEmpty p.from_, p.to, (f p).1, (f p).2⟩)

/-- No two plans have one name. -/
abbrev Named (ps : List Plan) : Prop := (ps.map Plan.name).Nodup

variable {ps qs : List Plan} {f g : Plan → Mark} {p q : Plan}

/-- Whether a state is one that the commands write. -/
def HistoryState.known : HistoryState → Bool
  | .other _ => false
  | _ => true

/-- Recorded plans at the front are counted one by one. -/
theorem recorded_append {history : List (String × HistoryRow)}
    (h : ∀ p ∈ ps, ∃ m : Mark, m.1.known = true ∧
      rowOf history p = some ⟨hashOrEmpty p.from_, p.to, m.1, m.2⟩) (i : Nat) :
    recorded history i i (ps ++ qs) = recorded history (i + ps.length) (i + ps.length) qs := by
  induction ps generalizing i with
  | nil => rfl
  | cons p ps ih =>
    obtain ⟨⟨s, k⟩, hs, hr⟩ := h p List.mem_cons_self
    have htail := ih (fun q hq => h q (List.mem_cons_of_mem _ hq)) (i + 1)
    have hlen : i + (p :: ps).length = i + 1 + ps.length := by
      rw [List.length_cons]
      omega
    rw [List.cons_append, recorded, hr, hlen, ← htail]
    cases s <;> simp_all [HistoryState.known]

theorem restingBefore_ok {history : List (String × HistoryRow)}
    (h : ∀ p ∈ ps, ∃ row, rowOf history p = some row ∧ row.state.rests = true) :
    restingBefore history ps = .ok ⟨⟩ := by
  induction ps with
  | nil => rfl
  | cons p ps ih =>
    obtain ⟨row, hr, hs⟩ := h p List.mem_cons_self
    rw [restingBefore, hr]
    simp only [hs, if_true]
    exact ih fun q hq => h q (List.mem_cons_of_mem _ hq)

section Chain
variable {chain : List Plan} {n : Nat}

theorem named_take (hn : Named chain) : Named (chain.take n) := by
  rw [Named, List.map_take]
  exact hn.sublist (List.take_sublist n _)

/-- The hash of the schema after the first `n` plans of the chain. -/
def hashAfter (chain : List Plan) (n : Nat) : String :=
  if n = 0 then "" else (chain[n - 1]?).elim "" Plan.to

end Chain

end Orm.Dbspec
