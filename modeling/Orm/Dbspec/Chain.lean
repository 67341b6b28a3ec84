import Orm.Logic.Holds
import Orm.Dbspec.Recover

/-! The order of plans in one chain from the empty database, and the history that applying the whole
chain leaves. -/
namespace Orm.Dbspec

open Orm.Logic (Cmd Halt Run ok_bind)
open Orm.Logic.Cmd (Triple)

section Chain

/-- The hash that a plan starts from; the empty text for a plan that starts from an empty database. -/
def chainKey (p : Plan) : String := p.from_.getD ""

/-- The plan that starts from a hash. -/
def startsFrom (plans : List Plan) (hash : String) : Option Plan :=
  plans.find? fun p => chainKey p = hash

/-- Plans that start from the same hash, in the order of the hashes. -/
def sharedStarts (plans : List Plan) : List String :=
  (sortedNames (plans.map chainKey).dedup).filterMap fun key =>
    let ps := plans.filter fun p => chainKey p = key
    if 1 < ps.length then
      let names := ", ".intercalate (sortedNames (ps.map Plan.name))
      some s!"plans {names} start from the same schema"
    else none

/-- The plans from `p` on, after the visited ones. With `n` plans not visited, a plan met at zero has
been visited. -/
def chainFrom (plans : List Plan) : Nat → List Plan → Plan → Except (List String) (List Plan)
  | 0, _, p => .error [s!"plan {p.name} closes a cycle"]
  | n + 1, visited, p =>
    if p ∈ visited then .error [s!"plan {p.name} closes a cycle"]
    else match startsFrom plans p.to with
      | none => .ok (visited ++ [p])
      | some q => chainFrom plans n (visited ++ [p]) q

/-- Orders plans into one chain from the plan that starts from an empty database, or lists why they
form none. -/
def chainPlans (plans : List Plan) : Except (List String) (List Plan) :=
  if plans = [] then .ok []
  else
    let first := startsFrom plans ""
    let out := sharedStarts plans ++ if first.isNone then ["no plan starts from empty"] else []
    if out ≠ [] then .error out
    else match first with
      | none => .error ["no plan starts from empty"]
      | some p => do
        let chain ← chainFrom plans plans.length [] p
        let unreached := plans.filter (· ∉ chain)
        if unreached ≠ [] then
          let names := ", ".intercalate (sortedNames (unreached.map Plan.name))
          .error [s!"no chain reaches plans {names}"]
        else .ok chain

variable {plans path chain : List Plan} {p q : Plan}

/-- Each plan of a path is followed by the plan that starts from its target. -/
def Linked (plans path : List Plan) : Prop :=
  ∀ before z after, path = before ++ z :: after → startsFrom plans z.to = after.head?

theorem chainFrom_spec {n : Nat} {visited : List Plan} (hv : visited.Nodup)
    (h : chainFrom plans n visited p = .ok chain) :
    ∃ path, chain = visited ++ p :: path ∧ chain.Nodup ∧ Linked plans (p :: path) := by
  induction n generalizing visited p with
  | zero => cases h
  | succ n ih =>
    rw [chainFrom] at h
    split at h
    · cases h
    · rename_i hnew
      have hv' : (visited ++ [p]).Nodup := by
        rw [List.nodup_append]
        refine ⟨hv, List.nodup_singleton p, fun x hx y hy hxy => hnew ?_⟩
        rw [← List.mem_singleton.mp hy, ← hxy]
        exact hx
      split at h
      · rename_i hnext
        cases h
        refine ⟨[], rfl, hv', fun before z after heq => ?_⟩
        cases before with
        | nil =>
          cases heq
          exact hnext
        | cons y before => simp at heq
      · rename_i next hnext
        obtain ⟨path, rfl, hnodup, hlinked⟩ := ih hv' h
        refine ⟨next :: path, by simp, hnodup, fun before z after heq => ?_⟩
        cases before with
        | nil =>
          cases heq
          exact hnext
        | cons y before =>
          rw [List.cons_append, List.cons.injEq] at heq
          exact hlinked before z after heq.2

/-- No two plans of a linked path have one target. -/
theorem Linked.targets_nodup (h : Linked plans path) (hn : path.Nodup) :
    (path.map Plan.to).Nodup := by
  induction path with
  | nil => exact List.nodup_nil
  | cons p path ih =>
    rw [List.nodup_cons] at hn
    have htail : Linked plans path := fun before z after heq =>
      h (p :: before) z after (by rw [heq, List.cons_append])
    rw [List.map_cons, List.nodup_cons]
    refine ⟨fun hmem => ?_, ih htail hn.2⟩
    obtain ⟨z, hz, hto⟩ := List.mem_map.mp hmem
    obtain ⟨before, after, rfl⟩ := List.append_of_mem hz
    -- the plan after `p` would also follow `z`
    have hp := h [] p (before ++ z :: after) rfl
    have hz' := htail before z after rfl
    rw [hto, hp] at hz'
    cases hhead : (before ++ z :: after).head? with
    | none => simp at hhead
    | some q =>
      rw [hhead] at hz'
      have hafter : q ∈ after := List.mem_of_mem_head? hz'.symm
      cases before with
      | nil =>
        cases hhead
        exact (List.nodup_cons.mp hn.2).1 hafter
      | cons y before =>
        cases hhead
        rw [List.cons_append, List.nodup_cons] at hn
        exact hn.2.1 (List.mem_append_right _ (List.mem_cons_of_mem _ hafter))

/-- The plans of an accepted chain have different targets. -/
theorem chainPlans_targets_nodup (h : chainPlans plans = .ok chain) :
    (chain.map Plan.to).Nodup := by
  unfold chainPlans at h
  by_cases hnil : plans = []
  · rw [if_pos hnil] at h
    cases h
    exact List.nodup_nil
  · rw [if_neg hnil] at h
    cases hfirst : startsFrom plans "" with
    | none =>
      simp [hfirst] at h
    | some p =>
      simp only [hfirst, Option.isNone_some, Bool.false_eq_true, if_false] at h
      split at h
      · cases h
      · obtain ⟨chain', hfrom, h⟩ := ok_bind.mp h
        obtain ⟨path, hchain, hnodup, hlinked⟩ := chainFrom_spec List.nodup_nil hfrom
        split at h
        · cases h
        · cases h
          rw [hchain] at hnodup ⊢
          exact hlinked.targets_nodup hnodup

end Chain

section Rows
variable {S C : Type} {h : List (String × HistoryRow)} {p q : Plan} {ps : List Plan} {n : Nat}

theorem rowOf_map (g : HistoryRow → HistoryRow) :
    rowOf (h.map fun e => if e.1 = p.name then (e.1, g e.2) else e) q =
      if q.name = p.name then (rowOf h q).map g else rowOf h q := by
  induction h with
  | nil => simp [rowOf]
  | cons e h ih =>
    obtain ⟨name, row⟩ := e
    simp only [rowOf] at ih ⊢
    by_cases hp : name = p.name
    · by_cases hq : q.name = name
      · simp [hq, hp]
      · have hb : (q.name == name) = false := by simpa using hq
        simp [List.lookup_cons, hb, ← hp, hq] at ih ⊢
        exact ih
    · by_cases hq : q.name = name
      · simp [hq, hp]
      · have hb : (q.name == name) = false := by simpa using hq
        simp only [List.map_cons, hp, if_false, List.lookup_cons, hb]
        exact ih

theorem rowOf_append_new {row : HistoryRow} (hp : rowOf h p = none) :
    rowOf (h ++ [(p.name, row)]) q = if q.name = p.name then some row else rowOf h q := by
  by_cases hq : q.name = p.name
  · have hnone : h.lookup q.name = none := hq ▸ hp
    rw [rowOf, List.lookup_append, hnone, if_pos hq]
    simp [hq]
  · have hb : (q.name == p.name) = false := by simpa using hq
    simp [rowOf, List.lookup_append, List.lookup_cons, hb, hq]

/-- The row of a plan that is being applied: the history `h` with the plan's row added. -/
structure Opened (h : List (String × HistoryRow)) (p : Plan) (t : World S C) : Prop where
  length : t.history.length = h.length + 1
  others : ∀ q, q.name ≠ p.name → rowOf t.history q = rowOf h q
  row : ∃ row, rowOf t.history p = some row ∧ row.fromHash = hashOrEmpty p.from_ ∧
    row.toHash = p.to

/-- The history has a row for each of the plans, which rests, and no other. -/
structure RowPerPlan (ps : List Plan) (h : List (String × HistoryRow)) : Prop where
  length : h.length = ps.length
  row : ∀ p ∈ ps, ∃ row, rowOf h p = some row ∧ row.fromHash = hashOrEmpty p.from_ ∧
    row.toHash = p.to ∧ row.state.rests = true

theorem Opened.start {t : World S C} (hp : rowOf t.history p = none) (s : HistoryState) (k : Nat) :
    Opened t.history p { t with history := recordRow p s k t.history } where
  length := by simp [recordRow, hp]
  others q hq := by simp [recordRow, hp, rowOf_append_new hp, hq]
  row := by simp [recordRow, hp, rowOf_append_new hp]

theorem Opened.step {t : World S C} (ho : Opened h p t) (k : Nat) :
    Opened h p { t with history := stepRow p k t.history } where
  length := by simpa [stepRow] using ho.length
  others q hq := by
    have hmap := rowOf_map (h := t.history) (p := p) (q := q) fun r => { r with step := k }
    rw [if_neg hq, ho.others q hq] at hmap
    exact hmap
  row := by
    obtain ⟨row, hrow, hfrom, hto⟩ := ho.row
    have hmap := rowOf_map (h := t.history) (p := p) (q := p) fun r => { r with step := k }
    rw [if_pos rfl, hrow] at hmap
    exact ⟨_, hmap, hfrom, hto⟩

/-- A plan recorded applied: the rows of the others stay. -/
theorem Opened.applied {t : World S C} (ho : Opened h p t) (hr : RowPerPlan ps h) (k : Nat)
    (hne : ∀ q ∈ ps, q.name ≠ p.name) :
    RowPerPlan (ps ++ [p]) (recordRow p .applied k t.history) ∧
      ∀ q, q.name ≠ p.name → rowOf (recordRow p .applied k t.history) q = rowOf h q := by
  obtain ⟨row, hrow, hfrom, hto⟩ := ho.row
  have hmap : ∀ q, rowOf (recordRow p .applied k t.history) q =
      if q.name = p.name then (rowOf t.history q).map fun r => { r with state := .applied, step := k }
      else rowOf t.history q := by
    intro q
    rw [recordRow, hrow, Option.isSome_some, if_pos rfl]
    exact rowOf_map fun r => { r with state := .applied, step := k }
  have hothers : ∀ q, q.name ≠ p.name → rowOf (recordRow p .applied k t.history) q = rowOf h q := by
    intro q hq
    rw [hmap, if_neg hq, ho.others q hq]
  refine ⟨⟨?_, fun q hq => ?_⟩, hothers⟩
  · simp [recordRow, hrow, ho.length, hr.length]
  · rcases List.mem_append.mp hq with hq | hq
    · rw [hothers q (hne q hq)]
      exact hr.row q hq
    · obtain rfl := List.mem_singleton.mp hq
      have happlied := hmap q
      rw [if_pos rfl, hrow, Option.map_some] at happlied
      exact ⟨_, happlied, hfrom, hto, rfl⟩

/-- After a gap in the recorded plans there is no row. -/
theorem recorded_gap {i found : Nat} (hi : found < i) (hr : recorded h i found ps = .ok n) :
    n = found ∧ ∀ q ∈ ps, rowOf h q = none := by
  induction ps generalizing i with
  | nil =>
    cases hr
    exact ⟨rfl, by simp⟩
  | cons p ps ih =>
    rw [recorded] at hr
    cases hrow : rowOf h p with
    | none =>
      rw [hrow] at hr
      obtain ⟨hn, hnone⟩ := ih (by omega) hr
      refine ⟨hn, fun q hq => ?_⟩
      rcases List.mem_cons.mp hq with rfl | hq
      · exact hrow
      · exact hnone q hq
    | some row =>
      rw [hrow] at hr
      have hne : i ≠ found := by omega
      dsimp only at hr
      rw [if_pos hne] at hr
      split at hr
      · cases hr
      · cases hr

/-- The recorded plans are at the front, with their own hashes. -/
theorem recorded_front {i : Nat} (hr : recorded h i i ps = .ok n) :
    ∃ done rest, ps = done ++ rest ∧ n = i + done.length ∧ (∀ q ∈ rest, rowOf h q = none) ∧
      ∀ q ∈ done, ∃ row, rowOf h q = some row ∧ row.fromHash = hashOrEmpty q.from_ ∧
        row.toHash = q.to := by
  induction ps generalizing i with
  | nil =>
    cases hr
    exact ⟨[], [], rfl, rfl, by simp, by simp⟩
  | cons p ps ih =>
    rw [recorded] at hr
    cases hrow : rowOf h p with
    | none =>
      rw [hrow] at hr
      obtain ⟨rfl, hnone⟩ := recorded_gap (Nat.lt_succ_self i) hr
      refine ⟨[], p :: ps, rfl, rfl, fun q hq => ?_, by simp⟩
      rcases List.mem_cons.mp hq with rfl | hq
      · exact hrow
      · exact hnone q hq
    | some row =>
      rw [hrow] at hr
      dsimp only at hr
      split at hr
      · cases hr
      · rename_i hhash
        push Not at hhash
        rw [if_neg (by simp)] at hr
        have htail : recorded h (i + 1) (i + 1) ps = .ok n := by
          split at hr
          · cases hr
          · exact hr
        obtain ⟨done, rest, rfl, rfl, hnone, hdone⟩ := ih htail
        refine ⟨p :: done, rest, rfl, by simp; omega, hnone, fun q hq => ?_⟩
        rcases List.mem_cons.mp hq with rfl | hq
        · exact ⟨row, hrow, hhash.2, hhash.1⟩
        · exact hdone q hq

end Rows

section Run
variable {S C : Type} {a : Applier S C} {w : World S C} {p : Plan} {n : Nat}

/-- The database at the schema of the first `n` plans of the chain, with their rows only. -/
structure SettledAt (a : Applier S C) (n : Nat) (w : World S C) : Prop where
  le : n ≤ a.chain.length
  rows : RowPerPlan (a.chain.take n) w.history
  absent : ∀ q ∈ a.chain.drop n, rowOf w.history q = none
  verified : a.db.verify (hashAfter a.chain n) w.catalog = .same

theorem restingBefore_rests {h : List (String × HistoryRow)} {ps : List Plan}
    (hr : restingBefore h ps = .ok ⟨⟩) :
    ∀ q ∈ ps, ∃ row, rowOf h q = some row ∧ row.state.rests = true := by
  induction ps with
  | nil => simp
  | cons p ps ih =>
    rw [restingBefore] at hr
    cases hrow : rowOf h p with
    | none =>
      rw [hrow] at hr
      cases hr
    | some row =>
      rw [hrow] at hr
      dsimp only at hr
      by_cases hs : row.state.rests = true
      · rw [if_pos hs] at hr
        intro q hq
        rcases List.mem_cons.mp hq with rfl | hq
        · exact ⟨row, hrow, hs⟩
        · exact ih hr q hq
      · rw [if_neg hs] at hr
        cases hr

/-- What a counted and resting history tells. -/
theorem settled_rows {chain : List Plan} {h : List (String × HistoryRow)} {want : String}
    (hpos : position chain h = .ok n) (hhash : settledHash chain h n = .ok want) :
    n ≤ chain.length ∧ RowPerPlan (chain.take n) h ∧ (∀ q ∈ chain.drop n, rowOf h q = none) ∧
      want = hashAfter chain n := by
  obtain ⟨found, hrec, hpos⟩ := ok_bind.mp hpos
  split at hpos
  · cases hpos
  · rename_i hlen
    obtain ⟨_, hrest, hpos⟩ := ok_bind.mp hpos
    cases hpos
    obtain ⟨done, rest, rfl, rfl, hnone, hdone⟩ := recorded_front hrec
    rw [Nat.zero_add] at hhash hrest hlen ⊢
    have hrests := restingBefore_rests hrest
    have htake : (done ++ rest).take done.length = done := List.take_left' rfl
    have hdrop : (done ++ rest).drop done.length = rest := List.drop_left' rfl
    -- the rows before the last rest, and the last row is the one that `settledHash` reads
    have hlast : want = hashAfter (done ++ rest) done.length ∧
        ∀ q, (done ++ rest)[done.length - 1]? = some q → done.length ≠ 0 →
          ∃ row, rowOf h q = some row ∧ row.state.rests = true := by
      unfold settledHash at hhash
      by_cases hzero : done.length = 0
      · rw [if_pos hzero] at hhash
        cases hhash
        exact ⟨by rw [hashAfter, if_pos hzero], fun _ _ h => absurd hzero h⟩
      · rw [if_neg hzero] at hhash
        cases hq : (done ++ rest)[done.length - 1]? with
        | none =>
          rw [hq] at hhash
          cases hhash
        | some q =>
          rw [hq] at hhash
          dsimp only at hhash
          cases hrow : rowOf h q with
          | none =>
            rw [hrow] at hhash
            cases hhash
          | some row =>
            rw [hrow] at hhash
            dsimp only at hhash
            split at hhash
            · rename_i hs
              cases hhash
              refine ⟨by rw [hashAfter, if_neg hzero, hq]; rfl, fun q' hq' _ => ?_⟩
              cases hq'
              exact ⟨row, hrow, hs⟩
            · cases hhash
    refine ⟨by simp, ?_, by rw [hdrop]; exact hnone, hlast.1⟩
    rw [htake]
    refine ⟨not_not.mp hlen, fun q hq => ?_⟩
    obtain ⟨row, hrow, hfrom, hto⟩ := hdone q hq
    refine ⟨row, hrow, hfrom, hto, ?_⟩
    have hresting : ∃ row, rowOf h q = some row ∧ row.state.rests = true := by
      obtain ⟨i, hi, rfl⟩ := List.getElem_of_mem hq
      by_cases hend : i = done.length - 1
      · refine hlast.2 _ ?_ (by omega)
        rw [← hend, List.getElem?_append_left hi, List.getElem?_eq_getElem hi]
      · refine hrests _ ?_
        rw [List.take_append_of_le_length (by omega), List.mem_take_iff_getElem]
        exact ⟨i, by omega, rfl⟩
    obtain ⟨row', hrow', hs⟩ := hresting
    rw [hrow] at hrow'
    cases hrow'
    exact hs

theorem settled_triple_at :
    Triple (fun t => t = w) a.settled (fun n t => t = w ∧ SettledAt a n w) fun _ _ => True := by
  refine Triple.read_known ?_
  cases hpos : position a.chain w.history with
  | error e => exact Triple.fail fun _ _ => trivial
  | ok n =>
    cases hhash : settledHash a.chain w.history n with
    | error e =>
      simp only [Cmd.check_ok, pure_bind, hhash]
      exact Triple.fail fun _ _ => trivial
    | ok want =>
      obtain ⟨hle, hrows, habsent, rfl⟩ := settled_rows hpos hhash
      simp only [Cmd.check_ok, pure_bind, hhash]
      cases hv : a.db.verify (hashAfter a.chain n) w.catalog with
      | same => exact Triple.pure_known ⟨rfl, hle, hrows, habsent, hv⟩
      | mismatch => exact Triple.fail_known trivial
      | failed => exact Triple.fail_known trivial

theorem RowPerPlan.position_all {chain : List Plan} {h : List (String × HistoryRow)}
    (hr : RowPerPlan chain h) : position chain h = .ok chain.length := by
  have hrow : ∀ q ∈ chain, ∃ m : Mark, m.1.known = true ∧
      rowOf h q = some ⟨hashOrEmpty q.from_, q.to, m.1, m.2⟩ := by
    intro q hq
    obtain ⟨⟨fromHash, toHash, state, step⟩, hrow, hfrom, hto, hs⟩ := hr.row q hq
    cases hfrom
    cases hto
    exact ⟨(state, step), HistoryState.known_of_rests hs, hrow⟩
  have hrec : recorded h 0 0 chain = .ok chain.length := by
    have happ : recorded h 0 0 (chain ++ []) = recorded h 0 (0 + chain.length) [] :=
      recorded_append hrow 0
    rw [List.append_nil, Nat.zero_add] at happ
    exact happ
  have hrest : restingBefore h (chain.take (chain.length - 1)) = .ok ⟨⟩ := by
    refine restingBefore_ok fun q hq => ?_
    obtain ⟨row, hrow, -, -, hs⟩ := hr.row q (List.mem_of_mem_take hq)
    exact ⟨row, hrow, hs⟩
  simp only [position, hrec, bind, Except.bind, hr.length, ne_eq, not_true_eq_false, if_false, hrest]
  rfl

theorem RowPerPlan.settledHash_all {chain : List Plan} {h : List (String × HistoryRow)}
    (hr : RowPerPlan chain h) :
    settledHash chain h chain.length = .ok (hashAfter chain chain.length) := by
  by_cases hzero : chain.length = 0
  · rw [settledHash, hashAfter, if_pos hzero, if_pos hzero]
    rfl
  · have hlt : chain.length - 1 < chain.length := by omega
    obtain ⟨row, hrow, -, -, hs⟩ := hr.row _ (List.getElem_mem hlt)
    simp [settledHash, hashAfter, hzero, List.getElem?_eq_getElem hlt, hrow, hs, pure, Except.pure]

/-- A database at the schema of the whole chain is left as it is. -/
theorem SettledAt.applyPlans_again (hw : SettledAt a a.chain.length w) (m : Option Nat) :
    a.applyPlans ⟨w, m⟩ = (.ok ⟨⟩, ⟨w, m⟩) := by
  have hrows := hw.rows
  rw [List.take_length] at hrows
  have hsettled : a.settled ⟨w, m⟩ = (.ok a.chain.length, ⟨w, m⟩) := by
    change (Cmd.check (position a.chain w.history) >>= _ : Command S C Nat) ⟨w, m⟩ = _
    simp only [hrows.position_all, Cmd.check_ok, pure_bind, hrows.settledHash_all, hw.verified]
    rfl
  change Cmd.andThen a.settled _ ⟨w, m⟩ = _
  simp only [Cmd.andThen, hsettled, List.drop_length]
  rfl

section Plan
variable {h : List (String × HistoryRow)}

theorem forwardFrom_opened (rest : List (Step S)) (i : Nat) :
    Triple (Opened h p) (a.forwardFrom p i rest) (fun _ => Opened h p) fun _ _ => True := by
  induction rest generalizing i with
  | nil => exact Triple.pure fun _ ht => ht
  | cons s rest ih =>
    refine Triple.of_known fun t ht => ?_
    refine Triple.bind (chosen_triple a t i _ _ _ fun _ => trivial) fun st => ?_
    refine Triple.assume fun _ => Triple.bind (A := fun _ => Opened h p) ?_ fun _ => ?_
    · refine (run_sent_triple a t i false st).mono (fun _ h => h) ?_ fun _ _ _ => trivial
      rintro _ _ ⟨c, -, rfl⟩
      exact ⟨ht.length, ht.others, ht.row⟩
    · exact Triple.bind (Triple.write (fun u hu => hu.step (i + 1)) fun _ _ => trivial)
        fun _ => ih (i + 1)

theorem verify_same_triple (want : String) (t : World S C) :
    Triple (fun u => u = t) (a.verify p want)
      (fun _ u => a.db.verify want t.catalog = .same ∧ u = t) fun _ _ => True := by
  refine Triple.read_known ?_
  cases hv : a.db.verify want t.catalog with
  | same => exact Triple.pure_known ⟨rfl, rfl⟩
  | mismatch => exact Triple.fail_known trivial
  | failed => exact Triple.fail_known trivial

/-- The next plan of the chain is applied. -/
theorem applyPlan_settled (hn : Named a.chain) (hp : a.chain[n]? = some p)
    (hw : SettledAt a n w) :
    Triple (fun t => t = w) (a.applyPlan p) (fun _ => SettledAt a (n + 1)) fun _ _ => True := by
  obtain ⟨hlt, hget⟩ := List.getElem?_eq_some_iff.mp hp
  have hdrop : a.chain.drop n = p :: a.chain.drop (n + 1) := by
    rw [List.drop_eq_getElem_cons hlt, hget]
  have hnl := named_last hn hp
  have hbefore : ∀ q ∈ a.chain.take n, q.name ≠ p.name := fun q hq hname =>
    name_not_mem hnl (hname ▸ List.mem_map_of_mem hq)
  have hafter : ∀ q ∈ a.chain.drop (n + 1), q.name ≠ p.name := by
    have hnames := hn
    rw [Named, ← List.take_append_drop n a.chain, hdrop, List.map_append, List.map_cons] at hnames
    have hnot := (List.nodup_cons.mp (List.nodup_append.mp hnames).2.1).1
    exact fun q hq hname => hnot (hname ▸ List.mem_map_of_mem hq)
  have hnone : rowOf w.history p = none := hw.absent p (hdrop ▸ List.mem_cons_self)
  refine Triple.bind (A := fun _ t => t = w)
    (Triple.check (fun _ _ _ ht => ht) fun _ _ _ _ => trivial) fun steps => ?_
  refine Triple.bind (Triple.write_known (U := fun _ => Opened w.history p)
    (Opened.start hnone .applying 0) trivial) fun _ => ?_
  refine Triple.bind (forwardFrom_opened _ _) fun _ => Triple.of_known fun t ht => ?_
  refine Triple.bind (foreignKeyCheck_triple fun _ => trivial) fun _ => ?_
  refine Triple.bind (verify_same_triple p.to t) fun _ => Triple.assume fun hv => ?_
  refine Triple.write_known ?_ trivial
  obtain ⟨hrows, hothers⟩ := ht.applied hw.rows (finalizeStart steps) hbefore
  rw [take_append_last hp] at hrows
  refine ⟨hlt, hrows, fun q hq => ?_, ?_⟩
  · dsimp only
    rw [hothers q (hafter q hq)]
    exact hw.absent q (hdrop ▸ List.mem_cons_of_mem p hq)
  · simpa [hashAfter, hp] using hv

theorem applyAll_settled (hn : Named a.chain) (hw : SettledAt a n w) :
    Triple (fun t => t = w) (a.applyAll (a.chain.drop n))
      (fun _ => SettledAt a a.chain.length) fun _ _ => True := by
  -- the induction is on the plans that are left
  obtain ⟨k, hk⟩ : ∃ k, k = a.chain.length - n := ⟨_, rfl⟩
  induction k generalizing n w with
  | zero =>
    have hle := hw.le
    obtain rfl : n = a.chain.length := by omega
    rw [List.drop_length]
    exact Triple.pure_known hw
  | succ k ih =>
    have hlt : n < a.chain.length := by omega
    rw [List.drop_eq_getElem_cons hlt]
    refine Triple.bind (applyPlan_settled hn (List.getElem?_eq_getElem hlt) hw) fun _ => ?_
    exact Triple.of_known fun t ht => ih ht (by omega)

end Plan

theorem applyPlans_settled (hn : Named a.chain) :
    Triple (fun t => t = w) a.applyPlans (fun _ => SettledAt a a.chain.length)
      fun _ _ => True := by
  refine Triple.bind settled_triple_at fun n => ?_
  refine Triple.of_known fun t ht => ?_
  obtain ⟨rfl, hw⟩ := ht
  exact applyAll_settled hn hw

/-- Plans of one name share one row, which has the hashes of the first. -/
theorem RowPerPlan.named {plans chain : List Plan} {h : List (String × HistoryRow)}
    (hr : RowPerPlan chain h) (hc : chainPlans plans = .ok chain) : Named chain := by
  have hto := chainPlans_targets_nodup hc
  refine (List.nodup_map_iff_inj_on hto.of_map).mpr fun p hp q hq hname => ?_
  obtain ⟨row, hrow, -, hrowTo, -⟩ := hr.row p hp
  obtain ⟨row', hrow', -, hrowTo', -⟩ := hr.row q hq
  rw [rowOf, hname] at hrow
  rw [rowOf, hrow] at hrow'
  cases hrow'
  exact List.inj_on_of_nodup_map hto hp hq (hrowTo.symm.trans hrowTo')

/-- After an apply of a chain, the history has a resting row for each plan and a second apply
changes nothing, if and only if no two plans of the chain have one name. -/
theorem applyPlans_row_per_plan_iff {plans : List Plan} {w' : World S C}
    (hc : chainPlans plans = .ok a.chain)
    (hrun : a.applyPlans ⟨w, none⟩ = (.ok ⟨⟩, ⟨w', none⟩)) :
    (RowPerPlan a.chain w'.history ∧ a.applyPlans ⟨w', none⟩ = (.ok ⟨⟩, ⟨w', none⟩)) ↔
      Named a.chain := by
  constructor
  · rintro ⟨hrows, -⟩
    exact hrows.named hc
  · intro hn
    have hw' := (applyPlans_settled hn).returns hrun rfl
    have hrows := hw'.rows
    rw [List.take_length] at hrows
    exact ⟨hrows, hw'.applyPlans_again none⟩

end Run

section Example

/-- A plan that changes the schema with one hash to the schema with another. -/
def hashPlan (name : String) (from_ : Option String) (hash : String) : Plan :=
  ⟨name, from_, [], [], [], [], ⟨[], hash⟩⟩

/-- Plans of one statement each, in a catalog that is the hash of its schema. -/
def hashApplier (chain : List Plan) : Applier String String where
  chain := chain
  steps p := .ok [⟨p.to, none, "", absent .table "" "", none, none, none, [], false⟩]
  db :=
    { exec := fun hash _ => some hash
      holds := fun _ _ => some true
      verify := fun want c => if want = c then .same else .mismatch "the database is at another hash"
      brokenForeignKeys := fun _ => 0
      nullRows := fun _ _ => 0
      fillNulls := fun _ c => c }

def emptyHash : World String String := ⟨"", [], []⟩

def userPlans : List Plan := [hashPlan "posts" (some "users") "posts", hashPlan "users" none "users"]

def userChain : List Plan := [hashPlan "users" none "users", hashPlan "posts" (some "users") "posts"]

theorem applyPlans_row_per_plan_iff_users :
    let applied := ((hashApplier userChain).applyPlans ⟨emptyHash, none⟩).2.state
    RowPerPlan userChain applied.history ∧
      (hashApplier userChain).applyPlans ⟨applied, none⟩ = (.ok ⟨⟩, ⟨applied, none⟩) :=
  have hchain : chainPlans userPlans = .ok (hashApplier userChain).chain := by decide +kernel
  (applyPlans_row_per_plan_iff (w := emptyHash) hchain rfl).mpr (by decide +kernel)

/-- Two plans of one name. -/
def twinChain : List Plan := [hashPlan "step" none "users", hashPlan "step" (some "users") "posts"]

/-- A chain with two plans of one name is accepted and applied, has one history row, and the next
apply reports a chain error. -/
theorem applyPlans_twins_share_row :
    chainPlans twinChain = .ok twinChain ∧
    ((hashApplier twinChain).applyPlans ⟨emptyHash, none⟩).1.isOk = true ∧
    let applied := ((hashApplier twinChain).applyPlans ⟨emptyHash, none⟩).2.state
    applied.history.length = 1 ∧
    ((hashApplier twinChain).applyPlans ⟨applied, none⟩).1 = .error (.failed (chainError "step"
      "the recorded plan has other hashes than the chain's plan")) := by
  decide +kernel

end Example

end Orm.Dbspec
