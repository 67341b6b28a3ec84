import Orm.Engine.Order
import Orm.Dbspec.Chain
import Orm.Dbspec.Renames

/-! The chain of plans: which lists of plans form one, and that their order does not matter. -/
namespace Orm.Dbspec

open Orm.Engine (sortedEntries sortedEntries_congr)
open Orm.Logic (ok_bind)

variable {plans plans' chain order : List Plan} {p q : Plan}

/-- Plans in the order of a chain, each with the hash that it starts from: the first starts from the
empty database and each next one from the target of the one before, no two start from one hash, and
no target is a start at or before it. -/
structure Chained (order : List Plan) : Prop where
  first : ∀ p, order.head? = some p → chainKey p = ""
  next : ∀ before p q after, order = before ++ p :: q :: after → chainKey q = p.to
  starts : (order.map chainKey).Nodup
  targets : ∀ before p after, order = before ++ p :: after →
    ∀ q ∈ before ++ [p], chainKey q ≠ p.to

section Starts

theorem startsFrom_mem {hash : String} (h : startsFrom plans hash = some p) :
    p ∈ plans ∧ chainKey p = hash := by
  refine ⟨List.mem_of_find?_eq_some h, ?_⟩
  have hkey := List.find?_some h
  simpa using hkey

theorem startsFrom_eq (hkeys : (plans.map chainKey).Nodup) {hash : String} :
    startsFrom plans hash = some p ↔ p ∈ plans ∧ chainKey p = hash := by
  refine ⟨startsFrom_mem, ?_⟩
  rintro ⟨hp, rfl⟩
  obtain ⟨u, hu⟩ : ∃ u, startsFrom plans (chainKey p) = some u :=
    Option.isSome_iff_exists.mp (List.find?_isSome.mpr ⟨p, hp, by simp⟩)
  obtain ⟨humem, hukey⟩ := startsFrom_mem hu
  rw [hu, List.inj_on_of_nodup_map hkeys humem hp hukey]

theorem startsFrom_none {hash : String} :
    startsFrom plans hash = none ↔ hash ∉ plans.map chainKey := by
  simp [startsFrom]

/-- Plans that no hash joins start from distinct ones. -/
theorem sharedStarts_eq_nil : sharedStarts plans = [] ↔ (plans.map chainKey).Nodup := by
  have hcount : ∀ key, (plans.filter fun p => chainKey p = key).length =
      (plans.map chainKey).count key := by
    intro key
    rw [List.count, List.countP_map, List.countP_eq_length_filter]
    rfl
  have hsorted : ∀ key, key ∈ sortedNames (plans.map chainKey).dedup ↔ key ∈ plans.map chainKey := by
    intro key
    unfold sortedNames
    rw [mem_sortedEntries, List.mem_dedup]
  unfold sharedStarts
  simp only [List.filterMap_eq_nil_iff, hsorted, hcount, ite_eq_right_iff, reduceCtorEq, imp_false,
    not_lt]
  rw [List.nodup_iff_count_le_one]
  refine ⟨fun h key => ?_, fun h key _ => h key⟩
  by_cases hmem : key ∈ plans.map chainKey
  · exact h key hmem
  · rw [List.count_eq_zero_of_not_mem hmem]
    exact Nat.zero_le 1

end Starts

section Accepts

theorem chainFrom_subset {n : Nat} {visited : List Plan} (hv : visited ⊆ plans) (hp : p ∈ plans)
    (h : chainFrom plans n visited p = .ok chain) : chain ⊆ plans := by
  induction n generalizing visited p with
  | zero => cases h
  | succ n ih =>
    have hv' : visited ++ [p] ⊆ plans :=
      List.append_subset.mpr ⟨hv, by simpa using hp⟩
    rw [chainFrom] at h
    split at h
    · cases h
    · split at h
      · cases h
        exact hv'
      · next q hnext => exact ih hv' (startsFrom_mem hnext).1 h

/-- The walk along a chain visits it to its end. -/
theorem chainFrom_chained (hperm : chain.Perm plans) (hchained : Chained chain) {n : Nat}
    {visited rest : List Plan} (hsplit : chain = visited ++ p :: rest) (hn : rest.length < n) :
    chainFrom plans n visited p = .ok chain := by
  have hkeys : (plans.map chainKey).Nodup := (hperm.map _).nodup_iff.mp hchained.starts
  have hnodup : chain.Nodup := hchained.starts.of_map
  induction n generalizing visited p rest with
  | zero => omega
  | succ n ih =>
    have hnew : p ∉ visited := by
      intro hmem
      rw [hsplit, List.nodup_append] at hnodup
      exact hnodup.2.2 p hmem p List.mem_cons_self rfl
    rw [chainFrom, if_neg hnew]
    cases rest with
    | nil =>
      have hlast : startsFrom plans p.to = none := by
        rw [startsFrom_none]
        intro hmem
        obtain ⟨q, hq, hkey⟩ := List.mem_map.mp hmem
        rw [← hperm.mem_iff, hsplit] at hq
        exact hchained.targets visited p [] hsplit q hq hkey
      rw [hlast, hsplit]
    | cons q rest =>
      have hmem : q ∈ plans := hperm.mem_iff.mp (by rw [hsplit]; simp)
      have hnext : startsFrom plans p.to = some q :=
        (startsFrom_eq hkeys).mpr ⟨hmem, hchained.next visited p q rest hsplit⟩
      rw [hnext]
      have hrest : chain = (visited ++ [p]) ++ q :: rest := by
        rw [hsplit, List.append_assoc]
        rfl
      exact ih hrest (by simpa using hn)

theorem chainPlans_of_chained (hperm : chain.Perm plans) (hchained : Chained chain) :
    chainPlans plans = .ok chain := by
  have hkeys : (plans.map chainKey).Nodup := (hperm.map _).nodup_iff.mp hchained.starts
  unfold chainPlans
  cases chain with
  | nil => rw [List.nil_perm.mp hperm, if_pos rfl]
  | cons p rest =>
    have hmem : p ∈ plans := hperm.mem_iff.mp List.mem_cons_self
    have hfirst : startsFrom plans "" = some p :=
      (startsFrom_eq hkeys).mpr ⟨hmem, hchained.first p rfl⟩
    have hlength := hperm.length_eq
    have hwalk : chainFrom plans plans.length [] p = .ok (p :: rest) :=
      chainFrom_chained hperm hchained rfl (by rw [← hlength]; exact Nat.lt_succ_self _)
    have hall : (plans.filter (· ∉ p :: rest)) = [] :=
      List.filter_eq_nil_iff.mpr fun q hq => by
        have hmem := hperm.mem_iff.mpr hq
        simpa only [decide_not, Bool.not_eq_true', decide_eq_false_iff_not, not_not] using hmem
    rw [if_neg (List.ne_nil_of_mem hmem)]
    simp only [hfirst, sharedStarts_eq_nil.mpr hkeys, Option.isNone_some, Bool.false_eq_true,
      if_false, List.append_nil, ne_eq, not_true_eq_false, hwalk]
    exact if_neg (not_not.mpr hall)

theorem Linked.chained (hkeys : (plans.map chainKey).Nodup) (hperm : chain.Perm plans)
    (hfirst : ∀ p, chain.head? = some p → chainKey p = "") (hlinked : Linked plans chain) :
    Chained chain where
  first := hfirst
  next := by
    intro before p q after heq
    have hnext := hlinked before p (q :: after) heq
    exact (startsFrom_mem hnext).2
  starts := (hperm.map _).nodup_iff.mpr hkeys
  targets := by
    intro before p after heq q hq hkey
    -- the plan would follow itself or a later one
    have hmem : q ∈ plans := by
      refine hperm.mem_iff.mp ?_
      rw [heq, List.append_cons]
      exact List.mem_append_left _ hq
    have hnext := hlinked before p after heq
    rw [(startsFrom_eq hkeys).mpr ⟨hmem, hkey⟩] at hnext
    have hafter : q ∈ after := List.mem_of_mem_head? hnext.symm
    have hnodup : chain.Nodup := (hperm.nodup_iff).mpr hkeys.of_map
    rw [heq, List.append_cons, List.nodup_append] at hnodup
    exact hnodup.2.2 q hq q hafter rfl

theorem chained_of_chainPlans (h : chainPlans plans = .ok chain) :
    chain.Perm plans ∧ Chained chain := by
  unfold chainPlans at h
  by_cases hnil : plans = []
  · rw [if_pos hnil] at h
    cases h
    rw [hnil]
    exact ⟨.nil, by simp, by simp, List.nodup_nil, by simp⟩
  · rw [if_neg hnil] at h
    cases hfirst : startsFrom plans "" with
    | none => simp [hfirst] at h
    | some p =>
      simp only [hfirst, Option.isNone_some, Bool.false_eq_true, if_false, List.append_nil] at h
      split at h
      · cases h
      · next hshared =>
        have hkeys := sharedStarts_eq_nil.mp (not_not.mp hshared)
        obtain ⟨hpmem, hpkey⟩ := startsFrom_mem hfirst
        obtain ⟨chain', hfrom, h⟩ := ok_bind.mp h
        have hsubset := chainFrom_subset (List.nil_subset _) hpmem hfrom
        obtain ⟨path, hchain, hnodup, hlinked⟩ := chainFrom_spec List.nodup_nil hfrom
        split at h
        · cases h
        · next hreached =>
          cases h
          have hperm : chain.Perm plans := by
            refine (List.perm_ext_iff_of_nodup hnodup hkeys.of_map).mpr fun q => ⟨@hsubset q, ?_⟩
            intro hq
            have hnot := List.filter_eq_nil_iff.mp (not_not.mp hreached) q hq
            simpa using hnot
          refine ⟨hperm, Linked.chained hkeys hperm ?_ ?_⟩
          · intro q hq
            rw [hchain] at hq
            cases hq
            exact hpkey
          · rw [hchain]
            exact hlinked

end Accepts

section Ends

/-- The walk has met a visited plan or the end when its fuel is used up: more fuel changes nothing. -/
theorem chainFrom_enough {n : Nat} {visited : List Plan} (hp : p ∈ plans)
    (hn : (plans.filter (· ∉ visited)).length ≤ n) :
    chainFrom plans (n + 1) visited p = chainFrom plans n visited p := by
  induction n generalizing visited p with
  | zero =>
    have hall := List.filter_eq_nil_iff.mp (List.length_eq_zero_iff.mp (Nat.le_zero.mp hn)) p hp
    have hmem : p ∈ visited := by simpa using hall
    simp only [chainFrom, if_pos hmem]
  | succ n ih =>
    rw [chainFrom, chainFrom]
    by_cases hmem : p ∈ visited
    · rw [if_pos hmem, if_pos hmem]
    · rw [if_neg hmem, if_neg hmem]
      cases hnext : startsFrom plans p.to with
      | none => rfl
      | some q =>
        refine ih (startsFrom_mem hnext).1 ?_
        have hfewer : (plans.filter (· ∉ visited ++ [p])).length <
            (plans.filter (· ∉ visited)).length := by
          have hsub : plans.filter (· ∉ visited ++ [p]) =
              (plans.filter (· ∉ visited)).filter (· ≠ p) := by
            rw [List.filter_filter]
            refine List.filter_congr fun q _ => ?_
            simp [Bool.and_comm]
          rw [hsub]
          refine List.length_filter_lt_length_iff_exists.mpr ⟨p, ?_, by simp⟩
          exact List.mem_filter.mpr ⟨hp, by simpa using hmem⟩
        omega

theorem chainFrom_ends (hp : p ∈ plans) {n : Nat} (hn : plans.length ≤ n) :
    chainFrom plans n [] p = chainFrom plans plans.length [] p := by
  induction n, hn using Nat.le_induction with
  | base => rfl
  | succ n hn ih =>
    rw [chainFrom_enough hp, ih]
    exact le_trans (List.length_filter_le _ _) hn

end Ends

section Order

theorem sortedNames_perm {names names' : List String} (h : names.Perm names') :
    sortedNames names = sortedNames names' := sortedEntries_congr h fun _ _ _ _ heq => heq

theorem startsFrom_isNone_perm (hperm : plans.Perm plans') (hash : String) :
    (startsFrom plans hash).isNone = (startsFrom plans' hash).isNone := by
  rw [Bool.eq_iff_iff, Option.isNone_iff_eq_none, Option.isNone_iff_eq_none, startsFrom_none,
    startsFrom_none, (hperm.map chainKey).mem_iff]

theorem sharedStarts_perm (hperm : plans.Perm plans') : sharedStarts plans = sharedStarts plans' := by
  unfold sharedStarts
  rw [sortedNames_perm (hperm.map chainKey).dedup]
  refine List.filterMap_congr fun key _ => ?_
  have hfilter := hperm.filter fun p => decide (chainKey p = key)
  simp only [hfilter.length_eq, sortedNames_perm (hfilter.map Plan.name)]

theorem startsFrom_perm (hperm : plans.Perm plans') (hkeys : (plans.map chainKey).Nodup)
    (hash : String) : startsFrom plans hash = startsFrom plans' hash := by
  refine Option.ext fun p => ?_
  rw [startsFrom_eq hkeys, startsFrom_eq ((hperm.map _).nodup_iff.mp hkeys), hperm.mem_iff]

theorem chainFrom_perm (hperm : plans.Perm plans') (hkeys : (plans.map chainKey).Nodup) (n : Nat)
    (visited : List Plan) (p : Plan) : chainFrom plans n visited p = chainFrom plans' n visited p := by
  induction n generalizing visited p with
  | zero => rfl
  | succ n ih =>
    rw [chainFrom, chainFrom, startsFrom_perm hperm hkeys]
    simp only [ih]

/-- The order of the plans does not matter. -/
theorem chainPlans_perm (hperm : plans.Perm plans') : chainPlans plans = chainPlans plans' := by
  have hfirst := startsFrom_isNone_perm hperm ""
  unfold chainPlans
  by_cases hnil : plans = []
  · rw [if_pos hnil, if_pos (by rw [hnil] at hperm; exact List.nil_perm.mp hperm)]
  · have hnil' : plans' ≠ [] := fun h => hnil (List.perm_nil.mp (h ▸ hperm))
    rw [if_neg hnil, if_neg hnil']
    simp only [← sharedStarts_perm hperm, ← hfirst]
    by_cases hout : sharedStarts plans ++
        (if (startsFrom plans "").isNone then ["no plan starts from empty"] else []) ≠ []
    · rw [if_pos hout, if_pos hout]
    · have hkeys := sharedStarts_eq_nil.mp (List.append_eq_nil_iff.mp (not_not.mp hout)).1
      rw [if_neg hout, if_neg hout, ← startsFrom_perm hperm hkeys]
      cases startsFrom plans "" with
      | none => rfl
      | some p =>
        simp only [← hperm.length_eq, ← chainFrom_perm hperm hkeys]
        refine congrArg _ (funext fun chain => ?_)
        have hunreached := hperm.filter fun q => decide (q ∉ chain)
        simp only [sortedNames_perm (hunreached.map Plan.name)]
        have hempty : plans.filter (fun q => decide (q ∉ chain)) ≠ [] ↔
            plans'.filter (fun q => decide (q ∉ chain)) ≠ [] := by
          rw [← List.length_pos_iff_ne_nil, ← List.length_pos_iff_ne_nil, hunreached.length_eq]
        simp only [hempty]

end Order

/-- Plans are accepted exactly when an order of them is a chain; it is the only one, it is returned,
the walk ends by itself, and the order of the plans does not matter. -/
theorem chainPlans_iff (plans : List Plan) :
    (∀ chain, chainPlans plans = .ok chain ↔ chain.Perm plans ∧ Chained chain) ∧
    (∀ chain chain', chain.Perm plans → Chained chain → chain'.Perm plans → Chained chain' →
      chain = chain') ∧
    (∀ p ∈ plans, ∀ n, plans.length ≤ n →
      chainFrom plans n [] p = chainFrom plans plans.length [] p) ∧
    ∀ plans', plans'.Perm plans → chainPlans plans' = chainPlans plans := by
  refine ⟨fun chain => ⟨chained_of_chainPlans, fun h => chainPlans_of_chained h.1 h.2⟩, ?_,
    fun p hp n hn => chainFrom_ends hp hn, fun plans' hperm => chainPlans_perm hperm⟩
  intro chain chain' hperm hchained hperm' hchained'
  have hsame := chainPlans_of_chained hperm hchained
  rw [chainPlans_of_chained hperm' hchained'] at hsame
  exact (Except.ok.inj hsame).symm

end Orm.Dbspec
