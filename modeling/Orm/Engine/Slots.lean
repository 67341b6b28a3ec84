import Orm.Engine.Canonical

/-! What the canonical form of a request keeps. Each fact is a pass over the canonical request that
does what another pass does over the request. -/
namespace Orm.Engine

open Orm.Logic

section Steps
variable {V : Type} {num : Numbers V} {params : List V}

def flags (n : Nat) (x : List Reference) : List Bool :=
  (List.range n).map fun i => decide (.param i ∈ x)

theorem paramAt_some {p : Int} {v : V} (h : paramAt params p = some v) :
    ∃ i : Nat, p = i ∧ ∃ hi : i < params.length, params[i] = v := by
  unfold paramAt at h
  split at h
  · obtain ⟨hi, hv⟩ := List.getElem?_eq_some_iff.mp h
    exact ⟨p.toNat, by omega, hi, hv⟩
  · cases h

theorem paramAt_natCast (i : Nat) : paramAt params i = params[i]? := by
  simp [paramAt]

theorem mark_flags {y : Reference} {v : V} (h : y.value num params = some v)
    (x : List Reference) :
    y.mark (flags params.length x) = flags params.length (x ++ [y]) := by
  cases y with
  | page n => simp [Reference.mark, flags]
  | param p =>
    obtain ⟨i, rfl, hi, -⟩ := paramAt_some h
    apply List.ext_getElem (by simp [Reference.mark, flags])
    intro j hj hj'
    simp only [Reference.mark, flags, List.getElem_set, List.getElem_map, List.getElem_range,
      Int.toNat_natCast, List.mem_append, List.mem_singleton, Reference.param.injEq, Nat.cast_inj]
    by_cases hij : i = j
    · simp [hij]
    · simp [hij, Ne.symm hij]

/-- After a walk that collected `x`, the slots hold the values of `x` in order, and the walk of its
result collects the numbers of the slots. -/
structure Collected (num : Numbers V) (params : List V) (s : Slots V) (t x : List Reference) :
    Prop where
  numbered : t = (List.range s.out.length).map fun i => .param i
  values : s.out.map some = x.map (Reference.value num params)
  used : s.used = flags params.length x

theorem Collected.push {s : Slots V} {t x : List Reference} {y : Reference} {v : V}
    (h : Collected num params s t x) (hy : y.value num params = some v) :
    Collected num params (s.push y v) (t ++ [.param s.out.length]) (x ++ [y]) := by
  refine ⟨?_, ?_, ?_⟩
  · simp [Slots.push, h.numbered, List.range_succ]
  · simp [Slots.push, h.values, hy]
  · rw [Slots.push, h.used, mark_flags hy]

theorem Slots.push_length (s : Slots V) (y : Reference) (v : V) :
    ((s.push y v).out.length : Int) = s.out.length + 1 := by
  simp [Slots.push]

theorem Reference.limit_run (l : Limit) (x : List Reference) :
    Reference.limit true l x = .ok (.params 0 0, x ++ [l.pages.1] ++ [l.pages.2]) := by
  cases l <;> rfl

/-- The canonical request collects the numbers of the slots. -/
theorem canonical_collects : Chases (fun _ => True) (Collected num params)
    (Canonicalizer.visitor num params) Reference.visitor Reference.visitor := by
  have hindex : ∀ p, Passes (fun _ => True) (Collected num params)
      (Canonicalizer.index params p) Reference.visitor.index (Reference.visitor.index p) := by
    intro p s i s' hw _
    obtain ⟨v, hv, rfl, rfl⟩ := Canonicalizer.index_ok hw
    exact ⟨trivial, fun t x hi => ⟨0, _, _, rfl, rfl, hi.push (y := .param p) hv⟩⟩
  refine ⟨hindex, Canonicalizer.list_passes hindex ?_ ?_, ?_⟩
  · intro l hl
    simp only [Reference.visitor, hl, Option.getD_some]
  · intro ps qs hps
    simp only [Reference.visitor, hps, Option.getD_some]
  · intro root l s l' s' hw _
    cases root with
    | false =>
      obtain ⟨rfl, rfl⟩ := Canonicalizer.limit_ok hw
      exact ⟨trivial, fun t x hi => ⟨l', t, x, rfl, rfl, hi⟩⟩
    | true =>
      obtain ⟨v₁, v₂, hv₁, hv₂, -, -, rfl, rfl⟩ := Canonicalizer.limit_root_ok hw
      refine ⟨trivial, fun t x hi => ?_⟩
      have hboth := (hi.push hv₁).push hv₂
      rw [Slots.push_length] at hboth
      exact ⟨.params 0 0, _, _, rfl, Reference.limit_run l x, hboth⟩

/-- A walk that changes nothing but the order of named entries. -/
def same : Visitor PUnit.{1} Empty := ⟨pure, pure, fun _ => pure⟩

namespace Numbering

def next : StateT Nat (Except Empty) Int := fun n => .ok (n, n + 1)

def limit : Bool → Limit → StateT Nat (Except Empty) Limit
  | true, _ => do
    let i ← next
    let j ← next
    pure (.params i j)
  | false, l => pure l

/-- Numbers the references of a padded request from zero. -/
def visitor : Visitor Nat Empty :=
  ⟨fun _ => next, fun ps => ((padded ps).getD ps).mapM fun _ => next, limit⟩

end Numbering

theorem mapM_same (l : List Int) : l.mapM same.index = (pure l : StateT _ (Except Empty) _) := by
  induction l with
  | nil => rfl
  | cons p l ih => rw [List.mapM_cons, ih]; rfl

/-- The canonical request is the numbered one. -/
theorem canonical_numbers : Chases (fun _ => True) (fun s _ n => n = s.out.length)
    (Canonicalizer.visitor num params) same Numbering.visitor := by
  have hindex : ∀ p, Passes (fun _ => True) (fun s _ n => n = s.out.length)
      (Canonicalizer.index params p) same.index (Numbering.visitor.index p) := by
    intro p s i s' hw _
    obtain ⟨v, hv, rfl, rfl⟩ := Canonicalizer.index_ok hw
    refine ⟨trivial, fun t n hn => ⟨_, t, n + 1, rfl, ?_, ?_⟩⟩
    · rw [hn]; rfl
    · simp [Slots.push, hn]
  refine ⟨hindex, Canonicalizer.list_passes hindex ?_ ?_, ?_⟩
  · intro l hl
    rw [mapM_same]
    rfl
  · intro ps qs hps
    simp only [Numbering.visitor, hps, Option.getD_some]
  · intro root l s l' s' hw _
    cases root with
    | false =>
      obtain ⟨rfl, rfl⟩ := Canonicalizer.limit_ok hw
      exact ⟨trivial, fun t n hn => ⟨l', t, n, rfl, rfl, hn⟩⟩
    | true =>
      obtain ⟨v₁, v₂, -, -, -, -, rfl, rfl⟩ := Canonicalizer.limit_root_ok hw
      refine ⟨trivial, fun t n hn => ⟨_, t, n + 2, rfl, ?_, ?_⟩⟩
      · rw [hn]; rfl
      · simp [Slots.push, hn]

/-- The named entries of the canonical request are in order. -/
theorem canonical_sorted : Chases (fun _ => True) (fun s _ x => x = s)
    (Canonicalizer.visitor num params) same (Canonicalizer.visitor num params) := by
  refine ⟨?_, ?_, ?_⟩
  · intro p s i s' hw _
    exact ⟨trivial, fun t x hx => ⟨i, t, s', rfl, by rw [hx]; exact hw, rfl⟩⟩
  · intro ps s l s' hw _
    exact ⟨trivial, fun t x hx => ⟨l, t, s', rfl, by rw [hx]; exact hw, rfl⟩⟩
  · intro root l s l' s' hw _
    exact ⟨trivial, fun t x hx => ⟨l', t, s', rfl, by rw [hx]; exact hw, rfl⟩⟩

theorem padded_none {ps l : List Int} (h : padded ps = none) (hl : l.length = ps.length) :
    padded l = none := by
  have hne : ps ≠ [] := by
    rintro rfl
    simp [padded] at h
  have hlne : l ≠ [] := by
    rintro rfl
    exact hne (List.length_eq_zero_iff.mp hl.symm)
  rw [padded, if_neg hne, Option.map_eq_none_iff] at h
  rw [padded, if_neg hlne, hl, h]
  rfl

/-- The numbered request depends only on the shape. -/
theorem shape_numbers : Chases (fun _ => True) (fun _ n m => n = m)
    Reference.visitor Numbering.visitor Numbering.visitor := by
  have hindex : ∀ p, Passes (fun _ => True) (fun _ n m => n = m)
      (Reference.visitor.index p) Numbering.visitor.index (Numbering.visitor.index p) := by
    rintro p s i s' - -
    refine ⟨trivial, ?_⟩
    rintro n _ rfl
    exact ⟨_, _, _, rfl, rfl, rfl⟩
  refine ⟨hindex, ?_, ?_⟩
  · intro ps
    have hlength : Holds (fun _ => True)
        (((padded ps).getD ps).mapM fun p => Reference.add (.param p))
        fun l => l.length = ((padded ps).getD ps).length :=
      (Holds.mapM (R := fun _ _ => True) fun _ _ _ _ _ _ _ => ⟨trivial, trivial⟩).mono
        fun l hl => hl.length_eq.symm
    have hall := (Passes.mapM ((padded ps).getD ps) fun p _ => hindex p).mapOf hlength
      (f := id) (g := id) (V := Numbering.visitor.list) fun l hl => by
        rw [id, id_map]
        have hself : (padded l).getD l = l := by
          cases hps : padded ps with
          | none => rw [padded_none hps (by rw [hl, hps]; rfl)]; rfl
          | some qs => rw [padded_self hps (by rw [hl, hps]; rfl)]; rfl
        simp only [Numbering.visitor, hself]
    rw [id_map, id_map] at hall
    exact hall
  · rintro root l s l' s' hw -
    refine ⟨trivial, ?_⟩
    rintro n _ rfl
    cases root with
    | false =>
      cases hw
      exact ⟨_, _, _, rfl, rfl, rfl⟩
    | true => exact ⟨_, _, _, rfl, rfl, rfl⟩

/-- The slots of a walk with every parameter below their number marked. -/
def replayed (again : List V) (s : Slots V) : Slots V :=
  ⟨s.out, (List.range again.length).map fun i => decide (i < s.out.length)⟩

theorem replayed_push {again : List V} {s : Slots V} (y : Reference) (v : V) :
    (replayed again s).push (.param s.out.length) v = replayed again (s.push y v) := by
  simp only [replayed, Slots.push, Reference.mark, Int.toNat_natCast, Slots.mk.injEq, true_and]
  apply List.ext_getElem (by simp)
  intro i hi hi'
  simp only [List.getElem_set, List.getElem_map, List.getElem_range, List.length_append,
    List.length_singleton]
  by_cases h : s.out.length = i
  · simp [h]
  · rw [if_neg h]
    exact decide_eq_decide.mpr (by omega)

theorem paramAt_push {again : List V} {s : Slots V} {y : Reference} {v : V}
    (h : (s.push y v).out <+: again) : paramAt again s.out.length = some v := by
  obtain ⟨rest, rfl⟩ := h
  simp [paramAt_natCast, Slots.push]

theorem IsPrefix.of_push {again : List V} {s : Slots V} {y : Reference} {v : V}
    (h : (s.push y v).out <+: again) : s.out <+: again :=
  (List.prefix_append _ _).trans h

/-- A walk of the canonical request with the values of the slots does what the first walk did. -/
theorem canonical_repeats (again : List V) :
    Chases (fun s => s.out <+: again) (fun s t x => x = s ∧ t = replayed again s)
      (Canonicalizer.visitor num params) (Canonicalizer.visitor num again)
      (Canonicalizer.visitor num params) := by
  have hindex : ∀ p, Passes (fun s => s.out <+: again) (fun s t x => x = s ∧ t = replayed again s)
      (Canonicalizer.index params p) (Canonicalizer.index again)
      (Canonicalizer.index params p) := by
    intro p s i s' hw hgood
    obtain ⟨v, hv, rfl, rfl⟩ := Canonicalizer.index_ok hw
    refine ⟨IsPrefix.of_push hgood, ?_⟩
    rintro t x ⟨rfl, rfl⟩
    refine ⟨_, _, _, Canonicalizer.index_run (paramAt_push hgood) _, hw, rfl, ?_⟩
    exact replayed_push _ v
  refine ⟨hindex, Canonicalizer.list_passes hindex (fun _ => Canonicalizer.list_eq)
    (fun _ _ => Canonicalizer.list_eq), ?_⟩
  intro root l s l' s' hw hgood
  cases root with
  | false =>
    obtain ⟨rfl, rfl⟩ := Canonicalizer.limit_ok hw
    refine ⟨hgood, ?_⟩
    rintro t x ⟨rfl, rfl⟩
    cases l' with
    | values offset count => exact ⟨_, _, _, rfl, rfl, rfl, rfl⟩
    | params offset count => cases hw
  | true =>
    obtain ⟨v₁, v₂, -, -, hc₁, hc₂, rfl, rfl⟩ := Canonicalizer.limit_root_ok hw
    have hgood₁ := IsPrefix.of_push hgood
    refine ⟨IsPrefix.of_push hgood₁, ?_⟩
    rintro t x ⟨rfl, rfl⟩
    refine ⟨_, _, _, ?_, hw, rfl, rfl⟩
    have hfirst := Canonicalizer.pageIndex_run (paramAt_push hgood₁) hc₁ (replayed again x)
    have hsecond := Canonicalizer.pageIndex_run (paramAt_push hgood) hc₂
      (replayed again (x.push l.pages.1 v₁))
    rw [replayed_push l.pages.1] at hfirst
    rw [replayed_push l.pages.2, Slots.push_length] at hsecond
    change (Canonicalizer.pageIndex num again false _ >>= fun i =>
      Canonicalizer.pageIndex num again true _ >>= fun j => pure (Limit.params i j)) _ = _
    rw [run_bind_ok hfirst, run_bind_ok hsecond, run_pure, ← Slots.push_length x l.pages.1 v₁]
    rfl

/-- Two lists of parameters have the same values. -/
def SameValues (again params : List V) (l l' : List Int) : Prop :=
  ∀ v, (∃ p ∈ l, paramAt again p = some v) ↔ ∃ p ∈ l', paramAt params p = some v

/-- The slots of a list hold the values of its parameters. -/
theorem mapM_index_ok {again : List V} {qs l : List Int} {s s' : Slots V}
    (h : qs.mapM (Canonicalizer.index params) s = .ok (l, s')) (hagain : s'.out <+: again) :
    s.out <+: again ∧ l.map (paramAt again) = qs.map (paramAt params) := by
  induction qs generalizing s l with
  | nil =>
    cases h
    exact ⟨hagain, rfl⟩
  | cons p qs ih =>
    rw [List.mapM_cons] at h
    obtain ⟨⟨i, s₁⟩, hp, h⟩ := ok_bind.mp h
    obtain ⟨⟨l', s₂⟩, hqs, h⟩ := ok_bind.mp h
    cases h
    obtain ⟨v, hv, rfl, rfl⟩ := Canonicalizer.index_ok hp
    obtain ⟨hpre, hall⟩ := ih hqs
    refine ⟨IsPrefix.of_push hpre, ?_⟩
    rw [List.map_cons, List.map_cons, hall, hv, paramAt_push hpre]

theorem sameValues_of_slots {again : List V} {ps qs l : List Int} (hps : padded ps = some qs)
    (h : l.map (paramAt again) = qs.map (paramAt params)) : SameValues again params l ps := by
  intro v
  have hmem : some v ∈ l.map (paramAt again) ↔ some v ∈ qs.map (paramAt params) := by rw [h]
  simpa only [List.mem_map, mem_padded hps] using hmem

/-- Collects the lists that pad. -/
def Padded.visitor : Visitor (List (List Int)) Empty where
  index _ := pure 0
  list ps := fun l => .ok (((padded ps).getD ps).map fun _ => 0, l ++ [ps])
  limit root l := pure (if root then .params 0 0 else l)

/-- The padded lists have the values of the lists. -/
theorem canonical_lists (again : List V) :
    Chases (fun s => s.out <+: again) (fun _ t x => List.Forall₂ (SameValues again params) t x)
      (Canonicalizer.visitor num params) Padded.visitor Padded.visitor := by
  refine ⟨?_, ?_, ?_⟩
  · intro p s i s' hw hgood
    obtain ⟨v, hv, rfl, rfl⟩ := Canonicalizer.index_ok hw
    exact ⟨IsPrefix.of_push hgood, fun t x hi => ⟨0, t, x, rfl, rfl, hi⟩⟩
  · intro ps s l s' hw hgood
    change Canonicalizer.list params ps s = _ at hw
    unfold Canonicalizer.list at hw
    cases hps : padded ps with
    | none =>
      rw [hps] at hw
      cases hw
    | some qs =>
      rw [hps] at hw
      obtain ⟨hpre, hl⟩ := mapM_index_ok hw hgood
      have hlength : l.length = qs.length := by simpa using congrArg List.length hl
      refine ⟨hpre, fun t x hi => ⟨l.map fun _ => 0, t ++ [l], x ++ [ps], ?_, ?_, ?_⟩⟩
      · simp only [Padded.visitor, padded_self hps hlength, Option.getD_some]
      · simp only [Padded.visitor, hps, Option.getD_some, List.map_const', hlength]
      · exact List.rel_append hi (.cons (sameValues_of_slots hps hl) .nil)
  · intro root l s l' s' hw hgood
    cases root with
    | false =>
      obtain ⟨rfl, rfl⟩ := Canonicalizer.limit_ok hw
      exact ⟨hgood, fun t x hi => ⟨l', t, x, rfl, rfl, hi⟩⟩
    | true =>
      obtain ⟨v₁, v₂, -, -, -, -, rfl, rfl⟩ := Canonicalizer.limit_root_ok hw
      exact ⟨IsPrefix.of_push (IsPrefix.of_push hgood),
        fun t x hi => ⟨.params 0 0, t, x, rfl, rfl, hi⟩⟩

/-- The parameter indexes, the lists that pad, and the page limits of a request. -/
structure Parts where
  params : List Int
  lists : List (List Int)
  limits : List (Bool × Limit)

def Parts.visitor : Visitor Parts Empty where
  index p := fun s => .ok (p, { s with params := s.params ++ [p] })
  list ps := fun s => .ok (ps, { s with params := s.params ++ ps, lists := s.lists ++ [ps] })
  limit root l := fun s => .ok (l, { s with limits := s.limits ++ [(root, l)] })

/-- Whether the walk accepts a page limit. -/
def acceptsLimit (num : Numbers V) (params : List V) : Bool → Limit → Bool
  | true, .values offset count =>
    safeInteger offset && safeInteger count && 0 ≤ offset && 0 < count
  | true, .params offset count =>
    (paramAt params offset).any (fun v => (Canonicalizer.pageCheck num false v).isOk) &&
      (paramAt params count).any (fun v => (Canonicalizer.pageCheck num true v).isOk)
  | false, .values _ _ => true
  | false, .params _ _ => false

/-- Every reference is in range, every list has a bucket, and every page limit is accepted. -/
structure Parts.Readable (num : Numbers V) (params : List V) (x : Parts) : Prop where
  inRange : ∀ p ∈ x.params, (paramAt params p).isSome
  bucketed : ∀ l ∈ x.lists, (padded l).isSome
  accepted : ∀ l ∈ x.limits, acceptsLimit num params l.1 l.2

theorem mapM_index_run {qs : List Int} (h : ∀ p ∈ qs, (paramAt params p).isSome) (s : Slots V) :
    ∃ l s', qs.mapM (Canonicalizer.index params) s = .ok (l, s') := by
  induction qs generalizing s with
  | nil => exact ⟨_, _, rfl⟩
  | cons p qs ih =>
    obtain ⟨v, hv⟩ := Option.isSome_iff_exists.mp (h p List.mem_cons_self)
    obtain ⟨l, s', hl⟩ := ih (fun q hq => h q (List.mem_cons_of_mem _ hq)) (s.push (.param p) v)
    rw [List.mapM_cons, run_bind_ok (Canonicalizer.index_run hv s), run_bind_ok hl]
    exact ⟨_, _, rfl⟩

theorem pageIndex_isOk {count : Bool} {p : Int}
    (h : (paramAt params p).any (fun v => (Canonicalizer.pageCheck num count v).isOk) = true)
    (s : Slots V) : ∃ i s', Canonicalizer.pageIndex num params count p s = .ok (i, s') := by
  cases hv : paramAt params p with
  | none => simp [hv] at h
  | some v =>
    obtain ⟨⟨⟩, hcheck⟩ := exists_ok (x := Canonicalizer.pageCheck num count v) (by simpa [hv] using h)
    exact ⟨_, _, Canonicalizer.pageIndex_run hv hcheck s⟩

theorem limit_isOk {root : Bool} {l : Limit} (h : acceptsLimit num params root l = true)
    (s : Slots V) : ∃ l' s', Canonicalizer.limit num params root l s = .ok (l', s') := by
  cases root with
  | false =>
    cases l with
    | values offset count => exact ⟨_, _, rfl⟩
    | params offset count => cases h
  | true =>
    cases l with
    | values offset count =>
      simp only [acceptsLimit, Bool.and_eq_true, decide_eq_true_eq] at h
      obtain ⟨⟨⟨hso, hsc⟩, ho⟩, hc⟩ := h
      rw [Canonicalizer.limit, if_neg (by simp [hso, hsc]), if_neg (by omega)]
      exact ⟨_, _, rfl⟩
    | params offset count =>
      simp only [acceptsLimit, Bool.and_eq_true] at h
      obtain ⟨i, s₁, hi⟩ := pageIndex_isOk h.1 s
      obtain ⟨j, s₂, hj⟩ := pageIndex_isOk h.2 s₁
      rw [Canonicalizer.limit, run_bind_ok hi, run_bind_ok hj]
      exact ⟨_, _, rfl⟩

/-- The walk of a request whose parts are readable returns. -/
theorem readable_returns : Chases (Parts.Readable num params) (fun _ t x => t = x)
    Parts.visitor (Canonicalizer.visitor num params) (Canonicalizer.visitor num params) := by
  refine ⟨?_, ?_, ?_⟩
  · intro p s i s' hw hgood
    cases hw
    refine ⟨⟨fun q hq => hgood.inRange q (List.mem_append_left _ hq), hgood.bucketed, hgood.accepted⟩, ?_⟩
    rintro t _ rfl
    obtain ⟨v, hv⟩ := Option.isSome_iff_exists.mp (hgood.inRange p (by simp))
    have hrun := Canonicalizer.index_run hv t
    exact ⟨_, _, _, hrun, hrun, rfl⟩
  · intro ps s l s' hw hgood
    cases hw
    refine ⟨⟨fun q hq => hgood.inRange q (List.mem_append_left _ hq),
      fun q hq => hgood.bucketed q (List.mem_append_left _ hq), hgood.accepted⟩, ?_⟩
    rintro t _ rfl
    obtain ⟨qs, hqs⟩ := Option.isSome_iff_exists.mp (hgood.bucketed ps (by simp))
    have hin : ∀ q ∈ qs, (paramAt params q).isSome := fun q hq =>
      hgood.inRange q (List.mem_append_right _ ((mem_padded hqs q).mp hq))
    obtain ⟨l, t', hrun⟩ := mapM_index_run hin t
    rw [← Canonicalizer.list_eq hqs] at hrun
    exact ⟨_, _, _, hrun, hrun, rfl⟩
  · intro root l s l' s' hw hgood
    cases hw
    refine ⟨⟨hgood.inRange, hgood.bucketed, fun q hq => hgood.accepted q (List.mem_append_left _ hq)⟩, ?_⟩
    rintro t _ rfl
    obtain ⟨l', t', hrun⟩ := limit_isOk (hgood.accepted (root, l) (by simp)) t
    exact ⟨_, _, _, hrun, hrun, rfl⟩

end Steps

/-- The lists that pad of a site. -/
def Site.lists : Site → List (List Int)
  | .list ps => [ps]
  | _ => []

def Site.params : Site → List Int
  | .index p => [p]
  | .list ps => ps
  | .limit _ _ => []

def Site.limits : Site → List (Bool × Limit)
  | .limit root l => [(root, l)]
  | _ => []

/-- The parts of a request that decide whether its walk returns. -/
def parts (r : Request) : Parts :=
  ⟨(Sites.request r).flatMap Site.params, (Sites.request r).flatMap Site.lists,
    (Sites.request r).flatMap Site.limits⟩

/-- The lists of a request that pad. -/
def paddedLists (r : Request) : List (List Int) := (Sites.request r).flatMap Site.lists

section Walks

theorem foldl_append_eq {α β : Type} (f : α → List β) (l : List α) (s : List β) :
    l.foldl (fun s x => s ++ f x) s = s ++ l.flatMap f := by
  induction l generalizing s with
  | nil => simp
  | cons x l ih => rw [List.foldl_cons, ih, List.flatMap_cons, List.append_assoc]

theorem mapM_add (ps : List Int) (s : List Reference) :
    (ps.mapM fun p => Reference.add (.param p)) s =
      .ok (ps.map fun _ => 0, s ++ ps.map .param) := by
  induction ps generalizing s with
  | nil => simp [pure, StateT.pure, Except.pure]
  | cons p ps ih =>
    have hadd : Reference.add (.param p) s = .ok (0, s ++ [.param p]) := rfl
    rw [List.mapM_cons, run_bind_ok hadd, run_bind_ok (ih _), run_pure]
    simp

/-- The walk that collects references makes the blank request and finds the references of all
sites. -/
theorem walk_references (r : Request) :
    Reference.visitor.request r [] = .ok (blank.request r, references r) := by
  have hnotes : Notes Reference.visitor blank fun s x => s ++ x.references := by
    refine ⟨fun p s => rfl, fun ps s => mapM_add _ s, fun root l s => ?_⟩
    cases root with
    | false => exact congrArg (fun s => Except.ok (l, s)) (List.append_nil s).symm
    | true =>
      rw [show Reference.visitor.limit true l s = _ from Reference.limit_run l s]
      cases l <;> simp [Site.references, Limit.pages, blank]
  rw [hnotes.request r [], foldl_append_eq]
  rfl

theorem walk_lists (r : Request) :
    Padded.visitor.request r [] = .ok (blank.request r, paddedLists r) := by
  have hnotes : Notes Padded.visitor blank fun s x => s ++ x.lists := by
    refine ⟨fun p s => ?_, fun ps s => rfl, fun root l s => ?_⟩
    · exact congrArg (fun s => Except.ok (0, s)) (List.append_nil s).symm
    · exact congrArg (fun s => Except.ok (_, s)) (List.append_nil s).symm
  rw [hnotes.request r [], foldl_append_eq]
  rfl

theorem walk_parts (r : Request) :
    ∃ q, Parts.visitor.request r ⟨[], [], []⟩ = .ok (q, parts r) := by
  have hnotes : Notes Parts.visitor ⟨id, id, fun _ l => l⟩ fun s x =>
      ⟨s.params ++ x.params, s.lists ++ x.lists, s.limits ++ x.limits⟩ := by
    refine ⟨fun p s => ?_, fun ps s => ?_, fun root l s => ?_⟩ <;>
      simp [Parts.visitor, Site.params, Site.lists, Site.limits]
  have hfold (l : List Site) (s : Parts) : l.foldl (fun s x =>
      (⟨s.params ++ x.params, s.lists ++ x.lists, s.limits ++ x.limits⟩ : Parts)) s =
      ⟨s.params ++ l.flatMap Site.params, s.lists ++ l.flatMap Site.lists,
        s.limits ++ l.flatMap Site.limits⟩ := by
    induction l generalizing s with
    | nil => simp
    | cons x l ih => simp [ih]
  have hwalk := hnotes.request r ⟨[], [], []⟩
  rw [hfold] at hwalk
  exact ⟨_, hwalk⟩

end Walks

section Canonical
variable {V : Type} {num : Numbers V} {params : List V}

theorem request_nParams {σ ε : Type} (c : Visitor σ ε) (r : Request) (n : Int) :
    c.request { r with nParams := n } = (fun r' => { r' with nParams := n }) <$> c.request r := by
  simp only [Visitor.request, map_bind, map_pure]

theorem request_nParams_ok {σ ε : Type} {c : Visitor σ ε} {r q : Request} {s s' : σ} (n : Int)
    (h : c.request r s = .ok (q, s')) :
    c.request { r with nParams := n } s = .ok ({ q with nParams := n }, s') := by
  rw [request_nParams, run_map_ok h]

theorem canonicalize_ok {r r' : Request} {again : List V}
    (h : canonicalize num r params = .ok (r', again)) :
    ∃ q s, (Canonicalizer.visitor num params).request r ⟨[], flags params.length []⟩ = .ok (q, s) ∧
      again = s.out ++ unused params s.used ∧ r' = { q with nParams := again.length } := by
  have hflags : params.map (fun _ => false) = flags params.length [] := by simp [flags]
  rw [canonicalize, hflags] at h
  obtain ⟨⟨q, s⟩, hw, h⟩ := ok_bind.mp h
  cases h
  exact ⟨q, s, hw, rfl, rfl⟩

variable {r q : Request} {s : Slots V}
  (hw : (Canonicalizer.visitor num params).request r ⟨[], flags params.length []⟩ = .ok (q, s))
include hw

theorem collected_of_request :
    shape q = shape r ∧ Collected num params s (references q) (references r) := by
  obtain ⟨-, hrest⟩ := canonical_collects.request r _ q s hw trivial
  obtain ⟨b, t, x, hq, hr, hcollected⟩ := hrest [] [] ⟨rfl, rfl, rfl⟩
  rw [walk_references] at hq hr
  obtain ⟨rfl, rfl⟩ := Prod.mk.inj (Except.ok.inj hq)
  obtain ⟨hblank, rfl⟩ := Prod.mk.inj (Except.ok.inj hr)
  exact ⟨congrArg (fun r : Request => { r with nParams := 0 }) hblank.symm, hcollected⟩

theorem numbered_of_request :
    Numbering.visitor.request r 0 = .ok (q, s.out.length) := by
  obtain ⟨-, hnumbers⟩ := canonical_numbers.request r _ q s hw trivial
  obtain ⟨b, t, n, hq, hr, rfl⟩ := hnumbers ⟨⟩ 0 rfl
  obtain ⟨-, hsorted⟩ := canonical_sorted.request r _ q s hw trivial
  obtain ⟨b', t', x, hq', hr', -⟩ := hsorted ⟨⟩ _ rfl
  obtain ⟨rfl, -⟩ := Prod.mk.inj (Except.ok.inj (hw.symm.trans hr'))
  obtain ⟨rfl, -⟩ := Prod.mk.inj (Except.ok.inj (hq.symm.trans hq'))
  exact hr

/-- The canonical request, up to its number of parameters, is the numbered shape. -/
theorem numbered_shape :
    Numbering.visitor.request (shape r) 0 = .ok ({ q with nParams := 0 }, s.out.length) := by
  obtain ⟨-, hrest⟩ := shape_numbers.request r [] _ _ (walk_references r) trivial
  obtain ⟨b, n, _, hb, hr, rfl⟩ := hrest 0 0 rfl
  rw [numbered_of_request hw] at hr
  cases hr
  exact request_nParams_ok 0 hb

theorem lists_of_request (again : List V) (hout : s.out <+: again) :
    List.Forall₂ (SameValues again params) (paddedLists q) (paddedLists r) := by
  obtain ⟨-, hrest⟩ := (canonical_lists again).request r _ q s hw hout
  obtain ⟨b, t, x, hq, hr, hlists⟩ := hrest [] [] .nil
  rw [walk_lists] at hq hr
  obtain ⟨-, rfl⟩ := Prod.mk.inj (Except.ok.inj hq)
  obtain ⟨-, rfl⟩ := Prod.mk.inj (Except.ok.inj hr)
  exact hlists

theorem repeat_of_request (again : List V) (hout : s.out <+: again) :
    (Canonicalizer.visitor num again).request q ⟨[], again.map fun _ => false⟩ =
      .ok (q, replayed again s) := by
  obtain ⟨-, hrest⟩ := (canonical_repeats again).request r _ q s hw hout
  obtain ⟨b, t, x, hq, hr, rfl, rfl⟩ := hrest _ _ ⟨rfl, rfl⟩
  rw [hw] at hr
  cases hr
  have hnone : replayed again ⟨[], flags params.length []⟩ = ⟨[], again.map fun _ => false⟩ := by
    simp [replayed]
  rw [← hnone]
  exact hq

omit hw in
theorem unused_append {a b : List V} {u w : List Bool} (h : a.length = u.length) :
    unused (a ++ b) (u ++ w) = unused a u ++ unused b w := by
  rw [unused, List.zip_append h, List.filterMap_append]
  rfl

omit hw in
theorem unused_replicate (a : List V) (b : Bool) :
    unused a (List.replicate a.length b) = if b then [] else a := by
  induction a with
  | nil => cases b <;> rfl
  | cons v a ih =>
    rw [List.length_cons, List.replicate_succ, unused, List.zip_cons_cons]
    cases b with
    | true => simpa [unused] using ih
    | false => simpa [unused] using ih

omit hw in
/-- The parameters after the slots of a walk. -/
theorem unused_replayed (s : Slots V) (rest : List V) :
    unused (s.out ++ rest) (replayed (s.out ++ rest) s).used = rest := by
  have hused : (replayed (s.out ++ rest) s).used =
      List.replicate s.out.length true ++ List.replicate rest.length false := by
    apply List.ext_getElem (by simp [replayed])
    intro i hi hi'
    rw [List.getElem_append]
    by_cases h : i < s.out.length
    · simp [replayed, h]
    · simp [replayed, h]
  rw [hused, unused_append (by simp), unused_replicate, unused_replicate]
  rfl

/-- The references of the canonical request have the values of those of the request. -/
theorem values_of_request (rest : List V) :
    (references q).map (Reference.value num (s.out ++ rest)) =
      (references r).map (Reference.value num params) := by
  obtain ⟨-, hcollected⟩ := collected_of_request hw
  rw [← hcollected.values, hcollected.numbered, List.map_map]
  apply List.ext_getElem (by simp)
  intro i hi hi'
  have hlt : i < s.out.length := by simpa using hi'
  simp [Reference.value, paramAt_natCast, List.getElem?_append_left hlt,
    List.getElem?_eq_getElem hlt]

omit hw in
/-- Requests of one shape have one canonical form, up to its number of parameters. -/
theorem canonical_of_shape {params₂ : List V} {r₂ q₂ : Request} {s₂ : Slots V}
    (hw : (Canonicalizer.visitor num params).request r ⟨[], flags params.length []⟩ = .ok (q, s))
    (hw₂ : (Canonicalizer.visitor num params₂).request r₂ ⟨[], flags params₂.length []⟩ =
      .ok (q₂, s₂)) (hshape : shape r₂ = shape r) (n : Int) :
    ({ q₂ with nParams := n } : Request) = { q with nParams := n } ∧
      s₂.out.length = s.out.length := by
  have hnumbered := numbered_shape hw
  rw [← hshape, numbered_shape hw₂] at hnumbered
  obtain ⟨hq, hlength⟩ := Prod.mk.inj (Except.ok.inj hnumbered)
  exact ⟨congrArg (fun q : Request => { q with nParams := n }) hq, hlength⟩

end Canonical

/-- A list of three values takes four slots, and a literal root page takes two. -/
example :
    (canonicalize ⟨id, some, fun _ _ _ => rfl⟩
      { irVersion := 1, manifestHash := "m", kind := .all, load := false,
        query := .mk ⟨"book", [], none, some (.values 0 10), "", .none, "", false, 0, none, false⟩
          none none (some (.mk .none false [.mk (some (.mk
            ⟨.none, some "id", .in_, none, [2, 0, 1], none, none, none, []⟩ none)) none none]))
          [] [], set := [], onDuplicate := [], rows := [], optimistic := none, agg := "",
        nParams := 4 } [5, 6, 7, 8]).map Prod.snd = .ok [7, 5, 6, 6, 0, 10, 8] := by
  rfl

end Orm.Engine
