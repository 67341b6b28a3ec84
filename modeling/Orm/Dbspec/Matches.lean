import Orm.Dbspec.Renames

/-! What an accepted diff says of each matched table. -/
namespace Orm.Dbspec

/-- The column renames of a matched table as a map from old to new names. -/
def Match.renames (m : Match) : List (String × String) := m.renamed.map fun r => (r.old, r.new)

/-- The parts of a match that the diff computes, without errors, from two valid tables. -/
structure Match.Sound (m : Match) : Prop where
  sourceNodup : m.source.columnNames.Nodup
  targetNodup : m.target.columnNames.Nodup
  sourceNamed : ∀ c ∈ m.source.columnNames, nameForm c
  targetNamed : ∀ c ∈ m.target.columnNames, nameForm c
  renameSpec : ∀ e ∈ m.renames, e.1 ∈ m.source.columnNames ∧ e.2 ∉ m.source.columnNames ∧
    e.2 ∈ m.target.columnNames
  renameNews : (m.renames.map Prod.snd).Nodup
  columnOf : m.columnOf = columnPairs m.source m.target m.renames
  removed : m.removed = removedColumns m.source m.target m.renames
  added : m.added = (addedColumns m.source m.target m.renames).map Column.name
  altered : m.altered = alteredColumns m.source m.target m.renames
  accepted : ∀ c ∈ m.target.columns, ∀ s, sourceColumn m.source m.target m.renames c = some s →
    columnRefused m.target s c = none
  order : orderErrors m.source m.target m.renames = []

section Accepted
variable {R : Renderer} {source : Option Document} {p : Plan} {d : Diff} {m : Match}

theorem Accepted.mem_matched (h : Accepted R source p d) :
    m ∈ d.matched ↔ ∃ x ∈ matchedTables source p, m = matchOf source p R x.1 x.2 := by
  rw [(planDiff_eq h.diff).2.2.1, List.mem_map]
  exact ⟨fun ⟨x, hx, hm⟩ => ⟨x, hx, hm.symm⟩, fun ⟨x, hx, hm⟩ => ⟨x, hx, hm.symm⟩⟩

theorem columnErrors_refused {src tgt : Table} {renames : List (String × String)} {c s : Column}
    (h : columnErrors p src tgt renames = []) (hc : c ∈ tgt.columns)
    (hs : sourceColumn src tgt renames c = some s) : columnRefused tgt s c = none := by
  unfold columnErrors at h
  have hall := List.flatMap_eq_nil_iff.mp (List.append_eq_nil_iff.mp h).2 c hc
  rw [hs] at hall
  exact Option.toList_eq_nil_iff.mp hall

theorem Accepted.sound (h : Accepted R source p d) (hm : m ∈ d.matched) : m.Sound := by
  obtain ⟨⟨src, tgt⟩, hx, rfl⟩ := h.mem_matched.mp hm
  obtain ⟨hs, ht, _⟩ := h.mem_matchedTables.mp hx
  obtain ⟨doc, _, _, hsrc⟩ := h.source_valid hs
  have htgt := h.parsed.target.each tgt ht
  exact {
    sourceNodup := hsrc.columns
    targetNodup := htgt.columns
    sourceNamed := fun c hc => validName_form (hsrc.columnsNamed c hc)
    targetNamed := fun c hc => validName_form (htgt.columnsNamed c hc)
    renameSpec := fun e he => h.columnMap_spec hx he
    renameNews := h.columnMap_news tgt
    columnOf := rfl
    removed := rfl
    added := rfl
    altered := rfl
    accepted := fun c hc s hs => columnErrors_refused (h.checked.columns _ hx) hc hs
    order := h.checked.order _ hx }

end Accepted

namespace Match.Sound
variable {m : Match} {c new old : String}

theorem renamed_inj (h : m.Sound) {c c' : String} (hc : c ∈ m.source.columnNames)
    (hc' : c' ∈ m.source.columnNames) (heq : renamedOr m.renames c = renamedOr m.renames c') :
    c = c' :=
  renamedOr_inj h.renameNews (fun e he => (h.renameSpec e he).2.1) hc hc' heq

theorem mem_columnOf (h : m.Sound) : (new, old) ∈ m.columnOf ↔
    old ∈ m.source.columnNames ∧ new ∈ m.target.columnNames ∧ renamedOr m.renames old = new := by
  rw [h.columnOf]
  exact mem_columnPairs

theorem columnOf_targets (h : m.Sound) : (m.columnOf.map Prod.fst).Nodup := by
  have hsources : (m.columnOf.map Prod.snd).Nodup := by
    rw [h.columnOf]
    exact columnPairs_sources h.sourceNodup
  rw [List.nodup_iff_pairwise_ne, List.pairwise_map] at hsources ⊢
  refine hsources.imp_of_mem fun {x y} hx hy hne heq => hne ?_
  obtain ⟨hold, _, hnew⟩ := h.mem_columnOf.mp hx
  obtain ⟨hold', _, hnew'⟩ := h.mem_columnOf.mp hy
  exact h.renamed_inj hold hold' (hnew.trans (heq.trans hnew'.symm))

theorem get_columnOf (h : m.Sound) (hmem : (new, old) ∈ m.columnOf) :
    mapGet m.columnOf new = some old := mapGet_eq_some h.columnOf_targets hmem

theorem mem_removed (h : m.Sound) : c ∈ m.removed ↔
    c ∈ m.source.columnNames ∧ renamedOr m.renames c ∉ m.target.columnNames := by
  rw [h.removed]
  unfold removedColumns Table.columnNames
  simp only [List.mem_map, List.mem_filter, Option.isNone_iff_eq_none]
  constructor
  · rintro ⟨k, ⟨hk, hnone⟩, rfl⟩
    refine ⟨⟨k, hk, rfl⟩, fun hm => ?_⟩
    have hsome := column_isSome_iff.mpr (List.mem_map.mpr hm)
    rw [hnone] at hsome
    cases hsome
  · rintro ⟨⟨k, hk, rfl⟩, hnot⟩
    refine ⟨k, ⟨hk, ?_⟩, rfl⟩
    rw [← Option.not_isSome_iff_eq_none, column_isSome_iff]
    exact fun hm => hnot (List.mem_map.mp hm)

theorem removed_nodup (h : m.Sound) : m.removed.Nodup := by
  rw [h.removed]
  exact (List.filter_sublist.map _).nodup h.sourceNodup

/-- A removed column is not renamed. -/
theorem removed_stays (h : m.Sound) (hc : c ∈ m.removed) : renamedOr m.renames c = c := by
  rcases renamedOr_cases m.renames c with hmem | ⟨_, hsame⟩
  · exact absurd (h.renameSpec _ hmem).2.2 (h.mem_removed.mp hc).2
  · exact hsame

/-- A source column stays or is removed. -/
theorem kept_or_removed (h : m.Sound) (hc : c ∈ m.source.columnNames) :
    (renamedOr m.renames c, c) ∈ m.columnOf ∨ c ∈ m.removed := by
  by_cases hm : renamedOr m.renames c ∈ m.target.columnNames
  · exact .inl (h.mem_columnOf.mpr ⟨hc, hm, rfl⟩)
  · exact .inr (h.mem_removed.mpr ⟨hc, hm⟩)

theorem mem_added (h : m.Sound) : c ∈ m.added ↔
    c ∈ m.target.columnNames ∧ c ∉ m.columnOf.map Prod.fst := by
  rw [h.added, h.columnOf]
  unfold addedColumns Table.columnNames
  simp only [List.mem_map, List.mem_filter, Option.isNone_iff_eq_none, mapGet_eq_none]
  constructor
  · rintro ⟨k, ⟨hk, hnot⟩, rfl⟩
    exact ⟨⟨k, hk, rfl⟩, hnot⟩
  · rintro ⟨⟨k, hk, rfl⟩, hnot⟩
    exact ⟨k, ⟨hk, hnot⟩, rfl⟩

theorem added_nodup (h : m.Sound) : m.added.Nodup := by
  rw [h.added]
  exact (List.filter_sublist.map _).nodup h.targetNodup

/-- A column of both tables: it keeps its identity, and it is as the source has it when it is not
altered. -/
theorem kept_column (h : m.Sound) (hmem : (new, old) ∈ m.columnOf) :
    ∃ s t, m.source.column old = some s ∧ m.target.column new = some t ∧
      s.identity = t.identity ∧ (new ∉ m.altered → t = { s with name := new }) := by
  obtain ⟨hold, hnew, _⟩ := h.mem_columnOf.mp hmem
  obtain ⟨s, hs⟩ := Option.isSome_iff_exists.mp (column_isSome_iff.mpr hold)
  obtain ⟨t, ht⟩ := Option.isSome_iff_exists.mp (column_isSome_iff.mpr hnew)
  obtain ⟨htmem, htname⟩ := column_mem ht
  have hsource : sourceColumn m.source m.target m.renames t = some s := by
    unfold sourceColumn
    rw [← h.columnOf, htname, h.get_columnOf hmem]
    exact hs
  have hrefused := h.accepted t htmem s hsource
  refine ⟨s, t, hs, ht, ?_, ?_⟩
  · by_contra hne
    unfold columnRefused at hrefused
    rw [if_pos hne] at hrefused
    cases hrefused
  · intro hnot
    have hsame : changesColumn s t = false := by
      by_contra hchange
      refine hnot ?_
      rw [h.altered]
      refine List.mem_map.mpr ⟨t, List.mem_filter.mpr ⟨htmem, ?_⟩, htname⟩
      rw [hsource, Option.any_some, hrefused]
      simpa using hchange
    have hidentity : s.identity = t.identity := by
      by_contra hne
      unfold columnRefused at hrefused
      rw [if_pos hne] at hrefused
      cases hrefused
    simp only [changesColumn, Bool.or_eq_false_iff, decide_eq_false_iff_not, not_not] at hsame
    obtain ⟨⟨htype, hnull⟩, hdefault⟩ := hsame
    cases t
    simp_all

theorem mem_altered (h : m.Sound) (hc : c ∈ m.altered) : ∃ old, (c, old) ∈ m.columnOf := by
  rw [h.altered] at hc
  obtain ⟨t, ht, rfl⟩ := List.mem_map.mp hc
  obtain ⟨_, hany⟩ := List.mem_filter.mp ht
  cases hs : sourceColumn m.source m.target m.renames t with
  | none =>
    rw [hs] at hany
    cases hany
  | some s =>
    obtain ⟨old, hget, _⟩ := Option.bind_eq_some_iff.mp hs
    refine ⟨old, ?_⟩
    rw [h.columnOf]
    exact mapGet_mem hget

theorem altered_nodup (h : m.Sound) : m.altered.Nodup := by
  rw [h.altered]
  exact (List.filter_sublist.map _).nodup h.targetNodup

end Match.Sound

section Order

theorem split_of_early {α : Type} {p : α → Bool} {l : List α}
    (h : ((l.reverse.dropWhile fun a => !p a).reverse.filter fun a => !p a) = []) :
    l = l.filter p ++ l.filter fun a => !p a := by
  have hsplit : l = (l.reverse.dropWhile fun a => !p a).reverse ++
      (l.reverse.takeWhile fun a => !p a).reverse := by
    rw [← List.reverse_append, List.takeWhile_append_dropWhile, List.reverse_reverse]
  have hfront : ∀ a ∈ (l.reverse.dropWhile fun a => !p a).reverse, p a = true := by
    intro a ha
    have := List.filter_eq_nil_iff.mp h a ha
    simpa using this
  have hback : ∀ a ∈ (l.reverse.takeWhile fun a => !p a).reverse, p a = false := by
    intro a ha
    have := List.mem_takeWhile_imp (List.mem_reverse.mp ha)
    simpa using this
  generalize (l.reverse.dropWhile fun a => !p a).reverse = front at hsplit hfront
  generalize (l.reverse.takeWhile fun a => !p a).reverse = back at hsplit hback
  subst hsplit
  have h₁ : front.filter p = front := List.filter_eq_self.mpr hfront
  have h₂ : back.filter p = [] := List.filter_eq_nil_iff.mpr fun a ha => by simp [hback a ha]
  have h₃ : (front.filter fun a => !p a) = [] :=
    List.filter_eq_nil_iff.mpr fun a ha => by simp [hfront a ha]
  have h₄ : (back.filter fun a => !p a) = back :=
    List.filter_eq_self.mpr fun a ha => by simp [hback a ha]
  rw [List.filter_append, List.filter_append, h₁, h₂, h₃, h₄, List.append_nil, List.nil_append]

variable {m : Match}

/-- The kept columns of the target, in the order of the source, and then the added ones. -/
theorem Match.Sound.target_columns (h : m.Sound) :
    m.target.columnNames = m.columnOf.map Prod.fst ++ m.added := by
  have horder := h.order
  unfold orderErrors at horder
  simp only [List.append_eq_nil_iff, List.map_eq_nil_iff, ite_eq_right_iff, List.cons_ne_nil,
    imp_false, not_not, ← h.columnOf] at horder
  obtain ⟨⟨hkept, hearly⟩, _⟩ := horder
  have hsplit := split_of_early hearly
  have hadded : (m.target.columns.filter fun c =>
      !(m.columnOf.map Prod.fst).contains c.name).map Column.name = m.added := by
    rw [h.added]
    unfold addedColumns
    rw [← h.columnOf]
    congr 1
    refine List.filter_congr fun c _ => ?_
    rw [Bool.eq_iff_iff, Option.isNone_iff_eq_none, mapGet_eq_none]
    simp
  calc m.target.columnNames = _ := congrArg (List.map Column.name) hsplit
    _ = _ := List.map_append
    _ = _ := by rw [hadded, ← hkept]

end Order

end Orm.Dbspec
