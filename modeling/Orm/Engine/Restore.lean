import Orm.Logic.Holds
import Orm.Engine.Write

/-! What a restore picks and derives: its key, the values that the request gives the key, and the
managed assignments of its set. -/
namespace Orm.Engine

open Orm.Sql (Tok Text)
open Orm.Sql.Text (commaSep)
open Orm.Logic

variable {P : Planner} {s : Scope} {r : Request} {ent : Entity}
  {parts : RestoreParts}

section Spec

/-- The test compares the column `c` with the parameter `p`. -/
def Test.Equals (t : Test) (c : String) (p : Int) : Prop :=
  t.op = .eq ∧ t.column.getD "" = c ∧ t.p = some p ∧ t.fn = none ∧ t.value = none ∧ t.ref = none

def Item.Gives (c : String) (p : Int) : Item → Prop
  | .mk (some (.mk t none)) _ _ => t.Equals c p
  | _ => False

def Request.items (r : Request) : List Item := (r.query.where_.map Group.items).getD []

/-- The request gives a column the parameter `p`: in an eq condition of its where or in its set. -/
def Request.Gives (r : Request) (c : String) (p : Int) : Prop :=
  (∃ it ∈ r.items, it.Gives c p) ∨ ∃ a ∈ r.set, a.column = c ∧ a.p = some p

/-- A primary key or identity column. -/
def Entity.fixes (ent : Entity) (c : String) : Bool :=
  ((fieldOf ent c).map fun f => f.primary || f.identity).getD false

/-- The set values that are not values of the key. -/
def newValues (key : List String) (set : List Assignment) : List Assignment :=
  set.filter fun a => !(a.p.isSome && key.contains a.column)

/-- The blind index of an assigned column, unless it is assigned itself. -/
def DerivedIndex (ent : Entity) (set : List Assignment) (c : String) : Prop :=
  c ≠ "" ∧ c ∉ set.map Assignment.column ∧
    ∃ a ∈ set, ∃ f, fieldOf ent a.column = some f ∧ f.blindIndex = c

end Spec

section Parts

/-- What the parts of a restore request are. -/
structure RestoreParts.Of (parts : RestoreParts) (ent : Entity) (r : Request) : Prop where
  where_ : ∃ extra, parts.where_ = .mk .none false (r.items ++ extra) ∧
    (∀ it ∈ extra, ∃ first c p, it = eqItem first c p) ∧
    ∀ a ∈ r.set, ∀ p, a.p = some p → a.column ∈ parts.key → ∃ first, eqItem first a.column p ∈ extra
  noOr : ∀ it ∈ r.items.drop 1, it.conn ≠ .or
  nonempty : parts.key ≠ []
  given : ∀ c ∈ parts.key, ∃ p, r.Gives c p
  set : parts.set = newValues parts.key r.set
  fixed : ∀ a ∈ parts.set, ent.fixes a.column = false ∧ a.column ≠ ent.softDelete

theorem restoreSet_spec {key : List String} {set : List Assignment} {items : List Item}
    {out : List Item × List Assignment} (h : restoreSet ent key set items = .ok out) :
    ∃ extra, out.1 = items ++ extra ∧ (∀ it ∈ extra, ∃ first c p, it = eqItem first c p) ∧
      (∀ a ∈ set, ∀ p, a.p = some p → a.column ∈ key → ∃ first, eqItem first a.column p ∈ extra) ∧
      out.2 = newValues key set ∧
      ∀ a ∈ out.2, ent.fixes a.column = false ∧ a.column ≠ ent.softDelete := by
  induction set generalizing items out with
  | nil =>
    cases h
    exact ⟨[], by simp, by simp, by simp, rfl, by simp⟩
  | cons a set ih =>
    rw [restoreSet] at h
    -- the set value of a key column moves to the conditions
    by_cases hmove : a.p.isSome = true ∧ key.contains a.column = true
    · obtain ⟨p, hp⟩ := Option.isSome_iff_exists.mp hmove.1
      rw [hp, hmove.2] at h
      obtain ⟨extra, hout, hextra, hgiven, hset, hfixed⟩ := ih h
      refine ⟨eqItem items.isEmpty a.column p :: extra, by rw [hout]; simp, ?_, ?_, ?_, hfixed⟩
      · intro it hit
        rcases List.mem_cons.mp hit with rfl | hit
        · exact ⟨_, _, _, rfl⟩
        · exact hextra it hit
      · intro b hb q hq hkey
        rcases List.mem_cons.mp hb with rfl | hb
        · rw [hp] at hq
          cases hq
          exact ⟨_, List.mem_cons_self⟩
        · obtain ⟨first, hmem⟩ := hgiven b hb q hq hkey
          exact ⟨first, List.mem_cons_of_mem _ hmem⟩
      · rw [hset]
        simp only [newValues, List.filter_cons, hp, hmove.2]
        rfl
    · have hstay : newValues key (a :: set) = a :: newValues key set := by
        simp only [newValues, List.filter_cons]
        rw [if_pos]
        cases hp : a.p.isSome with
        | false => rfl
        | true => simpa [hp] using hmove
      have h' : (do
          let c ← knownColumn ent ent.name a.column
          refuse (c.primary = true ∨ c.identity = true ∨ a.column = ent.softDelete) .irInvalid
            s!"restore cannot assign {a.column}"
          let next ← restoreSet ent key set items
          pure (next.1, a :: next.2)) = Except.ok out := by
        cases hp : a.p with
        | none =>
          rw [hp] at h
          exact h
        | some p =>
          have hkey : key.contains a.column = false := by
            have hne := fun hk => hmove ⟨by simp [hp], hk⟩
            simpa using hne
          rw [hp, hkey] at h
          exact h
      obtain ⟨c, hc, h'⟩ := ok_bind.mp h'
      obtain ⟨_, hrefuse, h'⟩ := ok_bind.mp h'
      obtain ⟨⟨items', rest⟩, hrest, h'⟩ := ok_bind.mp h'
      cases h'
      obtain ⟨extra, hout, hextra, hgiven, hset, hfixed⟩ := ih hrest
      have hno := ok_refuse hrefuse
      push Not at hno
      have hfield : fieldOf ent a.column = some c := by
        unfold knownColumn at hc
        cases hf : fieldOf ent a.column with
        | none =>
          rw [hf] at hc
          cases hc
        | some f =>
          rw [hf] at hc
          cases hc
          rfl
      refine ⟨extra, hout, hextra, ?_, by rw [hstay, ← hset], ?_⟩
      · intro b hb q hq hkey
        rcases List.mem_cons.mp hb with rfl | hb
        · exact absurd ⟨by simp [hq], by simpa using hkey⟩ hmove
        · exact hgiven b hb q hq hkey
      · intro b hb
        rcases List.mem_cons.mp hb with rfl | hb
        · refine ⟨?_, hno.2.2⟩
          simp [Entity.fixes, hfield, hno.1, hno.2.1]
        · exact hfixed b hb

theorem Item.eqColumn_gives {it : Item} {c : String} (h : it.eqColumn = some c) :
    ∃ p, it.Gives c p := by
  obtain ⟨_ | ⟨t, _ | sub⟩, group, joined⟩ := it
  · cases h
  · simp only [Item.eqColumn] at h
    split at h
    · rename_i ht
      obtain ⟨p, hp⟩ := Option.isSome_iff_exists.mp ht.2.1
      cases h
      exact ⟨p, ht.1, rfl, hp, ht.2.2.1, ht.2.2.2.1, ht.2.2.2.2⟩
    · cases h
  · cases h

/-- The request gives every column of the key a value. -/
def Covers (r : Request) (key : List String) : Prop := key ≠ [] ∧ ∀ c ∈ key, ∃ p, r.Gives c p

theorem covers_of_valued {key : List String} (h : (!key.isEmpty &&
    key.all ((r.items.filterMap Item.eqColumn ++
      (r.set.filter fun a => a.p.isSome).map Assignment.column).contains ·)) = true) :
    Covers r key := by
  simp only [Bool.and_eq_true, Bool.not_eq_true', List.isEmpty_eq_false_iff, List.all_eq_true,
    List.contains_eq_mem, decide_eq_true_eq] at h
  refine ⟨h.1, fun c hc => ?_⟩
  rcases List.mem_append.mp (h.2 c hc) with hc | hc
  · obtain ⟨it, hit, heq⟩ := List.mem_filterMap.mp hc
    obtain ⟨p, hp⟩ := Item.eqColumn_gives heq
    exact ⟨p, .inl ⟨it, hit, hp⟩⟩
  · obtain ⟨a, ha, rfl⟩ := List.mem_map.mp hc
    obtain ⟨ha, hp⟩ := List.mem_filter.mp ha
    obtain ⟨p, hp⟩ := Option.isSome_iff_exists.mp hp
    exact ⟨p, .inr ⟨a, ha, rfl, hp⟩⟩

/-- The picked key is covered, and the rest of the request follows from it. -/
theorem restoreKey_picks (h : restoreKey ent r = .ok parts) :
    (∀ it ∈ r.items.drop 1, it.conn ≠ .or) ∧ ∃ key, Covers r key ∧ ∃ out,
      restoreSet ent key r.set r.items = .ok out ∧ parts = ⟨key, .mk .none false out.1, out.2⟩ := by
  obtain ⟨_, _, h⟩ := ok_bind.mp h
  obtain ⟨_, hor, h⟩ := ok_bind.mp h
  obtain ⟨uniques, _, h⟩ := ok_bind.mp h
  have hno := ok_refuse hor
  refine ⟨fun it hit hconn => hno (List.any_eq_true.mpr ⟨it, hit, by simpa using hconn⟩), ?_⟩
  have hset {key : List String} (hkey : Covers r key) (h : (do
      let out ← restoreSet ent key r.set r.items
      pure (⟨key, .mk .none false out.1, out.2⟩ : RestoreParts)) = .ok parts) :
      ∃ key, Covers r key ∧ ∃ out, restoreSet ent key r.set r.items = .ok out ∧
        parts = ⟨key, .mk .none false out.1, out.2⟩ := by
    obtain ⟨out, hout, h⟩ := ok_bind.mp h
    cases h
    exact ⟨key, hkey, out, hout, rfl⟩
  dsimp only at h
  split at h
  · rename_i hc
    exact hset (covers_of_valued hc) h
  · split at h
    · rename_i u hu
      have hc := List.find?_some hu
      exact hset (covers_of_valued hc) h
    · cases h

theorem restoreKey_of (h : restoreKey ent r = .ok parts) : parts.Of ent r := by
  obtain ⟨hno, key, hkey, out, hout, rfl⟩ := restoreKey_picks h
  obtain ⟨extra, hitems, hextra, hgiven, hnew, hfixed⟩ := restoreSet_spec hout
  exact ⟨⟨extra, by rw [hitems], hextra, hgiven⟩, hno, hkey.1, hkey.2, hnew, hfixed⟩

end Parts

section Sets

theorem deriveBlindIndex_some {explicit : List String} {known : List (String × String)}
    {a d : Assignment} (h : deriveBlindIndex ent explicit known a = .ok (some d)) :
    ∃ f, fieldOf ent a.column = some f ∧ f.blindIndex ≠ "" ∧ f.blindIndex ∉ explicit ∧
      known.lookup f.blindIndex = none ∧ d = ⟨f.blindIndex, a.p, a.null, none, none⟩ := by
  unfold deriveBlindIndex at h
  split at h
  · cases h
  · rename_i f hf
    split at h
    · cases h
    · rename_i hskip
      push Not at hskip
      split at h
      · obtain ⟨_, _, h⟩ := ok_bind.mp h
        cases h
      · rename_i hnone
        cases h
        exact ⟨f, hf, hskip.1, hskip.2, hnone, rfl⟩

theorem deriveBlindIndex_none {explicit : List String} {known : List (String × String)}
    {a : Assignment} {f : Field} (h : deriveBlindIndex ent explicit known a = .ok none)
    (hf : fieldOf ent a.column = some f) (hne : f.blindIndex ≠ "")
    (hnot : f.blindIndex ∉ explicit) : known.lookup f.blindIndex = some a.column := by
  unfold deriveBlindIndex at h
  rw [hf] at h
  dsimp only at h
  rw [if_neg (by simp [hne, hnot])] at h
  split at h
  · rename_i previous hprevious
    obtain ⟨_, hrefuse, -⟩ := ok_bind.mp h
    rw [hprevious, not_not.mp (ok_refuse hrefuse)]
  · cases h

/-- The derived assignments: each has the value of the first assignment of its column, and every
blind index that is not assigned itself is derived once. -/
structure Derived (ent : Entity) (explicit : List String) (i : Nat)
    (known : List (String × String)) (set : List Assignment) (out : List (Assignment × Nat)) :
    Prop where
  source : ∀ x ∈ out, ∃ k a f, x.2 = i + k ∧ set[k]? = some a ∧ fieldOf ent a.column = some f ∧
    f.blindIndex ≠ "" ∧ f.blindIndex ∉ explicit ∧ known.lookup f.blindIndex = none ∧
    x.1 = ⟨f.blindIndex, a.p, a.null, none, none⟩
  nodup : (out.map fun x => x.1.column).Nodup
  complete : ∀ a ∈ set, ∀ f, fieldOf ent a.column = some f → f.blindIndex ≠ "" →
    f.blindIndex ∉ explicit → known.lookup f.blindIndex = some a.column ∨
      ∃ x ∈ out, x.1.column = f.blindIndex ∧ ∃ k b, x.2 = i + k ∧ set[k]? = some b ∧
        b.column = a.column

theorem blindIndexAssignments_derived {explicit : List String} {set : List Assignment} {i : Nat}
    {known : List (String × String)} {out : List (Assignment × Nat)}
    (h : blindIndexAssignments ent explicit i known set = .ok out) :
    Derived ent explicit i known set out := by
  induction set generalizing i known out with
  | nil =>
    cases h
    exact ⟨fun _ h => absurd h List.not_mem_nil, List.nodup_nil,
      fun _ h => absurd h List.not_mem_nil⟩
  | cons a set ih =>
    rw [blindIndexAssignments] at h
    obtain ⟨d, hd, h⟩ := ok_bind.mp h
    cases d with
    | none =>
      have htail := ih h
      refine ⟨fun x hx => ?_, htail.nodup, fun b hb f hf hne hnot => ?_⟩
      · obtain ⟨k, b, f, hk, hb, hrest⟩ := htail.source x hx
        exact ⟨k + 1, b, f, by omega, hb, hrest⟩
      · rcases List.mem_cons.mp hb with rfl | hb
        · exact .inl (deriveBlindIndex_none hd hf hne hnot)
        · refine (htail.complete b hb f hf hne hnot).imp_right ?_
          rintro ⟨x, hx, hcol, k, c, hk, hc, hsame⟩
          exact ⟨x, hx, hcol, k + 1, c, by omega, hc, hsame⟩
    | some d =>
      obtain ⟨more, hmore, h⟩ := ok_bind.mp h
      cases h
      obtain ⟨f, hf, hne, hnot, hknown, rfl⟩ := deriveBlindIndex_some hd
      have htail := ih hmore
      -- the tail derives no index that is known, so not the one of the head
      have hother (x : Assignment × Nat) (hx : x ∈ more) : x.1.column ≠ f.blindIndex ∧
          known.lookup x.1.column = none := by
        obtain ⟨k, b, g, -, -, -, -, -, hlookup, hx⟩ := htail.source x hx
        rw [List.lookup_cons] at hlookup
        rw [hx]
        by_cases heq : g.blindIndex = f.blindIndex
        · simp [heq] at hlookup
        · rw [beq_false_of_ne heq] at hlookup
          exact ⟨heq, hlookup⟩
      refine ⟨fun x hx => ?_, ?_, fun b hb g hg hne' hnot' => ?_⟩
      · rcases List.mem_cons.mp hx with rfl | hx
        · exact ⟨0, a, f, rfl, rfl, hf, hne, hnot, hknown, rfl⟩
        · obtain ⟨k, b, g, hk, hb, hg, hne', hnot', -, hx'⟩ := htail.source x hx
          have hnone := (hother x hx).2
          rw [hx'] at hnone
          exact ⟨k + 1, b, g, by omega, hb, hg, hne', hnot', hnone, hx'⟩
      · rw [List.map_cons, List.nodup_cons]
        refine ⟨fun hmem => ?_, htail.nodup⟩
        obtain ⟨x, hx, hcol⟩ := List.mem_map.mp hmem
        exact (hother x hx).1 hcol
      · rcases List.mem_cons.mp hb with rfl | hb
        · obtain rfl : f = g := Option.some.inj (hf.symm.trans hg)
          exact .inr ⟨_, List.mem_cons_self, rfl, 0, b, rfl, rfl, rfl⟩
        · rcases htail.complete b hb g hg hne' hnot' with hlookup | ⟨x, hx, hcol, k, c, hk, hc, hsame⟩
          · rw [List.lookup_cons] at hlookup
            by_cases heq : g.blindIndex = f.blindIndex
            · have hsame : a.column = b.column := by simpa [heq] using hlookup
              exact .inr ⟨_, List.mem_cons_self, heq.symm, 0, a, rfl, rfl, hsame⟩
            · rw [beq_false_of_ne heq] at hlookup
              exact .inl hlookup
          · exact .inr ⟨x, List.mem_cons_of_mem _ hx, hcol, k + 1, c, by omega, hc, hsame⟩

/-- The assigned columns come first, each its own source, and then what they derive. -/
theorem addBlindIndexAssignments_derived {set : List Assignment} {out : List (Assignment × Nat)}
    (h : addBlindIndexAssignments ent set = .ok out) : ∃ derived,
      out = set.mapIdx (fun i a => (a, i)) ++ derived ∧
      Derived ent (set.map Assignment.column) 0 [] set derived := by
  obtain ⟨derived, hd, h⟩ := ok_bind.mp h
  cases h
  exact ⟨derived, rfl, blindIndexAssignments_derived hd⟩

theorem map_fst_mapIdx (set : List Assignment) : (set.mapIdx fun i a => (a, i)).map Prod.fst = set := by
  simp [List.mapIdx_eq_zipIdx_map]

theorem Derived.columns_iff {set : List Assignment} {derived : List (Assignment × Nat)}
    (hd : Derived ent (set.map Assignment.column) 0 [] set derived) {c : String} :
    c ∈ derived.map (fun x => x.1.column) ↔ DerivedIndex ent set c := by
  constructor
  · intro hc
    obtain ⟨x, hx, rfl⟩ := List.mem_map.mp hc
    obtain ⟨k, a, f, -, ha, hf, hne, hnot, -, heq⟩ := hd.source x hx
    rw [heq]
    exact ⟨hne, hnot, a, List.mem_of_getElem? ha, f, hf, rfl⟩
  · rintro ⟨hne, hnot, a, ha, f, hf, rfl⟩
    rcases hd.complete a ha f hf hne hnot with hknown | ⟨x, hx, hcol, -⟩
    · cases hknown
    · rw [← hcol]
      exact List.mem_map_of_mem hx

/-- The assigned columns and their derived blind indexes. -/
theorem addBlindIndexAssignments_columns {set : List Assignment} {out : List (Assignment × Nat)}
    (h : addBlindIndexAssignments ent set = .ok out) (c : String) :
    c ∈ (out.map Prod.fst).map Assignment.column ↔
      c ∈ set.map Assignment.column ∨ DerivedIndex ent set c := by
  obtain ⟨derived, rfl, hd⟩ := addBlindIndexAssignments_derived h
  rw [List.map_append, List.map_append, List.mem_append, map_fst_mapIdx, List.map_map]
  exact or_congr_right hd.columns_iff

theorem assignsAES_iff {set : List Assignment} : assignsAES ent set = true ↔
    ∃ d f, d ∈ set.map Assignment.column ∧ fieldOf ent d = some f ∧
      f.stages.contains .aes = true := by
  rw [assignsAES, List.any_eq_true]
  constructor
  · rintro ⟨a, ha, haes⟩
    cases hf : fieldOf ent a.column with
    | none => simp [hf] at haes
    | some f =>
      rw [hf] at haes
      exact ⟨a.column, f, List.mem_map_of_mem ha, hf, haes⟩
  · rintro ⟨d, f, hd, hf, haes⟩
    obtain ⟨a, ha, rfl⟩ := List.mem_map.mp hd
    refine ⟨a, ha, ?_⟩
    rw [hf]
    exact haes

theorem fieldOf_mem {c : String} {f : Field} (h : fieldOf ent c = some f) : f ∈ ent.fields :=
  List.mem_reverse.mp (List.mem_of_find?_eq_some h)

end Sets

end Orm.Engine
