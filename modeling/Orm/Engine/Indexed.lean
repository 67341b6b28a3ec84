import Orm.Engine.Once

/-! The encrypted columns of a write: an update replaces all of them together with the key version,
and their blind indexes follow them. -/
namespace Orm.Engine

open Orm.Logic

section Spec

/-- The column is an AES column. -/
def Entity.Encrypts (ent : Entity) (c : String) : Prop :=
  ∃ f, fieldOf ent c = some f ∧ f.stages.contains .aes = true

/-- `b` is the blind index of the AES column `c`. -/
def Entity.IndexOf (ent : Entity) (c b : String) : Prop :=
  ∃ f, fieldOf ent c = some f ∧ f.stages.contains .aes = true ∧ f.blindIndex = b ∧ b ≠ ""

/-- The column is given a parameter or NULL. -/
def Written.Given (d : Dialect) (w : Written) : Prop :=
  (∃ p styles, w.Holds d (BindSlot.Carries p styles)) ∨ w.Null

/-- `v` has the hash of the parameter of `w`, or NULL when `w` has. -/
def Written.HashOf (d : Dialect) (v w : Written) : Prop :=
  (∀ p styles, w.Holds d (BindSlot.Carries p styles) →
    v.Holds d (BindSlot.Carries p [.blindIndex])) ∧ (w.Null → v.Null)

/-- With each AES column that is given a parameter or NULL its blind index is written, with the hash
of the same parameter or NULL. -/
def Hashed (d : Dialect) (ent : Entity) (ws : List Written) : Prop :=
  ∀ w ∈ ws, ∀ b, ent.IndexOf w.column b → w.Given d →
    (∃ v ∈ ws, v.column = b) ∧ ∀ v ∈ ws, v.column = b → v.HashOf d w

/-- The key version is written, and only with the configured one. -/
def WritesVersion (d : Dialect) (ent : Entity) (ws : List Written) : Prop :=
  (∃ w ∈ ws, w.column = ent.aesVersion) ∧ ∀ w ∈ ws, w.column = ent.aesVersion → w.Version d

/-- A SET list with an AES column has all of them and the key version. -/
def Replaces (d : Dialect) (ent : Entity) (ws : List Written) : Prop :=
  (∃ w ∈ ws, ent.Encrypts w.column) →
    (∀ c, ent.Encrypts c → ∃ w ∈ ws, w.column = c) ∧ WritesVersion d ent ws

/-- What a statement assigns keeps the encrypted columns of each row under one key version and their
blind indexes with them. -/
structure Assigned.Encrypted (d : Dialect) (ent : Entity) (x : Assigned) : Prop where
  rows : ∀ row ∈ x.rows, (ent.aesVersion ≠ "" → WritesVersion d ent row.all) ∧
    Hashed d ent row.all
  sets : ∀ sets ∈ x.sets, Replaces d ent sets.all ∧ Hashed d ent sets.all

/-- Two assignments give the same parameter, or both NULL. -/
def Assignment.Same (a c : Assignment) : Prop :=
  (∃ p, a.Value p ∧ c.Value p) ∨ (a.Null ∧ c.Null)

/-- The assignments of an AES column and of its blind index give the same, and the blind index is
not the audit column. -/
def IndexesAgree (ent : Entity) (input : List Assignment) : Prop :=
  ∀ a ∈ input, ∀ b, ent.IndexOf a.column b → b ≠ ent.auditColumn ∧
    ∀ c ∈ input, c.column = b ∨ c.column = a.column → a.Same c

/-- The audit column is no AES column, and neither it nor a refreshed column is the key version
that the assignments take along. -/
structure VersionApart (ent : Entity) (input : List Assignment) (refresh : List String) : Prop where
  audit : ent.auditColumn ≠ "" → ¬ ent.Encrypts ent.auditColumn
  version : assignsAES ent input = true →
    ent.aesVersion ≠ ent.auditColumn ∧ ent.aesVersion ∉ refresh

/-- The assignments of one more row of an INSERT, before the blind indexes are added. -/
def rowValues (set : List Assignment) (row : List Int) : List Assignment :=
  set.mapIdx fun i a => ⟨a.column, row.toArray[i]?, false, none, none⟩

/-- What a request says of its encrypted columns. -/
inductive EncryptsWhole (P : Planner) (ent : Entity) (r : Request) : Prop where
  | insert (hkind : r.kind = .insert)
    (hversion : ent.aesVersion ≠ "" → ent.aesVersion ≠ ent.auditColumn)
    (hset : IndexesAgree ent r.set) (hrows : ∀ row ∈ r.rows, IndexesAgree ent (rowValues r.set row))
    (hdup : r.rows = [] → r.onDuplicate ≠ [] →
      VersionApart ent r.onDuplicate (refreshColumns P.d ent) ∧ IndexesAgree ent r.onDuplicate)
  | update (hkind : r.kind = .update) (hversion : VersionApart ent r.set [])
    (hset : IndexesAgree ent r.set)
  | restore (hkind : r.kind = .restore) (hset : ∀ parts, restoreKey ent r = .ok parts →
      VersionApart ent parts.set [] ∧ IndexesAgree ent parts.set)

end Spec

section Values
variable {P : Planner} {ent : Entity} {d : Dialect} {w v : Written} {a c : Assignment}

theorem Written.Holds.both {A B : BindSlot → Prop} (h : w.Holds d A) (h' : w.Holds d B) :
    ∃ s, A s ∧ B s := by
  obtain ⟨s, n, hslots, hs, -⟩ := h
  obtain ⟨s', n', hslots', hs', -⟩ := h'
  rw [hslots] at hslots'
  cases hslots'
  exact ⟨s, hs, hs'⟩

theorem Written.Holds.slots_ne_nil {A : BindSlot → Prop} (h : w.Holds d A) : w.slots ≠ [] := by
  obtain ⟨s, n, hslots, -⟩ := h
  rw [hslots]
  exact List.cons_ne_nil _ _

theorem Written.Holds.param_eq {p q : Int} {styles styles' : List HostStyle}
    (h : w.Holds d (BindSlot.Carries p styles)) (h' : w.Holds d (BindSlot.Carries q styles')) :
    p = q := by
  obtain ⟨s, hs, hs'⟩ := h.both h'
  exact hs.2.1.symm.trans hs'.2.1

/-- The key of the audit record is neither a parameter nor NULL. -/
theorem Written.Audit.not_given (h : w.Audit d) : ¬ w.Given d := by
  rintro (⟨p, styles, hp⟩ | hnull)
  · obtain ⟨s, hs, hs'⟩ := h.both hp
    cases hs.symm.trans hs'.1
  · exact h.slots_ne_nil hnull.2

theorem Written.Audit.not_version (h : w.Audit d) : ¬ w.Version d := by
  intro hv
  obtain ⟨s, hs, hs'⟩ := h.both hv
  cases hs.symm.trans hs'.1

theorem Gives.given (h : Gives P ent a w) (ha : a.Null ∨ ∃ p, a.Value p) : w.Given P.d := by
  rcases ha with hnull | ⟨p, hp⟩
  · exact .inr (h.null hnull)
  · obtain ⟨styles, hholds, -⟩ := h.value p hp
    exact .inl ⟨p, styles, hholds⟩

/-- A blind index is the hash of a column exactly when their assignments give the same. -/
theorem Gives.hashOf_iff (hw : Gives P ent a w) (hv : Gives P ent c v)
    (ha : a.Null ∨ ∃ p, a.Value p) (hc : isBlindIndexTarget ent c.column = true) :
    v.HashOf P.d w ↔ a.Same c := by
  rcases ha with hnull | ⟨p, hp⟩
  · have hwnull := hw.null hnull
    refine ⟨fun h => ?_, ?_⟩
    · rcases hv.index hc with hcnull | ⟨q, hq⟩
      · exact .inr ⟨hnull, hcnull⟩
      · obtain ⟨_, hholds, -⟩ := hv.value q hq
        exact absurd (h.2 hwnull).2 hholds.slots_ne_nil
    · rintro (⟨p, hp, -⟩ | ⟨-, hcnull⟩)
      · cases hnull.2.2.symm.trans hp.2.2.1
      · exact ⟨fun _ _ hholds => absurd hwnull.2 hholds.slots_ne_nil, fun _ => hv.null hcnull⟩
  · obtain ⟨styles, hwp, -⟩ := hw.value p hp
    refine ⟨fun h => ?_, ?_⟩
    · have hvp := h.1 p styles hwp
      rcases hv.index hc with hcnull | ⟨q, hq⟩
      · exact absurd (hv.null hcnull).2 hvp.slots_ne_nil
      · obtain ⟨_, hholds, -⟩ := hv.value q hq
        obtain rfl := hvp.param_eq hholds
        exact .inl ⟨p, hp, hq⟩
    · rintro (⟨q, hq, hcq⟩ | ⟨hnull, -⟩)
      · obtain rfl : p = q := Option.some.inj (hp.2.2.2.symm.trans hq.2.2.2)
        obtain ⟨styles', hvp, hstyles⟩ := hv.value p hcq
        rw [hstyles hc] at hvp
        refine ⟨fun p' styles'' hholds => ?_, fun hnull => absurd hnull.2 hwp.slots_ne_nil⟩
        obtain rfl := hwp.param_eq hholds
        exact hvp
      · cases hnull.2.2.symm.trans hp.2.2.1

theorem Assignment.Same.symm (h : a.Same c) : c.Same a :=
  h.imp (fun ⟨p, ha, hc⟩ => ⟨p, hc, ha⟩) And.symm

theorem Assignment.Same.trans {e : Assignment} (h : a.Same c) (h' : c.Same e) : a.Same e := by
  rcases h with ⟨p, ha, hc⟩ | ⟨ha, hc⟩
  · rcases h' with ⟨q, hc', he⟩ | ⟨hc', -⟩
    · obtain rfl : p = q := Option.some.inj (hc.2.2.2.symm.trans hc'.2.2.2)
      exact .inl ⟨p, ha, he⟩
    · cases hc.2.2.1.symm.trans hc'.2.2
  · rcases h' with ⟨q, hc', -⟩ | ⟨-, he⟩
    · cases hc.2.2.symm.trans hc'.2.2.1
    · exact .inr ⟨ha, he⟩

end Values

section Rules
variable {ent : Entity} {c b : String}

theorem Entity.IndexOf.encrypts (h : ent.IndexOf c b) : ent.Encrypts c := by
  obtain ⟨f, hf, haes, -⟩ := h
  exact ⟨f, hf, haes⟩

theorem Entity.IndexOf.target (h : ent.IndexOf c b) : isBlindIndexTarget ent b = true := by
  obtain ⟨f, hf, -, rfl, -⟩ := h
  exact List.any_eq_true.mpr ⟨f, fieldOf_mem hf, by simp⟩

/-- A field of the entity that can hold neither an AES value nor a hash. -/
def Entity.Other (ent : Entity) (c : String) : Prop :=
  ∃ f ∈ ent.fields, f.name = c ∧ f.type ≠ .bytes ∧ f.type ≠ .varchar ∧ f.type ≠ .text

theorem Entity.Ruled.same_field (hr : ent.Ruled) {f g : Field} (hf : f ∈ ent.fields)
    (hg : g ∈ ent.fields) (hname : f.name = g.name) : f = g :=
  List.inj_on_of_nodup_map hr.names hf hg hname

theorem Entity.Ruled.other_plain (hr : ent.Ruled) (h : ent.Other c) : ¬ ent.Encrypts c := by
  rintro ⟨f, hf, haes⟩
  obtain ⟨g, hg, hname, hbytes, hvarchar, htext⟩ := h
  obtain rfl := hr.same_field hg (fieldOf_mem hf) (hname.trans (fieldOf_name hf).symm)
  rcases (hr.aes g hg haes).2 with h | h | h
  · exact hbytes h
  · exact hvarchar h
  · exact htext h

theorem Entity.Ruled.other_ne_index (hr : ent.Ruled) (h : ent.Other c) {a : String} :
    ¬ ent.IndexOf a c := by
  rintro ⟨f, hf, -, heq, -⟩
  obtain ⟨g, hg, hname, -, hvarchar, -⟩ := h
  exact hvarchar (hr.index f (fieldOf_mem hf) g hg (heq.trans hname.symm)).1

/-- A blind index is no AES column. -/
theorem Entity.Ruled.index_plain (hr : ent.Ruled) (h : isBlindIndexTarget ent b = true) :
    ¬ ent.Encrypts b := by
  rintro ⟨g, hg, haes⟩
  obtain ⟨f, hf, heq⟩ := List.any_eq_true.mp h
  have hname : f.blindIndex = g.name := (by simpa using heq : f.blindIndex = b).trans
    (fieldOf_name hg).symm
  have hplain := (hr.index f hf g (fieldOf_mem hg) hname).2
  rw [hplain] at haes
  cases haes

/-- The key version is an integer. -/
theorem Entity.Ruled.version_other (hr : ent.Ruled) (hne : ent.aesVersion ≠ "") :
    ent.Other ent.aesVersion := by
  obtain ⟨f, hf, hname⟩ := hr.field (c := ent.aesVersion) (by simp) hne
  refine ⟨f, hf, hname, ?_⟩
  rcases hr.version f hf hname with h | h | h <;> simp [h]

theorem assignsAES_encrypts {set : List Assignment} : assignsAES ent set = true ↔
    ∃ a ∈ set, ent.Encrypts a.column := by
  rw [assignsAES_iff]
  constructor
  · rintro ⟨_, f, hmem, hf, haes⟩
    obtain ⟨a, ha, rfl⟩ := List.mem_map.mp hmem
    exact ⟨a, ha, f, hf, haes⟩
  · rintro ⟨a, ha, f, hf, haes⟩
    exact ⟨_, f, List.mem_map_of_mem ha, hf, haes⟩

end Rules

section Indexes
variable {P : Planner} {ent : Entity} {input : List Assignment}
  {derived : List (Assignment × Nat)} {own ws : List Written}

theorem gives_left (h : List.Forall₂ (Gives P ent) input own) {a : Assignment} (ha : a ∈ input) :
    ∃ w ∈ own, Gives P ent a w := by
  obtain ⟨w, hw, hg⟩ := exists_of_forall₂ h.flip ha
  exact ⟨w, hw, hg⟩

/-- The assignments with what they derive keep their blind indexes exactly when the assignments of
an AES column and of its index agree. -/
theorem hashed_iff (rest : List Written) (hr : ent.Ruled)
    (hd : Derived ent (input.map Assignment.column) 0 [] input derived)
    (hplain : ∀ a ∈ input, ent.Encrypts a.column → a.plusP = none ∧ a.minusP = none)
    (hown : List.Forall₂ (Gives P ent) (input ++ derived.map Prod.fst) own)
    (haudit : ent.auditColumn ≠ "" → ∃ w ∈ rest, w.column = ent.auditColumn ∧ w.Audit P.d)
    (hrest : ∀ w ∈ rest, (w.column = ent.auditColumn ∧ w.Audit P.d) ∨ ent.Other w.column)
    (hws : ∀ w, w ∈ ws ↔ w ∈ own ∨ w ∈ rest) :
    Hashed P.d ent ws ↔ IndexesAgree ent input := by
  -- an AES column of the list is one of the assignments
  have haes {w : Written} (hw : w ∈ ws) (henc : ent.Encrypts w.column) (hgiven : w.Given P.d) :
      ∃ a ∈ input, Gives P ent a w := by
    rcases (hws w).mp hw with hw | hw
    · obtain ⟨a, ha, hg⟩ := exists_of_forall₂ hown hw
      rcases List.mem_append.mp ha with ha | ha
      · exact ⟨a, ha, hg⟩
      · obtain ⟨x, hx, rfl⟩ := List.mem_map.mp ha
        obtain ⟨_, a, f, -, -, hf, -, -, -, heq⟩ := hd.source x hx
        rw [hg.column, heq] at henc
        exact absurd henc (hr.index_plain (List.any_eq_true.mpr ⟨f, fieldOf_mem hf, by simp⟩))
    · rcases hrest w hw with ⟨-, ha⟩ | hother
      · exact absurd hgiven ha.not_given
      · exact absurd henc (hr.other_plain hother)
  have hvalue {a : Assignment} {w : Written} (ha : a ∈ input) (henc : ent.Encrypts a.column)
      (hg : Gives P ent a w) : a.Null ∨ ∃ p, a.Value p :=
    hg.plain (hplain a ha henc).1 (hplain a ha henc).2
  -- a blind index is assigned itself or derived from an assignment of its column
  have hindex {a : Assignment} {b : String} (ha : a ∈ input) (hb : ent.IndexOf a.column b) :
      ∃ c ∈ input ++ derived.map Prod.fst, c.column = b := by
    obtain ⟨f, hf, -, rfl, hne⟩ := hb
    by_cases hmem : f.blindIndex ∈ input.map Assignment.column
    · obtain ⟨c, hc, heq⟩ := List.mem_map.mp hmem
      exact ⟨c, List.mem_append_left _ hc, heq⟩
    · rcases hd.complete a ha f hf hne hmem with hknown | ⟨x, hx, hcol, -⟩
      · cases hknown
      · exact ⟨x.1, List.mem_append_right _ (List.mem_map_of_mem hx), hcol⟩
  have hsource {a c : Assignment} {b : String} (ha : a ∈ input) (hb : ent.IndexOf a.column b)
      (hc : c ∈ derived.map Prod.fst) (hcb : c.column = b) :
      ∃ e ∈ input, e.column = a.column ∧ c = ⟨b, e.p, e.null, none, none⟩ := by
    obtain ⟨x, hx, rfl⟩ := List.mem_map.mp hc
    obtain ⟨k, e, g, hk, he, hg, -, hnot, -, heq⟩ := hd.source x hx
    obtain ⟨f, hf, -, rfl, hne⟩ := hb
    have hfg : g.blindIndex = f.blindIndex := by rw [← hcb, heq]
    rcases hd.complete a ha f hf hne (hfg ▸ hnot) with hknown | ⟨y, hy, hcol, k', e', hk', he', hsame⟩
    · cases hknown
    · obtain rfl : x = y := List.inj_on_of_nodup_map hd.nodup hx hy (hcb.trans hcol.symm)
      obtain rfl : k = k' := by omega
      obtain rfl : e = e' := Option.some.inj (he.symm.trans he')
      exact ⟨e, List.mem_of_getElem? he, hsame, by rw [heq, hfg]⟩
  -- what is derived from an assignment gives the same as it
  have hderive {a e : Assignment} {b : String} (he : e.plusP = none ∧ e.minusP = none) :
      a.Same ⟨b, e.p, e.null, none, none⟩ ↔ a.Same e := by
    simp only [Assignment.Same, Assignment.Value, Assignment.Null, he, true_and]
  constructor
  · intro h a ha b hb
    obtain ⟨w, hw, hg⟩ := gives_left hown (List.mem_append_left _ ha)
    have hcol : ent.IndexOf w.column b := by rw [hg.column]; exact hb
    have hval := hvalue ha hb.encrypts hg
    obtain ⟨-, hall⟩ := h w ((hws w).mpr (.inl hw)) b hcol (hg.given hval)
    refine ⟨fun heq => ?_, ?_⟩
    · have hne : ent.auditColumn ≠ "" := by
        obtain ⟨f, -, -, -, hne⟩ := hb
        rwa [← heq]
      obtain ⟨v, hv, hvcol, hva⟩ := haudit hne
      have hhash := hall v ((hws v).mpr (.inr hv)) (hvcol.trans heq.symm)
      refine hva.not_given ?_
      rcases hg.given hval with ⟨p, styles, hp⟩ | hnull
      · exact .inl ⟨p, _, hhash.1 p styles hp⟩
      · exact .inr (hhash.2 hnull)
    · -- all assignments of the index give the same as all of its column
      have hsame {a' c : Assignment} (ha' : a' ∈ input) (hcol' : a'.column = a.column)
          (hc : c ∈ input ++ derived.map Prod.fst) (hcb : c.column = b) : a'.Same c := by
        have hb' : ent.IndexOf a'.column b := by rwa [hcol']
        obtain ⟨w', hw', hg'⟩ := gives_left hown (List.mem_append_left _ ha')
        obtain ⟨v, hv, hgv⟩ := gives_left hown hc
        have hval' := hvalue ha' hb'.encrypts hg'
        have hwcol : ent.IndexOf w'.column b := by rwa [hg'.column]
        have hhash := (h w' ((hws w').mpr (.inl hw')) b hwcol (hg'.given hval')).2 v
          ((hws v).mpr (.inl hv)) (hgv.column.trans hcb)
        exact (hg'.hashOf_iff hgv hval' (by rw [hcb]; exact hb.target)).mp hhash
      rintro c hc (hcb | hcol')
      · exact hsame ha rfl (List.mem_append_left _ hc) hcb
      · obtain ⟨e, he, heb⟩ := hindex ha hb
        exact (hsame ha rfl he heb).trans (hsame hc hcol' he heb).symm
  · intro h w hw b hb hgiven
    obtain ⟨a, ha, hg⟩ := haes hw hb.encrypts hgiven
    rw [hg.column] at hb
    obtain ⟨hne, hagree⟩ := h a ha b hb
    have hval := hvalue ha hb.encrypts hg
    refine ⟨?_, fun v hv hvb => ?_⟩
    · obtain ⟨c, hc, hcb⟩ := hindex ha hb
      obtain ⟨v, hv, hgv⟩ := gives_left hown hc
      exact ⟨v, (hws v).mpr (.inl hv), hgv.column.trans hcb⟩
    · rcases (hws v).mp hv with hv | hv
      · obtain ⟨c, hc, hgv⟩ := exists_of_forall₂ hown hv
        have hcb : c.column = b := hgv.column.symm.trans hvb
        refine (hg.hashOf_iff hgv hval (by rw [hcb]; exact hb.target)).mpr ?_
        rcases List.mem_append.mp hc with hc | hc
        · exact hagree c hc (.inl hcb)
        · obtain ⟨e, he, hecol, rfl⟩ := hsource ha hb hc hcb
          exact (hderive (hplain e he (by rw [hecol]; exact hb.encrypts))).mpr
            (hagree e he (.inr hecol))
      · rcases hrest v hv with ⟨hcol, -⟩ | hother
        · exact absurd (hvb.symm.trans hcol) hne
        · rw [hvb] at hother
          exact absurd hb (hr.other_ne_index hother)

/-- The blind indexes of one more row come from the same positions. -/
theorem Derived.row (hd : Derived ent (input.map Assignment.column) 0 [] input derived)
    (row : List Int) :
    Derived ent ((rowValues input row).map Assignment.column) 0 [] (rowValues input row)
      (derived.map fun x => (⟨x.1.column, row.toArray[x.2]?, false, none, none⟩, x.2)) := by
  have hcols : (rowValues input row).map Assignment.column = input.map Assignment.column := by
    rw [rowValues, List.mapIdx_eq_zipIdx_map, List.map_map]
    exact (List.map_map (f := Prod.fst) (g := Assignment.column)).symm.trans
      (by rw [List.zipIdx_map_fst])
  have hget (k : Nat) : (rowValues input row)[k]? =
      input[k]?.map fun a => ⟨a.column, row.toArray[k]?, false, none, none⟩ := by
    rw [rowValues, List.getElem?_mapIdx]
  rw [hcols]
  refine ⟨fun x hx => ?_, ?_, fun a ha f hf hne hnot => ?_⟩
  · obtain ⟨y, hy, rfl⟩ := List.mem_map.mp hx
    obtain ⟨k, a, f, hk, ha, hf, hne, hnot, hknown, heq⟩ := hd.source y hy
    refine ⟨k, ⟨a.column, row.toArray[k]?, false, none, none⟩, f, hk, by rw [hget, ha]; rfl, hf, hne,
      hnot, hknown, ?_⟩
    have hk' : y.2 = k := by omega
    simp only [hk', heq]
  · rw [List.map_map]
    exact hd.nodup
  · obtain ⟨k, hk⟩ := List.mem_iff_getElem?.mp ha
    rw [hget] at hk
    obtain ⟨a', ha', rfl⟩ := Option.map_eq_some_iff.mp hk
    refine (hd.complete a' (List.mem_of_getElem? ha') f hf hne hnot).imp_right ?_
    rintro ⟨x, hx, hcol, k', e, hk', he, hsame⟩
    exact ⟨_, List.mem_map_of_mem hx, hcol, k', ⟨e.column, row.toArray[k']?, false, none, none⟩, hk',
      by rw [hget, he]; rfl, hsame⟩

end Indexes

section Parts
variable {P : Planner} {ent : Entity} {input : List Assignment} {stamp refresh : List String}
  {sourced : List (Assignment × Nat)}

theorem Only.mem {c : Prop} {A : Written → Prop} {ws : List Written} (h : Only c A ws) {w : Written}
    (hw : w ∈ ws) : c ∧ A w := by
  by_cases hc : c
  · obtain ⟨v, rfl, hv⟩ := h.1 hc
    obtain rfl := List.mem_singleton.mp hw
    exact ⟨hc, hv⟩
  · rw [h.2 hc] at hw
    cases hw

theorem Only.exists {c : Prop} {A : Written → Prop} {ws : List Written} (h : Only c A ws) (hc : c) :
    ∃ w ∈ ws, A w := by
  obtain ⟨w, rfl, hw⟩ := h.1 hc
  exact ⟨w, List.mem_singleton_self w, hw⟩

theorem version_not_own {own : List Written} {values : List Assignment}
    (hown : List.Forall₂ (Gives P ent) values own) (hcols : values.map Assignment.column =
      (sourced.map Prod.fst).map Assignment.column) {complete : Bool}
    (hchecked : validateAESAssignments ent (sourced.map Prod.fst) complete = .ok ⟨⟩)
    (hne : ent.aesVersion ≠ "") {w : Written} (hw : w ∈ own) : w.column ≠ ent.aesVersion := by
  intro heq
  have hmem : w.column ∈ own.map Written.column := List.mem_map_of_mem hw
  rw [gives_columns hown, hcols, heq] at hmem
  exact version_not_sourced hchecked hne hmem

/-- A row of an INSERT writes the key version exactly when the audit column is another one. -/
theorem RowParts.Of.version_iff {x : RowParts} {values : List Assignment}
    (hx : x.Of P ent (sourced.map Prod.fst) values) (hcols : values.map Assignment.column =
      (sourced.map Prod.fst).map Assignment.column)
    (hchecked : validateAESAssignments ent (sourced.map Prod.fst) false = .ok ⟨⟩)
    (hstamp : ∀ c ∈ stampColumns P.d ent (sourced.map Prod.fst), c ≠ ent.aesVersion)
    (hne : ent.aesVersion ≠ "") :
    WritesVersion P.d ent x.all ↔ ent.aesVersion ≠ ent.auditColumn := by
  constructor
  · intro h heq
    obtain ⟨w, hw, hcol, haudit⟩ := hx.audit.exists (heq ▸ hne)
    exact haudit.not_version (h.2 w (by simp [RowParts.all, hw]) (hcol.trans heq.symm))
  · intro hapart
    refine ⟨?_, fun w hw hcol => ?_⟩
    · obtain ⟨w, hw, hcol, -⟩ := hx.version.exists ⟨hne, checked_version hchecked hne⟩
      exact ⟨w, by simp [RowParts.all, hw], hcol⟩
    · simp only [RowParts.all, List.mem_append] at hw
      rcases hw with ((hw | hw) | hw) | hw
      · exact absurd hcol (version_not_own hx.own hcols hchecked hne hw)
      · exact (hx.version.mem hw).2.2
      · exact absurd (hcol.symm.trans (hx.audit.mem hw).2.1) hapart
      · have hmem : w.column ∈ x.stamp.map Written.column := List.mem_map_of_mem hw
        rw [hx.stamp] at hmem
        exact absurd hcol (hstamp _ hmem)

/-- A complete check of the AES columns. -/
theorem checked_complete {set : List Assignment}
    (h : validateAESAssignments ent set true = .ok ⟨⟩) (hne : ent.aesVersion ≠ "")
    (haes : assignsAES ent set = true) {c : String} (hc : ent.Encrypts c) :
    c ∈ set.map Assignment.column := by
  obtain ⟨f, hf, hstage⟩ := hc
  rw [validateAESAssignments, if_neg hne] at h
  obtain ⟨_, -, h⟩ := ok_bind.mp h
  rw [haes, Bool.and_self, if_pos rfl] at h
  have hall := ok_refuse (ok_forM h f (fieldOf_mem hf))
  rw [← assigned_iff, ← fieldOf_name hf]
  by_contra hnot
  exact hall ⟨hstage, by simpa using hnot⟩

/-- A SET list replaces the AES columns with the key version exactly when the audit column and the
refreshed columns are apart from them. -/
theorem SetParts.Of.replaces_iff {x : SetParts} (hr : ent.Ruled)
    (hx : x.Of P ent input stamp refresh sourced)
    (haudit : ∀ a ∈ input, a.column ≠ ent.auditColumn)
    (hstamp : ∀ c ∈ stamp, ent.Other c ∧ c ≠ ent.aesVersion) (hrefresh : ∀ c ∈ refresh, ent.Other c) :
    Replaces P.d ent x.all ↔ VersionApart ent input refresh := by
  have htakes := takesVersion_iff hr hx.derives
  have hsame := sourced_assignsAES hr hx.derives
  have hmem (w : Written) : w ∈ x.all ↔
      (((w ∈ x.own ∨ w ∈ x.version) ∨ w ∈ x.stamp) ∨ w ∈ x.audit) ∨ w ∈ x.refresh := by
    simp only [SetParts.all, List.mem_append]
  have hstamped {w : Written} (hw : w ∈ x.stamp) : ent.Other w.column ∧ w.column ≠ ent.aesVersion :=
    hstamp _ (hx.stamp ▸ List.mem_map_of_mem hw)
  have hrefreshed {w : Written} (hw : w ∈ x.refresh) : w.column ∈ refresh :=
    hx.refresh.1 ▸ List.mem_map_of_mem hw
  constructor
  · intro h
    refine ⟨fun hne henc => ?_, fun haes => ?_⟩
    · -- the audit column alone would need the key version
      obtain ⟨w, hw, hcol, -⟩ := hx.audit.exists hne
      obtain ⟨-, ⟨v, hv, hvcol⟩, hall⟩ := h ⟨w, (hmem w).mpr (.inl (.inr hw)), hcol ▸ henc⟩
      have hkey : ent.aesVersion ≠ "" := by
        obtain ⟨f, hf, hstage⟩ := henc
        exact (hr.aes f (fieldOf_mem hf) hstage).1
      rcases (hmem v).mp hv with (((hv' | hv') | hv') | hv') | hv'
      · exact version_not_own hx.own rfl hx.checked hkey hv' hvcol
      · have htaken := (hx.version.mem hv').1
        have hcols := checked_complete hx.checked hkey htaken.2 henc
        rcases (addBlindIndexAssignments_columns hx.derives _).mp hcols with hown | hderived
        · obtain ⟨a, ha, heq⟩ := List.mem_map.mp hown
          exact haudit a ha heq
        · obtain ⟨-, -, a, -, f, hf, heq⟩ := hderived
          exact hr.index_plain (List.any_eq_true.mpr ⟨f, fieldOf_mem hf, by simpa using heq⟩) henc
      · exact (hstamped hv').2 hvcol
      · have heq : ent.aesVersion = ent.auditColumn := hvcol.symm.trans (hx.audit.mem hv').2.1
        exact hr.other_plain (heq ▸ hr.version_other hkey) henc
      · exact (hall v hv hvcol).slots_ne_nil (hx.refresh.2 v hv')
    · obtain ⟨a, ha, henc⟩ := assignsAES_encrypts.mp (hsame.trans haes)
      obtain ⟨w, hw, hg⟩ := gives_left hx.own ha
      obtain ⟨-, -, hall⟩ := h ⟨w, (hmem w).mpr (.inl (.inl (.inl (.inl hw)))), hg.column ▸ henc⟩
      refine ⟨fun heq => ?_, fun hin => ?_⟩
      · obtain ⟨v, hv, hcol, ha⟩ := hx.audit.exists (heq ▸ (htakes.mpr haes).1)
        exact ha.not_version (hall v ((hmem v).mpr (.inl (.inr hv))) (hcol.trans heq.symm))
      · rw [← hx.refresh.1] at hin
        obtain ⟨v, hv, hcol⟩ := List.mem_map.mp hin
        exact (hall v ((hmem v).mpr (.inr hv)) hcol).slots_ne_nil (hx.refresh.2 v hv)
  · rintro hapart ⟨w, hw, henc⟩
    have haes : assignsAES ent input = true := by
      rcases (hmem w).mp hw with (((hw | hw) | hw) | hw) | hw
      · obtain ⟨a, ha, hg⟩ := exists_of_forall₂ hx.own hw
        rw [hg.column] at henc
        exact hsame ▸ assignsAES_encrypts.mpr ⟨a, ha, henc⟩
      · exact htakes.mp (hx.version.mem hw).1
      · exact absurd henc (hr.other_plain (hstamped hw).1)
      · obtain ⟨hne, hcol, -⟩ := hx.audit.mem hw
        exact absurd (hcol ▸ henc) (hapart.audit hne)
      · exact absurd henc (hr.other_plain (hrefresh _ (hrefreshed hw)))
    have hkey := htakes.mpr haes
    refine ⟨fun c hc => ?_, ?_, fun v hv hcol => ?_⟩
    · have hcols := checked_complete hx.checked hkey.1 hkey.2 hc
      rw [← gives_columns hx.own] at hcols
      obtain ⟨v, hv, hcol⟩ := List.mem_map.mp hcols
      exact ⟨v, (hmem v).mpr (.inl (.inl (.inl (.inl hv)))), hcol⟩
    · obtain ⟨v, hv, hcol, -⟩ := hx.version.exists hkey
      exact ⟨v, (hmem v).mpr (.inl (.inl (.inl (.inr hv)))), hcol⟩
    · rcases (hmem v).mp hv with (((hv | hv) | hv) | hv) | hv
      · exact absurd hcol (version_not_own hx.own rfl hx.checked hkey.1 hv)
      · exact (hx.version.mem hv).2.2
      · exact absurd hcol (hstamped hv).2
      · exact absurd (hcol.symm.trans (hx.audit.mem hv).2.1) (hapart.version haes).1
      · exact absurd (hcol ▸ hrefreshed hv) (hapart.version haes).2

/-- Outside the assignments a SET list has the audit column and columns that hold no text. -/
theorem SetParts.Of.hashed_iff {x : SetParts} (hr : ent.Ruled)
    (hx : x.Of P ent input stamp refresh sourced)
    (hplain : ∀ a ∈ input, ent.Encrypts a.column → a.plusP = none ∧ a.minusP = none)
    (hstamp : ∀ c ∈ stamp, ent.Other c) (hrefresh : ∀ c ∈ refresh, ent.Other c) :
    Hashed P.d ent x.all ↔ IndexesAgree ent input := by
  obtain ⟨derived, hsourced, hd⟩ := addBlindIndexAssignments_derived hx.derives
  have hown := hx.own
  rw [hsourced, List.map_append, map_fst_mapIdx] at hown
  refine Orm.Engine.hashed_iff (x.version ++ x.stamp ++ x.audit ++ x.refresh) hr hd hplain hown
    (fun hne => ?_) (fun w hw => ?_) fun w => ?_
  · obtain ⟨w, hw, hcol⟩ := hx.audit.exists hne
    exact ⟨w, by simp [hw], hcol⟩
  · simp only [List.mem_append] at hw
    rcases hw with ((hw | hw) | hw) | hw
    · obtain ⟨htakes, hcol, -⟩ := hx.version.mem hw
      exact .inr (hcol ▸ hr.version_other htakes.1)
    · exact .inr (hstamp _ (hx.stamp ▸ List.mem_map_of_mem hw))
    · exact .inl (hx.audit.mem hw).2
    · exact .inr (hrefresh _ (hx.refresh.1 ▸ List.mem_map_of_mem hw))
  · simp only [SetParts.all, List.mem_append, or_assoc]

theorem RowParts.Of.hashed_iff {x : RowParts} {set values : List Assignment} (hr : ent.Ruled)
    {derived : List (Assignment × Nat)}
    (hd : Derived ent (input.map Assignment.column) 0 [] input derived)
    (hvalues : values = input ++ derived.map Prod.fst) (hx : x.Of P ent set values)
    (hplain : ∀ a ∈ input, ent.Encrypts a.column → a.plusP = none ∧ a.minusP = none)
    (hstamp : ∀ c ∈ stampColumns P.d ent set, ent.Other c) :
    Hashed P.d ent x.all ↔ IndexesAgree ent input := by
  refine Orm.Engine.hashed_iff (x.version ++ x.audit ++ x.stamp) hr hd hplain (hvalues ▸ hx.own)
    (fun hne => ?_) (fun w hw => ?_) fun w => ?_
  · obtain ⟨w, hw, hcol⟩ := hx.audit.exists hne
    exact ⟨w, by simp [hw], hcol⟩
  · simp only [List.mem_append] at hw
    rcases hw with (hw | hw) | hw
    · obtain ⟨htakes, hcol, -⟩ := hx.version.mem hw
      exact .inr (hcol ▸ hr.version_other htakes.1)
    · exact .inl (hx.audit.mem hw).2
    · exact .inr (hstamp _ (hx.stamp ▸ List.mem_map_of_mem hw))
  · simp only [RowParts.all, List.mem_append, or_assoc]

end Parts

section Main
variable {P : Planner} {ent : Entity} {r : Request}

/-- A clock column is a datetime, so it is not the key version. -/
theorem Entity.Ruled.clock_other (hr : ent.Ruled) {f : Field} (hf : f ∈ ent.fields)
    (h : f.name = ent.updated ∨ f.name = ent.softDelete ∨ f.defaultNow = true) :
    ent.Other f.name ∧ f.name ≠ ent.aesVersion := by
  have htype := hr.clock f hf h
  refine ⟨⟨f, hf, rfl, by simp [htype]⟩, fun heq => ?_⟩
  rcases hr.version f hf heq with h | h | h <;> cases htype.symm.trans h

theorem stampColumns_other (hr : ent.Ruled) {set : List Assignment} :
    ∀ c ∈ stampColumns P.d ent set, ent.Other c ∧ c ≠ ent.aesVersion := by
  intro c hc
  unfold stampColumns at hc
  split at hc
  · obtain ⟨f, hf, rfl⟩ := List.mem_map.mp hc
    obtain ⟨hf, hnow⟩ := List.mem_filter.mp hf
    exact hr.clock_other hf (.inr (.inr (by simpa using (Bool.and_eq_true_iff.mp hnow).1)))
  · cases hc

theorem updatedColumns_other (hr : ent.Ruled) {set : List Assignment} :
    ∀ c ∈ updatedColumns ent set, ent.Other c ∧ c ≠ ent.aesVersion := by
  intro c hc
  unfold updatedColumns at hc
  split at hc
  · rename_i hne
    obtain rfl := List.mem_singleton.mp hc
    obtain ⟨f, hf, hname⟩ := hr.field (c := ent.updated) (by simp) hne.1
    exact hname ▸ hr.clock_other hf (.inl hname)
  · cases hc

theorem softDelete_other (hr : ent.Ruled) (hne : ent.softDelete ≠ "") :
    ∀ c ∈ [ent.softDelete], ent.Other c ∧ c ≠ ent.aesVersion := by
  intro c hc
  obtain rfl := List.mem_singleton.mp hc
  obtain ⟨f, hf, hname⟩ := hr.field (c := ent.softDelete) (by simp) hne
  exact hname ▸ hr.clock_other hf (.inr (.inl hname))

theorem refreshColumns_other (hr : ent.Ruled) : ∀ c ∈ refreshColumns P.d ent, ent.Other c := by
  intro c hc
  unfold refreshColumns at hc
  split at hc
  · rename_i hne
    obtain rfl := List.mem_singleton.mp hc
    obtain ⟨f, hf, hname⟩ := hr.field (c := ent.identity) (by simp) hne.1
    exact ⟨f, hf, hname, by simp [(hr.identity f hf hname).1]⟩
  · cases hc

/-- A validated write assigns an AES column by no plus or minus. -/
theorem assign_plain (hr : ent.Ruled) {V : Validator} {entity : String} {a : Assignment} {u : PUnit}
    (h : V.assign ent entity a = .ok u) (henc : ent.Encrypts a.column) :
    a.plusP = none ∧ a.minusP = none := by
  obtain ⟨g, hg, haes⟩ := henc
  obtain ⟨f, hf, h⟩ := ok_bind.mp h
  obtain rfl : f = g := Option.some.inj ((knownColumn_ok hf).symm.trans hg)
  obtain ⟨_, _, h⟩ := ok_bind.mp h
  obtain ⟨_, _, h⟩ := ok_bind.mp h
  obtain ⟨_, _, h⟩ := ok_bind.mp h
  obtain ⟨_, hrefuse, _⟩ := ok_bind.mp h
  have hnumeric : f.type.isNumeric = false := by
    rcases (hr.aes f (fieldOf_mem hg) haes).2 with h | h | h <;> rw [h] <;> rfl
  simpa [hnumeric] using ok_refuse hrefuse

theorem validate_plain {m : RuntimeModel} (hr : ent.Ruled) (hv : validate m r = .ok ⟨⟩)
    (hk : r.kind = .insert ∨ r.kind = .update ∨ r.kind = .restore)
    (hent : entityOf m r.query.entity = some ent) :
    (∀ a ∈ r.set, ent.Encrypts a.column → a.plusP = none ∧ a.minusP = none) ∧
      ∀ a ∈ r.onDuplicate, ent.Encrypts a.column → a.plusP = none ∧ a.minusP = none := by
  obtain ⟨hset, hdup⟩ := validateWrite_parts (validate_write hv hent)
  constructor
  · intro a ha
    obtain ⟨_, _, h⟩ := ok_bind.mp (hset hk)
    obtain ⟨_, hassign, _⟩ := ok_bind.mp (ok_forM h a ha)
    exact assign_plain hr hassign
  · intro a ha
    obtain ⟨_, _, h⟩ := ok_bind.mp (hdup (List.ne_nil_of_mem ha))
    obtain ⟨_, hall, _⟩ := ok_bind.mp h
    obtain ⟨_, hassign, _⟩ := ok_bind.mp (ok_forM hall a ha)
    exact assign_plain hr hassign

/-- The first row of an INSERT and one more. -/
theorem rows_encrypted_iff (hr : ent.Ruled) {sourced : List (Assignment × Nat)}
    (hsourced : addBlindIndexAssignments ent r.set = .ok sourced)
    (hchecked : validateAESAssignments ent (sourced.map Prod.fst) false = .ok ⟨⟩)
    (hplain : ∀ a ∈ r.set, ent.Encrypts a.column → a.plusP = none ∧ a.minusP = none)
    {rows : List RowParts} {more : List (List Int)}
    (hrows : List.Forall₂ (fun values row => RowParts.Of row P ent (sourced.map Prod.fst) values)
      (sourced.map Prod.fst :: more.map (rowSet sourced)) rows) :
    (∀ row ∈ rows, (ent.aesVersion ≠ "" → WritesVersion P.d ent row.all) ∧ Hashed P.d ent row.all) ↔
      (ent.aesVersion ≠ "" → ent.aesVersion ≠ ent.auditColumn) ∧ IndexesAgree ent r.set ∧
        ∀ row ∈ more, IndexesAgree ent (rowValues r.set row) := by
  obtain ⟨derived, rfl, hd⟩ := addBlindIndexAssignments_derived hsourced
  have hstamp := @stampColumns_other P ent hr
  have hfst : (r.set.mapIdx (fun i a => (a, i)) ++ derived).map Prod.fst =
      r.set ++ derived.map Prod.fst := by
    rw [List.map_append, map_fst_mapIdx]
  have hrowSet (row : List Int) : rowSet (r.set.mapIdx (fun i a => (a, i)) ++ derived) row =
      rowValues r.set row ++ (derived.map fun x => ((⟨x.1.column, row.toArray[x.2]?, false, none,
        none⟩ : Assignment), x.2)).map Prod.fst := by
    rw [rowSet, rowValues, List.map_append, List.map_map, List.mapIdx_eq_zipIdx_map,
      List.mapIdx_eq_zipIdx_map, List.map_map]
    rfl
  have hrowPlain (row : List Int) : ∀ a ∈ rowValues r.set row, ent.Encrypts a.column →
      a.plusP = none ∧ a.minusP = none := by
    intro a ha _
    obtain ⟨i, hi, rfl⟩ := List.mem_mapIdx.mp ha
    exact ⟨rfl, rfl⟩
  cases hrows with
  | @cons _ first _ others hfirst hothers =>
    have hversion {values : List Assignment} {row : RowParts} (hcols : values.map Assignment.column =
        ((r.set.mapIdx (fun i a => (a, i)) ++ derived).map Prod.fst).map Assignment.column)
        (hrow : row.Of P ent ((r.set.mapIdx (fun i a => (a, i)) ++ derived).map Prod.fst) values) :
        (ent.aesVersion ≠ "" → WritesVersion P.d ent row.all) ↔
          (ent.aesVersion ≠ "" → ent.aesVersion ≠ ent.auditColumn) :=
      forall_congr' fun hne =>
        hrow.version_iff hcols hchecked (fun c hc => (hstamp c hc).2) hne
    have hhead := hfirst.hashed_iff hr hd hfst hplain fun c hc => (hstamp c hc).1
    have hmore {row : List Int} {x : RowParts}
        (hx : x.Of P ent ((r.set.mapIdx (fun i a => (a, i)) ++ derived).map Prod.fst)
          (rowSet (r.set.mapIdx (fun i a => (a, i)) ++ derived) row)) :
        Hashed P.d ent x.all ↔ IndexesAgree ent (rowValues r.set row) :=
      hx.hashed_iff hr (hd.row row) (hrowSet row) (hrowPlain row) fun c hc => (hstamp c hc).1
    rw [List.forall_mem_cons, hversion rfl hfirst, hhead, and_assoc]
    refine and_congr_right fun hapart => and_congr_right fun _ => ?_
    constructor
    · intro h row hrow
      obtain ⟨x, hx, hof⟩ := exists_of_forall₂ hothers.flip (List.mem_map_of_mem hrow)
      exact (hmore hof).mp (h x hx).2
    · intro h x hx
      obtain ⟨values, hvalues, hof⟩ := exists_of_forall₂ hothers hx
      obtain ⟨row, hrow, rfl⟩ := List.mem_map.mp hvalues
      exact ⟨(hversion (rowSet_columns _ _) hof).mpr hapart, (hmore hof).mpr (h row hrow)⟩

/-- What a statement assigns keeps its encrypted columns whole exactly when the request does. -/
theorem Assigned.Of.encrypted_iff {x : Assigned} (hx : x.Of P ent r) (hr : ent.Ruled)
    (hset : ∀ a ∈ r.set, a.column ≠ ent.auditColumn)
    (hdup : ∀ a ∈ r.onDuplicate, a.column ≠ ent.auditColumn)
    (hplain : ∀ a ∈ r.set, ent.Encrypts a.column → a.plusP = none ∧ a.minusP = none)
    (hplain' : ∀ a ∈ r.onDuplicate, ent.Encrypts a.column → a.plusP = none ∧ a.minusP = none) :
    x.Encrypted P.d ent ↔ EncryptsWhole P ent r := by
  -- a statement of one SET list
  have hlist {input : List Assignment} {stamp : List String} {sourced : List (Assignment × Nat)}
      {sets : SetParts} (hsub : ∀ a ∈ input, a ∈ r.set)
      (hsets : sets.Of P ent input stamp [] sourced)
      (hstamp : ∀ c ∈ stamp, ent.Other c ∧ c ≠ ent.aesVersion) :
      Assigned.Encrypted P.d ent ⟨[], [], some sets⟩ ↔
        VersionApart ent input [] ∧ IndexesAgree ent input := by
    have hnil : ∀ c ∈ ([] : List String), ent.Other c := fun c hc => absurd hc List.not_mem_nil
    rw [← hsets.replaces_iff hr (fun a ha => hset a (hsub a ha)) hstamp hnil,
      ← hsets.hashed_iff hr (fun a ha => hplain a (hsub a ha)) (fun c hc => (hstamp c hc).1) hnil]
    refine ⟨fun h => h.sets sets rfl, fun h => ⟨fun _ h => absurd h List.not_mem_nil, ?_⟩⟩
    rintro _ ⟨⟩
    exact h
  cases hx with
  | @insert sourced rows hkind hsourced hchecked hrows hupsert =>
    have hiff := rows_encrypted_iff hr hsourced hchecked hplain hrows
    constructor
    · intro h
      obtain ⟨hversion, hagree, hmore⟩ := hiff.mp h.rows
      exact .insert hkind hversion hagree hmore fun hnil hne => hupsert.elim (absurd hnil) (absurd · hne)
    · intro h
      cases h with
      | insert _ hversion hagree hmore _ =>
        exact ⟨hiff.mpr ⟨hversion, hagree, hmore⟩, fun _ hs => absurd hs (by simp)⟩
      | update hk | restore hk => cases hkind.symm.trans hk
  | @upsert sourced duplicate row sets hkind hsourced hchecked hrow hrows hne hsets =>
    have hone : List.Forall₂ (fun values row => RowParts.Of row P ent (sourced.map Prod.fst) values)
        (sourced.map Prod.fst :: r.rows.map (rowSet sourced)) [row] := by
      rw [hrows]
      exact .cons hrow .nil
    have hiff := rows_encrypted_iff hr hsourced hchecked hplain hone
    have hnil : ∀ c ∈ ([] : List String), ent.Other c ∧ c ≠ ent.aesVersion :=
      fun c hc => absurd hc List.not_mem_nil
    have hreplaces := hsets.replaces_iff hr hdup hnil (refreshColumns_other hr)
    have hhashed := hsets.hashed_iff hr hplain' (fun c hc => (hnil c hc).1) (refreshColumns_other hr)
    constructor
    · intro h
      obtain ⟨hversion, hagree, hmore⟩ := hiff.mp h.rows
      obtain ⟨hwhole, hhash⟩ := h.sets sets rfl
      exact .insert hkind hversion hagree hmore fun _ _ => ⟨hreplaces.mp hwhole, hhashed.mp hhash⟩
    · intro h
      cases h with
      | insert _ hversion hagree hmore hdup' =>
        refine ⟨hiff.mpr ⟨hversion, hagree, hmore⟩, ?_⟩
        rintro _ ⟨⟩
        exact ⟨hreplaces.mpr (hdup' hrows hne).1, hhashed.mpr (hdup' hrows hne).2⟩
      | update hk | restore hk => cases hkind.symm.trans hk
  | @update sourced sets hkind hsets =>
    have hiff := hlist (fun _ ha => ha) hsets (updatedColumns_other hr)
    constructor
    · intro h
      exact .update hkind (hiff.mp h).1 (hiff.mp h).2
    · intro h
      cases h with
      | update _ hversion hagree => exact hiff.mpr ⟨hversion, hagree⟩
      | insert hk | restore hk => cases hkind.symm.trans hk
  | @restore parts sourced sets hkind hparts hsets =>
    have hsub : ∀ a ∈ parts.set, a ∈ r.set := by
      intro a ha
      rw [(restoreKey_of hparts).set] at ha
      exact (List.mem_filter.mp ha).1
    have hsoft : ent.softDelete ≠ "" := by
      obtain ⟨_, hrefuse, _⟩ := ok_bind.mp hparts
      exact ok_refuse hrefuse
    have hiff := hlist hsub hsets (softDelete_other hr hsoft)
    constructor
    · intro h
      refine .restore hkind fun parts' hparts' => ?_
      obtain rfl : parts = parts' := Except.ok.inj (hparts.symm.trans hparts')
      exact hiff.mp h
    · intro h
      cases h with
      | restore _ hagree => exact hiff.mpr (hagree parts hparts)
      | insert hk | update hk => cases hkind.symm.trans hk

end Main

section Example

/-- Members whose encrypted mail address has a blind index. -/
def indexedMember : Entity :=
  { memberEntity with
    fields := [exampleColumn "id" .i64, exampleColumn "version" .i32,
      { exampleColumn "mail" .text with stages := [.aes], blindIndex := "mail_index" },
      exampleColumn "mail_index" .varchar] }

def indexedPlanner : Planner := ⟨⟨"h", [("member", indexedMember)]⟩, .postgres, false⟩

/-- Updates the member with an id. -/
def mailUpdate (set : List Assignment) : Request :=
  { bookUpdate .and with
    query := .mk { bookHead with entity := "member" } none none
      (some (.mk .none false [idItem .none 0])) [] []
    set := set }

theorem indexedMember_ruled : indexedMember.Ruled where
  names := by decide
  settings := by decide
  aes := by decide
  version := by decide
  clock := by decide
  index := by decide
  identity := by decide
  soft := by decide
  audit := by decide

end Example

end Orm.Engine
