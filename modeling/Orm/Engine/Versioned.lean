import Orm.Engine.Checked

/-! The version column of the assemblies of a read plan: every assembly with an AES column has one,
but for a grouped count by an AES column. -/
namespace Orm.Engine

open Orm.Logic

/-- The AES columns of the assembly are read with a version: one of its columns selects the version
column of the entity, and no codec decodes it. -/
def Versioned (m : RuntimeModel) (asm : Assemble) : Prop :=
  (∃ c ∈ asm.columns, Stage.aes ∈ c.styles) →
    ∃ name ent i c, entityOf m name = some ent ∧ ent.name = asm.entity ∧
      asm.aesVersion = some i ∧ asm.columns[i]? = some c ∧
      c.name = ent.aesVersion ∧ c.column = ent.aesVersion ∧ c.styles = []

/-- The assembly and the join children that are decoded with it are versioned. -/
inductive AllVersioned (m : RuntimeModel) : Assemble → Prop where
  | mk {asm : Assemble} (own : Versioned m asm)
    (joins : ∀ ch ∈ asm.children, ch.kind = .join → ∀ a, ch.assemble = some a → AllVersioned m a) :
    AllVersioned m asm

/-- The version column of each entity is a named integer column. -/
def IntegerVersions (m : RuntimeModel) : Prop :=
  ∀ name ent f, entityOf m name = some ent → fieldOf ent ent.aesVersion = some f →
    ent.aesVersion ≠ "" ∧ (f.type = .i16 ∨ f.type = .i32 ∨ f.type = .i64)

/-- No column that the query groups by is an AES column. -/
def GroupsPlain (m : RuntimeModel) (q : Query) : Prop :=
  ∀ ent, entityOf m q.entity = some ent → ∀ name ∈ q.head.groupBy.getD [],
    ∀ f, fieldOf ent name = some f → Stage.aes ∉ f.stages

variable {P : Planner} {m : RuntimeModel} {V : Validator} {s : Scope} {asm : Assemble}

theorem allVersioned_iff : AllVersioned m asm ↔ Versioned m asm ∧
    ∀ ch ∈ asm.children, ch.kind = .join → ∀ a, ch.assemble = some a → AllVersioned m a := by
  constructor
  · rintro ⟨own, joins⟩
    exact ⟨own, joins⟩
  · rintro ⟨own, joins⟩
    exact ⟨own, joins⟩

section Select

/-- The stages from `sqlStart` on are all SQL-side. -/
theorem drop_sqlStart (stages : List Stage) (sql : Stage → Bool) :
    stages.drop (sqlStart stages sql) = (stages.reverse.takeWhile sql).reverse := by
  have hparts : (stages.reverse.dropWhile sql).reverse ++ (stages.reverse.takeWhile sql).reverse =
      stages := by
    rw [← List.reverse_append, List.takeWhile_append_dropWhile, List.reverse_reverse]
  have hlen : (stages.reverse.dropWhile sql).reverse.length = sqlStart stages sql := by
    have h := congrArg List.length hparts
    simp only [List.length_append, List.length_reverse] at h
    rw [sqlStart, List.length_reverse]
    omega
  calc stages.drop (sqlStart stages sql)
      = ((stages.reverse.dropWhile sql).reverse ++ (stages.reverse.takeWhile sql).reverse).drop
          (sqlStart stages sql) := by rw [hparts]
    _ = (stages.reverse.takeWhile sql).reverse := List.drop_left' hlen

/-- No dialect decodes the AES stage, so the client does. -/
theorem aes_mem_clientStyles {stages : List Stage} :
    Stage.aes ∈ P.clientStyles stages ↔ Stage.aes ∈ stages := by
  have hdrop : Stage.aes ∉ stages.drop (sqlStart stages P.d.decodesStage) := by
    rw [drop_sqlStart, List.mem_reverse]
    intro hmem
    have hdecodes := List.mem_takeWhile_imp hmem
    cases hd : P.d <;> simp [hd, Dialect.decodesStage] at hdecodes
  constructor
  · exact fun h => List.mem_of_mem_take h
  · intro h
    rw [← List.take_append_drop (sqlStart stages P.d.decodesStage) stages] at h
    exact (List.mem_append.mp h).resolve_right hdrop

theorem holds_true {α : Type} (x : Build α) : Holds (fun _ => True) x fun _ => True :=
  fun _ _ _ _ _ => ⟨trivial, trivial⟩

/-- Only a projected AES column is decoded with the AES stage. -/
theorem selectColumn_aes {ent : Entity} (c : OutColumn) :
    Holds (fun _ => True) (P.selectColumn s ent c) fun x =>
      Stage.aes ∈ x.2.2 → Planner.isAes ent c = true := by
  obtain ⟨name, column, fn, sub⟩ := c
  unfold Planner.selectColumn
  dsimp only
  cases fn with
  | some fn =>
    dsimp only
    split
    · exact .error fun _ _ h => by cases h
    · exact (holds_true _).bind fun _ _ => .pure (by simp)
  | none =>
    cases sub with
    | some sub => exact (holds_true _).bind fun _ _ => (holds_true _).bind fun _ _ => .pure (by simp)
    | none =>
      refine Holds.bind (.lift fun own hown => present_ok.mp hown) fun own hown => .pure fun h => ?_
      have haes := aes_mem_clientStyles.mp h
      by_cases hempty : column = ""
      · simp [hempty] at hown
      · rw [if_neg hempty] at hown
        simp [Planner.isAes, hempty, hown, haes]

theorem selectColumns_aes {ent : Entity} (cols : List OutColumn) (idx : Nat) :
    Holds (fun _ => True) (P.selectColumns s ent idx cols) fun sel =>
      sel.aesVersion = none ∧ List.Forall₂ (fun c o => o.name = c.name ∧ o.column = c.column ∧
        (Stage.aes ∈ o.styles → Planner.isAes ent c = true)) cols sel.columns := by
  induction cols generalizing idx with
  | nil => exact .pure ⟨rfl, .nil⟩
  | cons c cols ih =>
    refine (selectColumn_aes c).bind fun x hx => ?_
    exact (ih (idx + 1)).bind fun rest hrest => .pure ⟨rfl, .cons ⟨rfl, rfl, hx⟩ hrest.2⟩

theorem fieldOf_name {ent : Entity} {name : String} {f : Field} (h : fieldOf ent name = some f) :
    f.name = name := by
  have := List.find?_some h
  simpa using this

/-- A projected column with the name of an integer column is that column itself. -/
theorem projection_integer {ent : Entity} {f : Field} {c : OutColumn}
    (hq : Checked V s.q) (hent : entityOf V.m s.q.entity = some ent)
    (hf : fieldOf ent c.column = some f) (htype : f.type = .i16 ∨ f.type = .i32 ∨ f.type = .i64)
    (hname : c.column ≠ "") (hc : c ∈ projection ent s) : c.name = c.column := by
  obtain ⟨ent', s', u, hent', hproj, _, _⟩ := hq.parts
  obtain rfl : ent = ent' := Option.some.inj (hent.symm.trans hent')
  unfold projection at hc
  rcases List.mem_append.mp hc with hc | hc
  · obtain ⟨x, _, rfl⟩ := List.mem_map.mp hc
    rfl
  · cases hcols : s.q.columns with
    | none => simp [hcols] at hc
    | some p =>
      rw [hcols] at hc hproj
      rcases List.mem_append.mp hc with hc | hc
      · -- a function takes no integer column
        obtain ⟨x, hx, rfl⟩ := List.mem_map.mp hc
        have hx' : x ∈ p.fn := (List.mem_insertionSort _).mp hx
        obtain ⟨col, types, hcol, htypes, hmem⟩ := projection_fn_types hproj x hx'
        obtain rfl : f = col := Option.some.inj (hf.symm.trans hcol)
        exfalso
        unfold columnFunctionTypes at htypes
        split at htypes
        all_goals cases htypes
        all_goals rcases htype with h | h | h <;> simp [h] at hmem
      · obtain ⟨x, _, rfl⟩ := List.mem_map.mp hc
        exact absurd rfl hname

/-- What the version of a selection designates. -/
theorem selectVersion_versioned {ent : Entity} {idx : Nat} {sel sel' : Selected}
    (hplain : ∀ f, fieldOf ent ent.aesVersion = some f →
      ∀ c ∈ sel.columns, c.column = ent.aesVersion → c.name = c.column)
    (h : P.selectVersion s ent idx sel = .ok sel') :
    ∃ i c, sel'.aesVersion = some i ∧ sel'.columns[i]? = some c ∧
      c.name = ent.aesVersion ∧ c.column = ent.aesVersion ∧ c.styles = [] := by
  unfold Planner.selectVersion at h
  cases hfield : fieldOf ent ent.aesVersion with
  | none => simp [hfield, fail] at h
  | some version =>
    have hversion := fieldOf_name hfield
    simp only [hfield] at h
    split at h
    · rename_i i hi
      cases h
      obtain ⟨hlt, hchosen, _⟩ := List.findIdx?_eq_some_iff_getElem.mp hi
      have hboth : sel.columns[i].column = version.name ∧ sel.columns[i].styles = [] := by
        simpa using hchosen
      rw [hversion] at hboth
      refine ⟨i, sel.columns[i], rfl, List.getElem?_eq_getElem hlt, ?_, hboth.1, hboth.2⟩
      rw [hplain version hfield _ (List.getElem_mem hlt) hboth.1, hboth.1]
    · cases h
      exact ⟨_, _, rfl, List.getElem?_concat_length, hversion, hversion, rfl⟩

theorem selectOwn_versioned (hm : IntegerVersions P.m) (hV : V.m = P.m) (hq : Checked V s.q)
    (idx : Nat) :
    Holds (fun _ => True) (P.selectOwn s idx) fun x =>
      x.2.children = [] ∧ Versioned P.m x.2 := by
  refine Holds.bind (A := fun ent => entityOf P.m s.q.entity = some ent)
    (.lift fun _ h => present_ok.mp h) fun ent hent => ?_
  refine (selectColumns_aes (projection ent s) idx).bind fun sel hsel => ?_
  have hout : ∀ o ∈ sel.columns, ∃ c ∈ projection ent s, o.name = c.name ∧ o.column = c.column ∧
      (Stage.aes ∈ o.styles → Planner.isAes ent c = true) := by
    intro o ho
    obtain ⟨i, hi, rfl⟩ := List.mem_iff_getElem.mp ho
    have hlen := hsel.2.length_eq
    exact ⟨_, List.getElem_mem (by omega), hsel.2.get (by omega) hi⟩
  dsimp only
  split
  · refine (Holds.lift fun sel' h => selectVersion_versioned ?_ h).bind
      fun sel' hversion => .pure ⟨rfl, fun _ => ?_⟩
    · intro f hf o ho hcolumn
      obtain ⟨c, hc, hname, hcol, _⟩ := hout o ho
      obtain ⟨hne, htype⟩ := hm _ ent f hent hf
      rw [← hcolumn, hcol] at hf hne
      rw [hname, hcol]
      exact projection_integer hq (hV ▸ hent) hf htype hne hc
    · obtain ⟨i, c, hi, hc, hname, hcolumn, hstyles⟩ := hversion
      exact ⟨_, ent, i, c, hent, rfl, hi, hc, hname, hcolumn, hstyles⟩
  · rename_i hnone
    rw [pure_bind]
    refine .pure ⟨rfl, ?_⟩
    rintro ⟨o, ho, haes⟩
    obtain ⟨c, hc, _, _, his⟩ := hout o ho
    exact absurd (List.any_eq_true.mpr ⟨c, hc, his haes⟩) hnone

mutual
theorem selectList_versioned (hm : IntegerVersions P.m) (hV : V.m = P.m) : ∀ (q : Query)
    {s : Scope} (idx : Nat), s.q = q → Checked V q →
    Holds (fun _ => True) (P.selectList s idx q) fun x => AllVersioned P.m x.2.2.2
  | .mk head columns on where_ joins relations, s, idx, hs, hq => by
    refine (selectOwn_versioned hm hV (hs ▸ hq) idx).bind fun own hown => ?_
    obtain ⟨_, _, _, _, _, hjoins, _⟩ := hq.parts
    refine (selectJoins_versioned hm hV joins _ hjoins).bind fun nested hnested => ?_
    refine (holds_true _).bind fun ent _ => (holds_true _).bind fun key _ => .pure ?_
    exact ⟨hown.2, hnested⟩
theorem selectJoins_versioned (hm : IntegerVersions P.m) (hV : V.m = P.m) : ∀ (joins : List Join)
    {s : Scope} (idx : Nat), (∀ j ∈ joins, Checked V j.query) →
    Holds (fun _ => True) (P.selectJoins s idx joins) fun x =>
      ∀ ch ∈ x.2.2.2, ch.kind = .join → ∀ a, ch.assemble = some a → AllVersioned P.m a
  | [], _, _, _ => .pure fun ch hch => by cases hch
  | .mk rel kind q left right :: joins, s, idx, h => by
    have hq : Checked V q := h _ List.mem_cons_self
    refine (selectList_versioned hm hV q (s := joinScope s (.mk rel kind q left right)) idx rfl
      hq).bind fun own hown => ?_
    refine (selectJoins_versioned hm hV joins _ fun j hj => h j (List.mem_cons_of_mem _ hj)).bind
      fun rest hrest => .pure fun ch hch => ?_
    rcases List.mem_cons.mp hch with rfl | hch
    · rintro - a ha
      cases ha
      exact hown
    · exact hrest ch hch
end

/-- The assembly of a grouped count has no version. -/
theorem selectGroupCountList_versioned {ent : Entity} (hent : entityOf P.m s.q.entity = some ent)
    {x : List Orm.Sql.Text × List String × Assemble}
    (h : P.selectGroupCountList s ent = .ok x) : AllVersioned P.m x.2.2 ↔ GroupsPlain P.m s.q := by
  obtain ⟨cols, hcols, h⟩ := ok_bind.mp h
  obtain ⟨key, _, h⟩ := ok_bind.mp h
  obtain rfl : _ = x := by simpa [pure, Except.pure] using h
  have hfields : List.Forall₂ (fun name y => y.1 = name ∧ fieldOf ent name = some y.2)
      (s.q.head.groupBy.getD []) cols := by
    refine (ok_mapM hcols).imp fun name y hy => ?_
    cases hf : fieldOf ent name with
    | none => simp [hf, fail] at hy
    | some f =>
      simp only [hf] at hy
      cases hy
      exact ⟨rfl, rfl⟩
  rw [allVersioned_iff]
  constructor
  · rintro ⟨hown, _⟩ ent' hent' name hname f hf haes
    obtain rfl : ent = ent' := Option.some.inj (hent.symm.trans hent')
    obtain ⟨i, hi, rfl⟩ := List.mem_iff_getElem.mp hname
    have hlen := hfields.length_eq
    obtain ⟨hname, hfield⟩ := hfields.get hi (by omega)
    have hf' : cols[i] = (cols[i].1, f) := by
      rw [Prod.ext_iff]
      exact ⟨rfl, Option.some.inj (hfield.symm.trans hf)⟩
    obtain ⟨_, _, _, _, _, _, hversion, _⟩ := hown ⟨_, List.mem_append_left _
      (List.mem_mapIdx.mpr ⟨i, by omega, rfl⟩), by
        rw [hf']
        exact aes_mem_clientStyles.mpr haes⟩
    cases hversion
  · intro hplain
    refine ⟨?_, fun ch hch => by cases hch⟩
    rintro ⟨c, hc, haes⟩
    rcases List.mem_append.mp hc with hc | hc
    · obtain ⟨i, hi, rfl⟩ := List.mem_mapIdx.mp hc
      have hlen := hfields.length_eq
      obtain ⟨_, hfield⟩ := hfields.get (show i < (s.q.head.groupBy.getD []).length by omega) hi
      exact absurd (aes_mem_clientStyles.mp haes)
        (hplain ent hent _ (List.getElem_mem _) _ hfield)
    · rw [List.mem_singleton.mp hc] at haes
      cases haes

/-- The assembly of a statement is versioned, unless it counts groups of an AES column. -/
theorem selectHead_versioned {ent : Entity} (hm : IntegerVersions P.m) (hV : V.m = P.m)
    (hq : Checked V s.q) (hent : entityOf P.m s.q.entity = some ent) (kind : Kind) (agg : String) :
    Holds (fun _ => True) (P.selectHead s ent kind agg) fun x =>
      (AllVersioned P.m x.2.2 ↔ (kind = .groupCount → GroupsPlain P.m s.q)) := by
  have hempty (a : Assemble) (hcols : a.columns = []) (hch : a.children = []) :
      AllVersioned P.m a := by
    refine ⟨?_, ?_⟩
    · rintro ⟨c, hc, _⟩
      simp [hcols] at hc
    · intro ch hmem
      simp [hch] at hmem
  unfold Planner.selectHead
  split
  · exact .pure (iff_of_true (hempty _ rfl rfl) (by simp))
  · exact .pure (iff_of_true (hempty _ rfl rfl) (by simp))
  · exact .pure (iff_of_true (hempty _ rfl rfl) (by simp))
  · refine Holds.bind (.lift fun x hx => selectGroupCountList_versioned hent hx) fun x hx =>
      .pure ?_
    simpa using hx
  · rename_i hkind
    refine (selectList_versioned hm hV s.q 0 rfl hq).bind fun x hx => ?_
    refine (holds_true _).bind fun key _ => .pure (iff_of_true ?_ fun h => absurd h hkind)
    obtain ⟨own, joins⟩ := hx
    exact ⟨own, joins⟩

theorem selectText_versioned (hm : IntegerVersions P.m) (hV : V.m = P.m) {q : Query}
    (hq : Checked V q) (kind : Kind) (agg : String) (rc : Option RelationContext) :
    Holds (fun _ => True) (P.selectText q kind agg rc) fun x =>
      (AllVersioned P.m x.2 ↔ (kind = .groupCount → GroupsPlain P.m q)) := by
  have hroot : (Planner.selectRoot q rc).q = q := by cases rc <;> rfl
  unfold Planner.selectText
  refine (holds_true _).bind fun _ _ => ?_
  refine Holds.bind (A := fun ent => entityOf P.m (Planner.selectRoot q rc).q.entity = some ent)
    (.lift fun _ h => present_ok.mp h) fun ent hent => ?_
  refine (selectHead_versioned hm hV (by rw [hroot]; exact hq) hent kind agg).bind fun x hx => ?_
  rw [hroot] at hx
  refine (holds_true _).bind fun _ _ => (holds_true _).bind fun _ _ => ?_
  refine (holds_true _).bind fun _ _ => (holds_true _).bind fun _ _ => ?_
  refine (holds_true _).bind fun _ _ => ?_
  exact .pure hx

end Select

section Steps

/-- The first step is versioned exactly when `root` holds, and every other step is versioned. -/
structure StepsVersioned (m : RuntimeModel) (root : Prop) (steps : List PlanStep) : Prop where
  first : ∃ st ∈ steps, st.id = 0 ∧ st.assemble.isSome = true
  versions : ∀ st ∈ steps, ∀ asm, st.assemble = some asm →
    (AllVersioned m asm ↔ (st.id = 0 → root))

variable {root : Prop}

theorem addSelect_versioned (hm : IntegerVersions P.m) (hV : V.m = P.m) {q : Query}
    (hq : Checked V q) {kind : Kind} (hk : kind ≠ .groupCount) (agg : String)
    (rc : Option (RelationContext × Assemble)) :
    Holds (StepsVersioned P.m root) (P.addSelect q kind agg rc) fun x =>
      x.1 ≠ 0 ∧ AllVersioned P.m x.2 := by
  intro steps x steps' hr hs
  obtain ⟨⟨⟨sql, asm⟩, b⟩, htext, hr⟩ := ok_bind.mp hr
  have hasm := (selectText_versioned hm hV hq kind agg _ _ _ _ htext trivial).2
  have hall : AllVersioned P.m asm := hasm.mpr fun h => absurd h hk
  obtain ⟨parent, _, hr⟩ := ok_bind.mp hr
  obtain ⟨rfl, rfl⟩ : _ = x ∧ _ = steps' := by simpa [pure, Except.pure] using hr
  obtain ⟨st₀, hst₀, hid₀, hsome₀⟩ := hs.first
  have hpos : steps.length ≠ 0 := Nat.pos_iff_ne_zero.mp (List.length_pos_of_mem hst₀)
  refine ⟨⟨⟨st₀, List.mem_append_left _ hst₀, hid₀, hsome₀⟩, fun st hst a ha => ?_⟩, hpos, hall⟩
  rcases List.mem_append.mp hst with hst | hst
  · exact hs.versions st hst a ha
  · rw [List.mem_singleton.mp hst] at ha ⊢
    refine iff_of_true ?_ fun h => absurd h hpos
    cases hrows : Planner.returnsRows kind <;> simp [hrows] at ha
    exact ha ▸ hall

/-- The first step of a request. -/
theorem addSelect_first (hm : IntegerVersions P.m) (hV : V.m = P.m) {q : Query}
    (hq : Checked V q) {kind : Kind} {agg : String} {x : Nat × Assemble} {steps : List PlanStep}
    (h : P.addSelect q kind agg none [] = .ok (x, steps)) :
    x.1 = 0 ∧ (AllVersioned P.m x.2 ↔ (kind = .groupCount → GroupsPlain P.m q)) ∧
      if Planner.returnsRows kind then
        StepsVersioned P.m (kind = .groupCount → GroupsPlain P.m q) steps
      else ∀ st ∈ steps, st.assemble = none := by
  obtain ⟨⟨⟨sql, asm⟩, b⟩, htext, h⟩ := ok_bind.mp h
  have hasm := (selectText_versioned hm hV hq kind agg _ _ _ _ htext trivial).2
  obtain ⟨parent, _, h⟩ := ok_bind.mp h
  obtain ⟨rfl, rfl⟩ : _ = x ∧ _ = steps := by simpa [pure, Except.pure] using h
  refine ⟨rfl, hasm, ?_⟩
  split
  · refine ⟨⟨_, List.mem_singleton_self _, rfl, rfl⟩, fun st hst a ha => ?_⟩
    rw [List.mem_singleton.mp hst] at ha ⊢
    cases ha
    simpa using hasm
  · intro st hst
    rw [List.mem_singleton.mp hst]

theorem setAssemble_versioned {id : Nat} (h : AllVersioned m asm ↔ (id = 0 → root)) :
    Holds (StepsVersioned m root) (setAssemble id asm) fun _ => True := by
  intro steps x steps' hr hs
  obtain rfl : _ = steps' := by simpa [setAssemble, pure, Except.pure] using hr
  refine ⟨⟨?_, fun st hst a ha => ?_⟩, trivial⟩
  · obtain ⟨st, hst, hid, hsome⟩ := hs.first
    refine ⟨_, List.mem_map_of_mem hst, ?_⟩
    split
    · exact ⟨hid, rfl⟩
    · exact ⟨hid, hsome⟩
  · obtain ⟨st', hst', rfl⟩ := List.mem_map.mp hst
    split at ha
    · rename_i hid
      cases ha
      rw [if_pos hid, hid]
      exact h
    · rename_i hid
      rw [if_neg hid]
      exact hs.versions st' hst' a ha

/-- An assembly is versioned after its children have changed exactly when it was before. -/
def SameVersions (m : RuntimeModel) (asm asm' : Assemble) : Prop :=
  AllVersioned m asm' ↔ AllVersioned m asm

/-- A child of the same kind whose assembly is versioned exactly when the other's is. -/
def SameChild (m : RuntimeModel) (ch ch' : Child) : Prop :=
  ch'.kind = ch.kind ∧ ((∀ a, ch'.assemble = some a → AllVersioned m a) ↔
    ∀ a, ch.assemble = some a → AllVersioned m a)

theorem sameVersions_children {children : List Child}
    (h : List.Forall₂ (SameChild m) asm.children children) :
    SameVersions m asm { asm with children } := by
  rw [SameVersions, allVersioned_iff, allVersioned_iff]
  refine and_congr Iff.rfl ?_
  have hlen := h.length_eq
  constructor
  · intro hall ch hch hk
    obtain ⟨i, hi, rfl⟩ := List.mem_iff_getElem.mp hch
    have hi' : i < children.length := by omega
    obtain ⟨hkind, hsame⟩ := h.get hi hi'
    exact hsame.mp (hall children[i] (List.getElem_mem hi') (hkind.trans hk))
  · intro hall ch hch hk
    obtain ⟨i, hi, rfl⟩ := List.mem_iff_getElem.mp (show ch ∈ children from hch)
    obtain ⟨hkind, hsame⟩ := h.get (by omega) hi
    exact hsame.mpr (hall _ (List.getElem_mem (by omega)) (hkind.symm.trans hk))

theorem relationChild_kind {rc : RelationContext} {rel : String} {q : Query} {step : Nat}
    {assembled : Assemble} {child : Child}
    (h : P.relationChild s asm rc rel q step assembled = .ok child) : child.kind ≠ .join := by
  obtain ⟨_, _, h⟩ := ok_bind.mp h
  obtain ⟨_, _, h⟩ := ok_bind.mp h
  obtain ⟨_, _, h⟩ := ok_bind.mp h
  obtain ⟨_, _, h⟩ := ok_bind.mp h
  obtain ⟨_, _, h⟩ := ok_bind.mp h
  obtain ⟨_, _, h⟩ := ok_bind.mp h
  obtain rfl : _ = child := by simpa [pure, Except.pure] using h
  simp

mutual
theorem relationSteps_versioned (hm : IntegerVersions P.m) (hV : V.m = P.m) : ∀ (q : Query)
    {s : Scope} {stepId : Nat} {asm : Assemble}, Checked V q →
    Holds (StepsVersioned P.m root) (P.relationSteps s stepId asm q) (SameVersions P.m asm)
  | .mk head columns on where_ joins relations, s, stepId, asm, hq => by
    obtain ⟨_, _, _, _, _, hjoins, hrelations⟩ := hq.parts
    refine (relationChildren_versioned hm hV relations hrelations).bind fun children hch => ?_
    refine (joinRelationSteps_versioned hm hV joins hjoins).mono fun asm' h => h.trans ?_
    rw [allVersioned_iff, allVersioned_iff]
    refine and_congr Iff.rfl ⟨fun hall ch hmem => hall ch (List.mem_append_left _ hmem),
      fun hall ch hmem hk => ?_⟩
    rcases List.mem_append.mp hmem with hmem | hmem
    · exact hall ch hmem hk
    · exact absurd hk (hch ch hmem)
theorem relationChildren_versioned (hm : IntegerVersions P.m) (hV : V.m = P.m) :
    ∀ (relations : List Relation) {s : Scope} {stepId : Nat} {asm : Assemble},
    (∀ r ∈ relations, Checked V r.query) →
    Holds (StepsVersioned P.m root) (P.relationChildren s stepId asm relations)
      fun children => ∀ ch ∈ children, ch.kind ≠ .join
  | [], _, _, _, _ => .pure fun ch hch => by cases hch
  | .mk rel q kind keys :: relations, s, stepId, asm, h => by
    have hq : Checked V q := h _ List.mem_cons_self
    refine (addSelect_versioned hm hV hq (by simp) "" _).bind fun x hx => ?_
    refine (relationSteps_versioned hm hV q hq).bind fun assembled ha => ?_
    refine (setAssemble_versioned (iff_of_true (ha.mpr hx.2) fun h => absurd h hx.1)).bind
      fun _ _ => ?_
    refine Holds.bind (A := fun child => child.kind ≠ .join) (.lift fun child hc => ?_)
      fun child hc => ?_
    · exact relationChild_kind hc
    · refine (relationChildren_versioned hm hV relations
        fun r hr => h r (List.mem_cons_of_mem _ hr)).bind fun children hch => .pure ?_
      intro ch hmem
      rcases List.mem_cons.mp hmem with rfl | hmem
      · exact hc
      · exact hch ch hmem
theorem joinRelationSteps_versioned (hm : IntegerVersions P.m) (hV : V.m = P.m) :
    ∀ (joins : List Join) {s : Scope} {stepId : Nat} {asm : Assemble},
    (∀ j ∈ joins, Checked V j.query) →
    Holds (StepsVersioned P.m root) (P.joinRelationSteps s stepId asm joins)
      (SameVersions P.m asm)
  | [], _, _, asm, _ => .pure Iff.rfl
  | .mk rel kind q left right :: joins, s, stepId, asm, h => by
    refine (Holds.mapM (R := SameChild P.m) fun ch _ => ?_).bind fun children hch => ?_
    · split
      · refine Holds.bind (A := fun inner => ch.assemble = some inner)
          (.lift fun _ hi => present_ok.mp hi) fun inner hi => ?_
        refine (relationSteps_versioned hm hV q (h _ List.mem_cons_self)).bind fun inner' hin =>
          .pure ⟨rfl, ?_⟩
        simpa [hi, SameVersions] using hin
      · exact .pure ⟨rfl, Iff.rfl⟩
    · refine (joinRelationSteps_versioned hm hV joins fun j hj => h j (List.mem_cons_of_mem _ hj)).mono
        fun asm' ha => ha.trans ?_
      exact sameVersions_children hch
end

theorem appendRelations_versioned (hm : IntegerVersions P.m) (hV : V.m = P.m) {q : Query}
    (hq : Checked V q) (h : AllVersioned P.m asm ↔ root) :
    Holds (StepsVersioned P.m root) (P.appendRelations q 0 asm) fun _ => True := by
  refine (relationSteps_versioned hm hV q hq).bind fun asm' hsame => ?_
  exact setAssemble_versioned (by simpa using hsame.trans h)

/-- Every run from no steps ends in steps with the property. -/
def Yields (x : Steps PUnit) (A : List PlanStep → Prop) : Prop :=
  ∀ u steps, x [] = .ok (u, steps) → A steps

/-- The first step of a read that returns rows is versioned exactly when no grouped column is an
AES column; a read without rows has no assembly. -/
theorem readSteps_versioned (hm : IntegerVersions P.m) (hV : V.m = P.m) {r : Request}
    (hq : Checked V r.query) :
    Yields (P.readSteps r) fun steps =>
      StepsVersioned P.m (r.kind = .groupCount → GroupsPlain P.m r.query) steps ∨
        (r.kind ≠ .groupCount ∧ ∀ st ∈ steps, st.assemble = none) := by
  unfold Planner.readSteps
  split
  · rename_i hkind
    intro u steps h
    obtain ⟨⟨⟨id, asm⟩, steps₁⟩, hadd, h⟩ := ok_bind.mp h
    obtain ⟨rfl, hall, hsteps⟩ := addSelect_first hm hV hq hadd
    obtain ⟨⟨_, steps₂⟩, hcount, h⟩ := ok_bind.mp h
    have hcount' := (addSelect_versioned hm hV hq (by simp) "" none _ _ _ hcount hsteps).1
    have happend := appendRelations_versioned hm hV hq hall _ _ _ h hcount'
    simpa [hkind] using Or.inl happend.1
  · intro u steps h
    obtain ⟨⟨⟨id, asm⟩, steps₁⟩, hadd, h⟩ := ok_bind.mp h
    obtain ⟨rfl, hall, hsteps⟩ := addSelect_first hm hV hq hadd
    dsimp only at h
    split at h
    · rename_i hrows
      rw [if_pos hrows] at hsteps
      exact .inl (appendRelations_versioned hm hV hq hall _ _ _ h hsteps).1
    · rename_i hrows
      rw [if_neg hrows] at hsteps
      obtain rfl : _ = steps := by simpa [pure, StateT.pure, Except.pure] using h
      refine .inr ⟨?_, hsteps⟩
      rintro hkind
      simp [hkind, Planner.returnsRows] at hrows

/-- In the plan of a validated read, every assembly and every join child with an AES column has a
version column, exactly when the read does not count groups of an AES column. -/
theorem read_aes_versioned_iff {r : Request} {plan : Planner.Plan} (hm : IntegerVersions P.m)
    (hv : validate P.m r = .ok ⟨⟩) (hk : r.kind.isWrite = false) (hc : P.compile r = .ok plan) :
    (∀ st ∈ plan.steps, ∀ asm, st.assemble = some asm → AllVersioned P.m asm) ↔
      (r.kind = .groupCount → GroupsPlain P.m r.query) := by
  obtain ⟨⟨_, steps⟩, hsteps, hc⟩ := ok_bind.mp hc
  obtain rfl : _ = plan := by simpa [pure, Except.pure] using hc
  rw [requestSteps_read hk] at hsteps
  rcases readSteps_versioned hm rfl (validate_checked hv) _ _ hsteps with hall | ⟨hkind, hnone⟩
  · constructor
    · intro h
      obtain ⟨st, hst, hid, hsome⟩ := hall.first
      obtain ⟨asm, hasm⟩ := Option.isSome_iff_exists.mp hsome
      exact (hall.versions st hst asm hasm).mp (h st hst asm hasm) hid
    · intro h st hst asm hasm
      exact (hall.versions st hst asm hasm).mpr fun _ => h
  · refine iff_of_true (fun st hst asm hasm => ?_) fun h => absurd h hkind
    rw [hnone st hst] at hasm
    cases hasm

end Steps

/-- Members with an encrypted mail address. -/
def memberEntity : Entity :=
  { bookEntity with
    name := "member"
    table := "member"
    fields := [exampleColumn "id" .i64, exampleColumn "version" .i32,
      { exampleColumn "mail" .text with stages := [.aes] }]
    softDelete := ""
    aesVersion := "version" }

def memberPlanner : Planner := ⟨⟨"h", [("member", memberEntity)]⟩, .postgres, false⟩

/-- Reads the members, or counts them by a column. -/
def memberRequest (kind : Kind) (groupBy : Option (List String)) : Request :=
  { bookRequest kind .and with
    query := .mk { bookHead with entity := "member", groupBy } none none none [] []
    nParams := 0 }

theorem memberPlanner_versions : IntegerVersions memberPlanner.m := by
  intro name ent f hent hf
  by_cases hname : name = "member"
  · subst hname
    cases hent
    cases hf
    exact ⟨by decide, .inr (.inl rfl)⟩
  · have hbeq : (name == "member") = false := beq_false_of_ne hname
    simp [entityOf, memberPlanner, List.lookup, hbeq] at hent

theorem read_aes_versioned_members :
    validate memberPlanner.m (memberRequest .all none) = .ok ⟨⟩ ∧
      ∃ plan, memberPlanner.compile (memberRequest .all none) = .ok plan ∧
        ((∀ st ∈ plan.steps, ∀ asm, st.assemble = some asm → AllVersioned memberPlanner.m asm) ↔
          ((memberRequest .all none).kind = .groupCount →
            GroupsPlain memberPlanner.m (memberRequest .all none).query)) := by
  have hv : validate memberPlanner.m (memberRequest .all none) = .ok ⟨⟩ := rfl
  obtain ⟨plan, hc⟩ : ∃ plan, memberPlanner.compile (memberRequest .all none) = .ok plan :=
    exists_ok (by decide +kernel)
  exact ⟨hv, plan, hc, read_aes_versioned_iff memberPlanner_versions hv rfl hc⟩

/-- The members counted by their mail address are decoded without a version. -/
theorem members_by_mail_unversioned :
    validate memberPlanner.m (memberRequest .groupCount (some ["mail"])) = .ok ⟨⟩ ∧
      ∃ plan, memberPlanner.compile (memberRequest .groupCount (some ["mail"])) = .ok plan ∧
        ∃ st ∈ plan.steps, ∃ asm, st.assemble = some asm ∧ asm.aesVersion = none ∧
          ¬ Versioned memberPlanner.m asm := by
  refine ⟨rfl, _, rfl, _, List.mem_cons_self, _, rfl, rfl, fun h => ?_⟩
  obtain ⟨_, _, _, _, _, _, hversion, _⟩ := h ⟨_, List.mem_cons_self, by decide⟩
  cases hversion

end Orm.Engine
