import Orm.Engine.Write
import Orm.Logic.Holds

/-! Result rows become models: their codec cells are decoded, and a joined model is attached exactly
when the joined row exists, as long as the first projected column of the join is fit to tell. -/
namespace Orm.Engine

open Orm.Logic

section Rows
/-- A result row; a NULL cell is `none`. -/
abbrev Row (V : Type) := List (Option V)

/-- A model of a row: its cells by name, the models of its joins and the rows of its relations. -/
inductive Model (V : Type) where
  | mk (entity : String) (cells : List (String × Option (Option V)))
      (joins : List (String × Option (Model V))) (relations : List (String × List (Row V)))

variable {V : Type}

/-- The readers of codec cells: the host stages with the AES version cell of the row, the client
stages, and the styled value of a NULL cell. -/
structure Decoders (V : Type) where
  host : Option V → List Stage → V → Except Failure V
  client : List Stage → V → Except Failure V
  sqlNull : V

section Decode
variable (codecs : Decoders V)

/-- The client stages of a cell; a NULL cell becomes a styled value too. -/
def decode (styles : List Stage) : Option V → Except Failure V
  | none => .ok codecs.sqlNull
  | some cell => codecs.client styles cell

/-- The host stages of a cell that is not NULL. -/
def decodeHost (version : Option V) (styles : List Stage) : Option V → Except Failure (Option V)
  | none => .ok none
  | some cell => if styles = [] then .ok (some cell) else some <$> codecs.host version styles cell

def decodeClient (styles : List Stage) (value : Option V) : Except Failure (Option V) :=
  if styles = [] then .ok value else some <$> decode codecs styles value

/-- The stages of a column that the client runs. -/
def OutputColumn.client (c : OutputColumn) : List Stage := c.styles.filter fun s => !s.host

/-- Decodes the cell of a column in place. -/
def decodeColumn (version : Option V) (row : Row V) (column : OutputColumn) :
    Except Failure (Row V) :=
  match row[column.index]? with
  | none => .ok row
  | some value =>
    if column.styles = [] then .ok row
    else do
      let value ← decodeHost codecs version (column.styles.filter Stage.host) value
      let value ← decodeClient codecs column.client value
      .ok (row.set column.index value)

/-- The AES version cell of an assembly. -/
def versionCell (columns : List OutputColumn) (aesVersion : Option Nat) (row : Row V) :
    Except Failure (Option V) :=
  match aesVersion with
  | some i => do
    let column ← present columns[i]? "the AES version column of an assembly"
    match row[column.index]? with
    | none => fail .internal "the AES version cell of an assembly is missing from the row"
    | some cell => .ok cell
  | none =>
    if columns.any fun c => c.styles.contains .aes then
      fail .internal "an AES column of an assembly has no version column"
    else .ok none

mutual
/-- Decodes the codec columns of an assembly and of its joins, whose cells are on the same row. -/
def decodeAssembly : Assemble → Row V → Except Failure (Row V)
  | ⟨_, _, columns, children, _, aesVersion⟩, row => do
    let version ← versionCell columns aesVersion row
    let row ← columns.foldlM (decodeColumn codecs version) row
    decodeJoins children row
def decodeJoins : List Child → Row V → Except Failure (Row V)
  | [], row => .ok row
  | ⟨_, kind, _, _, _, _, _, _, asm⟩ :: children, row =>
    (if kind = .join then decodeJoined asm row else .ok row) >>= decodeJoins children
def decodeJoined : Option Assemble → Row V → Except Failure (Row V)
  | none, row => .ok row
  | some asm, row => decodeAssembly asm row
end

end Decode

/-- Whether the assembly of a join finds a joined row: its first column is not NULL. -/
def joinRow [DecidableEq V] (asm : Assemble) (row : Row V) : Option (Row V) :=
  match asm.columns.head? with
  | none => none
  | some first => if row[first.index]? = some none then none else some row

section Assembler
variable [DecidableEq V] (related : Child → Row V → List (Row V)) (row : Row V)

/-- The rows of the relations of a row. -/
def relatedRows (children : List Child) : List (String × List (Row V)) :=
  children.filterMap fun ch => if ch.kind = .join then none else some (ch.rel, related ch row)

mutual
/-- The model of a row. -/
def assembleModel : Assemble → Except Failure (Model V)
  | ⟨entity, _, columns, children, _, _⟩ => do
    let joins ← assembleJoins children
    pure (.mk entity (columns.map fun c => (c.name, row[c.index]?)) joins
      (relatedRows related row children))
termination_by structural asm => asm
def assembleJoins : List Child → Except Failure (List (String × Option (Model V)))
  | [] => pure []
  | ⟨rel, kind, _, _, _, _, _, _, asm⟩ :: children => do
    let rest ← assembleJoins children
    if kind = .join then do
      let value ← assembleJoined rel asm
      pure ((rel, value) :: rest)
    else pure rest
termination_by structural children => children
def assembleJoined (rel : String) : Option Assemble → Except Failure (Option (Model V))
  | none => .error (.plain s!"the assembly of join {rel} is missing")
  | some asm => match joinRow asm row with
    | none => pure none
    | some _ => do
      let m ← assembleModel asm
      pure (some m)
termination_by structural asm => asm
end

end Assembler

end Rows

/-- The output columns stand at consecutive places from `start` on. -/
def Indexed (start : Nat) (columns : List OutputColumn) : Prop :=
  ∀ i c, columns[i]? = some c → c.index = start + i

/-- The own columns of an assembly and of its joins at any depth, each with its version column. -/
abbrev Layer := List OutputColumn × Option Nat

mutual
def layers : Assemble → List Layer
  | ⟨_, _, columns, children, _, aesVersion⟩ => (columns, aesVersion) :: joinLayers children
def joinLayers : List Child → List Layer
  | [] => []
  | ⟨_, kind, _, _, _, _, _, _, asm⟩ :: children =>
    (if kind = .join then joinedLayers asm else []) ++ joinLayers children
def joinedLayers : Option Assemble → List Layer
  | none => []
  | some asm => layers asm
end

/-- All columns of an assembly and its joins. -/
def cells (ls : List Layer) : List OutputColumn := ls.flatMap Prod.fst

/-- A layer with an AES column has a version column. -/
def LayerVersioned (l : Layer) : Prop :=
  (l.2 = none ∧ ∀ c ∈ l.1, .aes ∉ c.styles) ∨ ∃ i c, l.2 = some i ∧ l.1[i]? = some c

/-- The columns of an assembly and its joins stand at places of their own, with their versions. -/
def Laid (ls : List Layer) : Prop :=
  (∃ start, Indexed start (cells ls)) ∧ ∀ l ∈ ls, LayerVersioned l

/-- The stages with which a column is read are those of its field that SQL leaves. -/
def Styled (P : Planner) (ent : Entity) (c : OutputColumn) : Prop :=
  ∃ f, fieldOf ent c.name = some f ∧ c.styles = P.clientStyles f.stages

/-- The assembly of the projection of a query: its own columns come first, and the key names the
places of the primary key. -/
structure Own (P : Planner) (q : Query) (extra : List String) (asm : Assemble) : Prop where
  own : ∃ ent start, entityOf P.m q.entity = some ent ∧ Indexed start asm.columns ∧
    (baseColumns ent q extra ≠ [] → ∀ c, asm.columns.head? = some c → Styled P ent c) ∧
    (baseColumns ent q extra).map (fun x => (x, x)) <+:
      asm.columns.map (fun c => (c.name, c.column)) ∧
    List.Forall₂ (fun column k => k.column = column ∧
      ∃ c, asm.columns.find? (·.name = column) = some c ∧ k.index = c.index) ent.primaryKey asm.key

/-- The join children of an assembly are made from the joins of a query. -/
inductive JoinsOf (P : Planner) : Query → Assemble → Prop where
  | mk {q : Query} {asm : Assemble}
    (join : ∀ ch ∈ asm.children, ch.kind = .join → Join)
    (inner : ∀ ch ∈ asm.children, ch.kind = .join → Assemble)
    (own : ∀ ch hch hk, join ch hch hk ∈ q.joins ∧ (join ch hch hk).rel = ch.rel ∧
      ch.assemble = some (inner ch hch hk) ∧ Own P (join ch hch hk).query [] (inner ch hch hk))
    (nested : ∀ ch hch hk, JoinsOf P (join ch hch hk).query (inner ch hch hk)) : JoinsOf P q asm

variable {P : Planner} {m : RuntimeModel} {s : Scope} {q : Query} {asm : Assemble}

/-- What a join child is made from. -/
def JoinOf (P : Planner) (q : Query) (ch : Child) : Prop :=
  ∃ j ∈ q.joins, ∃ a, j.rel = ch.rel ∧ ch.assemble = some a ∧ Own P j.query [] a ∧
    JoinsOf P j.query a

theorem joinsOf_iff :
    JoinsOf P q asm ↔ ∀ ch ∈ asm.children, ch.kind = .join → JoinOf P q ch := by
  constructor
  · rintro ⟨join, inner, own, nested⟩ ch hch hk
    obtain ⟨hj, hrel, ha, hown⟩ := own ch hch hk
    exact ⟨_, hj, _, hrel, ha, hown, nested ch hch hk⟩
  · intro h
    choose join hj inner hrel ha hown hnested using h
    exact ⟨join, inner, fun ch hch hk => ⟨hj ch hch hk, hrel ch hch hk, ha ch hch hk,
      hown ch hch hk⟩, hnested⟩

theorem layers_eq (asm : Assemble) :
    layers asm = (asm.columns, asm.aesVersion) :: joinLayers asm.children := by
  cases asm
  rfl

theorem joinLayers_cons (ch : Child) (children : List Child) :
    joinLayers (ch :: children) =
      (if ch.kind = .join then joinedLayers ch.assemble else []) ++ joinLayers children := by
  cases ch
  rfl

theorem joinLayers_append (children children' : List Child) :
    joinLayers (children ++ children') = joinLayers children ++ joinLayers children' := by
  induction children with
  | nil => rfl
  | cons ch children ih =>
    rw [List.cons_append, joinLayers_cons, joinLayers_cons, ih, List.append_assoc]

theorem joinLayers_relations {children : List Child} (h : ∀ ch ∈ children, ch.kind ≠ .join) :
    joinLayers children = [] := by
  induction children with
  | nil => rfl
  | cons ch children ih =>
    rw [joinLayers_cons, if_neg (h ch List.mem_cons_self),
      ih fun c hc => h c (List.mem_cons_of_mem _ hc)]
    rfl

/-- Whether an assembly has a join child. -/
def HasJoin (asm : Assemble) : Prop := ∃ ch ∈ asm.children, ch.kind = .join

/-- What the planner builds for a query: its join children are made from its joins, and the columns
of all are laid out side by side. -/
def Built (P : Planner) (q : Query) (asm : Assemble) : Prop :=
  JoinsOf P q asm ∧ (HasJoin asm → Laid (layers asm))

theorem built_of_children_nil (h : asm.children = []) : Built P q asm := by
  refine ⟨joinsOf_iff.mpr fun ch hch => ?_, ?_⟩
  · simp [h] at hch
  · rintro ⟨ch, hch, -⟩
    simp [h] at hch

section Select

theorem present_ok {α : Type} {value : Option α} {what : String} {a : α} :
    present value what = .ok a ↔ value = some a := by
  cases value <;> simp [present]

theorem selectColumn_spec {ent : Entity} (c : OutColumn) :
    Holds (fun _ => True) (P.selectColumn s ent c) fun x =>
      (.aes ∈ x.2.2 → Planner.isAes ent c = true) ∧ (c.fn = none → c.sub = none →
        ∃ f, fieldOf ent c.column = some f ∧ x.2.2 = P.clientStyles f.stages) := by
  have htrue {α : Type} (x : Build α) : Holds (fun _ => True) x fun _ => True :=
    fun _ _ _ _ _ => ⟨trivial, trivial⟩
  unfold Planner.selectColumn
  dsimp only
  split
  · rename_i fn _ hfn
    split
    · exact .lift fun _ h => by cases h
    · exact (htrue _).bind fun _ _ =>
        .pure ⟨fun h => absurd h List.not_mem_nil, fun h => absurd (hfn.symm.trans h) (by simp)⟩
  · rename_i hsub
    exact (htrue _).bind fun _ _ => (htrue _).bind fun _ _ =>
      .pure ⟨fun h => absurd h List.not_mem_nil,
        fun _ h => absurd (hsub.symm.trans h) (by simp)⟩
  · refine Holds.bind (A := fun own => c.column ≠ "" ∧ fieldOf ent c.column = some own)
      (.lift fun own h => ?_) fun own hown => .pure ⟨fun haes => ?_, fun _ _ => ⟨own, hown.2, rfl⟩⟩
    · have hsome := present_ok.mp h
      split at hsome
      · cases hsome
      · rename_i hne
        exact ⟨hne, hsome⟩
    · have hmem : .aes ∈ own.stages := List.mem_of_mem_take haes
      simp [Planner.isAes, hown.1, hown.2, hmem]

theorem selectColumns_spec {ent : Entity} (cols : List OutColumn) (idx : Nat) :
    Holds (fun _ => True) (P.selectColumns s ent idx cols) fun sel =>
      Indexed idx sel.columns ∧
        sel.columns.map (fun c => (c.name, c.column)) = (cols.map fun c => (c.name, c.column)) ∧
        (∀ c ∈ sel.columns, .aes ∈ c.styles → cols.any (Planner.isAes ent) = true) ∧
        sel.aesVersion = none ∧
        (∀ c, sel.columns.head? = some c → ∀ o, cols.head? = some o → o.fn = none → o.sub = none →
          ∃ f, fieldOf ent c.column = some f ∧ c.styles = P.clientStyles f.stages) := by
  induction cols generalizing idx with
  | nil => exact .pure ⟨by simp [Indexed], rfl, by simp, rfl, by simp⟩
  | cons c cols ih =>
    refine (selectColumn_spec c).bind fun x hx => ?_
    refine (ih (idx + 1)).bind fun rest hrest => .pure ⟨fun i c' hi => ?_, ?_, ?_, rfl, ?_⟩
    · cases i with
      | zero =>
        cases hi
        rfl
      | succ i =>
        rw [hrest.1 i c' hi]
        omega
    · simp [hrest.2.1]
    · intro c' hc' haes
      rw [List.any_cons, Bool.or_eq_true]
      rcases List.mem_cons.mp hc' with rfl | hc'
      · exact .inl (hx.1 haes)
      · exact .inr (hrest.2.2.1 c' hc' haes)
    · intro c' hc' o ho hfn hsub
      cases hc'
      cases ho
      exact hx.2 hfn hsub

theorem selectVersion_spec {ent : Entity} {idx : Nat} {sel sel' : Selected}
    (h : P.selectVersion s ent idx sel = .ok sel') (hi : Indexed idx sel.columns) :
    Indexed idx sel'.columns ∧ sel.columns <+: sel'.columns ∧
      ∃ i c, sel'.aesVersion = some i ∧ sel'.columns[i]? = some c := by
  unfold Planner.selectVersion at h
  split at h
  · cases h
  · split at h
    · rename_i chosen hchosen
      cases h
      obtain ⟨hlt, -⟩ := List.findIdx?_eq_some_iff_getElem.mp hchosen
      exact ⟨hi, List.prefix_rfl, chosen, _, rfl, List.getElem?_eq_getElem hlt⟩
    · cases h
      refine ⟨fun i c hc => ?_, List.prefix_append _ _, sel.columns.length, _, rfl,
        List.getElem?_concat_length⟩
      dsimp only at hc
      by_cases hlt : i < sel.columns.length
      · rw [List.getElem?_append_left hlt] at hc
        exact hi i c hc
      · rw [List.getElem?_append_right (by omega)] at hc
        have hzero : i - sel.columns.length = 0 := by
          have := (List.getElem?_eq_some_iff.mp hc).1
          simpa using this
        rw [hzero] at hc
        cases hc
        dsimp only
        omega

theorem projection_starts {ent : Entity} :
    (baseColumns ent s.q s.extra).map (fun x => (x, x)) <+:
      (projection ent s).map fun c => (c.name, c.column) := by
  unfold projection
  rw [List.map_append, List.map_map]
  exact List.prefix_append _ _

/-- The first column of the projection is the first base column, read with its own stages. -/
theorem projection_head {ent : Entity} (h : baseColumns ent s.q s.extra ≠ []) :
    ∃ o, (projection ent s).head? = some o ∧ o.fn = none ∧ o.sub = none := by
  obtain ⟨x, base, hbase⟩ := List.exists_cons_of_ne_nil h
  unfold projection
  rw [hbase]
  exact ⟨_, rfl, rfl, rfl⟩

theorem projection_own {ent : Entity} {columns : List OutputColumn} {c : OutputColumn}
    (h : baseColumns ent s.q s.extra ≠ [])
    (hbase : (baseColumns ent s.q s.extra).map (fun y => (y, y)) <+:
      columns.map fun c => (c.name, c.column)) (hc : columns.head? = some c) :
    c.column = c.name := by
  obtain ⟨x, base, hx⟩ := List.exists_cons_of_ne_nil h
  cases columns with
  | nil => cases hc
  | cons d columns =>
    cases hc
    simp only [hx, List.map_cons, List.cons_prefix_cons, Prod.mk.injEq] at hbase
    exact hbase.1.2.symm.trans hbase.1.1

theorem selectOwn_spec (idx : Nat) :
    Holds (fun _ => True) (P.selectOwn s idx) fun x => x.2.children = [] ∧
      x.2.columns = x.1.columns ∧ LayerVersioned (x.2.columns, x.2.aesVersion) ∧
      ∃ ent, entityOf P.m s.q.entity = some ent ∧ Indexed idx x.2.columns ∧
        (baseColumns ent s.q s.extra ≠ [] → ∀ c, x.2.columns.head? = some c → Styled P ent c) ∧
        (baseColumns ent s.q s.extra).map (fun y => (y, y)) <+:
          x.2.columns.map fun c => (c.name, c.column) := by
  refine Holds.bind (A := fun ent => entityOf P.m s.q.entity = some ent)
    (.lift fun _ h => present_ok.mp h) fun ent hent => ?_
  refine (selectColumns_spec (projection ent s) idx).bind fun sel hsel => ?_
  obtain ⟨hidx, hnames, haes, hversion, hhead⟩ := hsel
  have hfinish (sel' : Selected) (h : Indexed idx sel'.columns ∧ sel.columns <+: sel'.columns) :
      ∃ ent, entityOf P.m s.q.entity = some ent ∧ Indexed idx sel'.columns ∧
        (baseColumns ent s.q s.extra ≠ [] → ∀ c, sel'.columns.head? = some c → Styled P ent c) ∧
        (baseColumns ent s.q s.extra).map (fun y => (y, y)) <+:
          sel'.columns.map fun c => (c.name, c.column) := by
    have hbase : (baseColumns ent s.q s.extra).map (fun y => (y, y)) <+:
        sel.columns.map fun c => (c.name, c.column) := hnames ▸ projection_starts
    refine ⟨ent, hent, h.1, fun hne c hc => ?_, hbase.trans (h.2.map _)⟩
    -- The first column is the first one that the projection selects.
    have hcolumn := projection_own hne (hbase.trans (h.2.map _)) hc
    obtain ⟨o, ho, hfn, hsub⟩ := projection_head hne
    have hfirst : sel.columns.head? = some c := by
      cases hcols : sel.columns with
      | nil =>
        rw [hcols] at hnames
        have hnil : projection ent s = [] := List.map_eq_nil_iff.mp hnames.symm
        rw [hnil] at ho
        cases ho
      | cons d rest =>
        obtain ⟨more, hmore⟩ := h.2
        rw [hcols, List.cons_append] at hmore
        rw [← hmore] at hc
        exact hc
    obtain ⟨f, hf, hstyles⟩ := hhead c hfirst o ho hfn hsub
    exact ⟨f, hcolumn ▸ hf, hstyles⟩
  dsimp only
  split
  · refine Holds.bind (A := fun sel' => (∃ i c, sel'.aesVersion = some i ∧
        sel'.columns[i]? = some c) ∧ Indexed idx sel'.columns ∧ sel.columns <+: sel'.columns)
      (.lift fun sel' h => ?_) fun sel' h => .pure ⟨rfl, rfl, .inr h.1, hfinish sel' h.2⟩
    obtain ⟨hi, hpre, hv⟩ := selectVersion_spec h hidx
    exact ⟨hv, hi, hpre⟩
  · rename_i hany
    rw [pure_bind]
    exact .pure ⟨rfl, rfl, .inl ⟨hversion, fun c hc h => hany (haes c hc h)⟩,
      hfinish sel ⟨hidx, List.prefix_rfl⟩⟩

theorem keyRefs_spec {a : Assemble} {columns : List String} {key : List KeyReference}
    (h : keyRefs a columns = .ok key) :
    List.Forall₂ (fun column k => k.column = column ∧
      ∃ c, a.columns.find? (·.name = column) = some c ∧ k.index = c.index) columns key := by
  refine (ok_mapM h).imp fun column k hk => ?_
  obtain ⟨i, hi, hk⟩ := ok_bind.mp hk
  obtain rfl : ⟨column, i⟩ = k := by simpa [pure, Except.pure] using hk
  refine ⟨rfl, ?_⟩
  unfold indexOf at hi
  split at hi
  · rename_i c hc
    exact ⟨c, hc, by simpa [pure, Except.pure] using hi.symm⟩
  · cases hi

theorem Indexed.append {start : Nat} {l l' : List OutputColumn} (h : Indexed start l)
    (h' : Indexed (start + l.length) l') : Indexed start (l ++ l') := by
  intro i c hc
  by_cases hlt : i < l.length
  · rw [List.getElem?_append_left hlt] at hc
    exact h i c hc
  · rw [List.getElem?_append_right (by omega)] at hc
    have hindex := h' _ c hc
    omega

/-- The columns of layers stand at consecutive places from `start` up to `next`. -/
def Consecutive (start next : Nat) (ls : List Layer) : Prop :=
  Indexed start (cells ls) ∧ next = start + (cells ls).length ∧ ∀ l ∈ ls, LayerVersioned l

theorem Consecutive.append {start mid next : Nat} {ls ls' : List Layer}
    (h : Consecutive start mid ls) (h' : Consecutive mid next ls') :
    Consecutive start next (ls ++ ls') := by
  obtain ⟨hidx, rfl, hv⟩ := h
  obtain ⟨hidx', rfl, hv'⟩ := h'
  have hcells : cells (ls ++ ls') = cells ls ++ cells ls' := List.flatMap_append
  refine ⟨?_, ?_, fun l hl => (List.mem_append.mp hl).elim (hv l) (hv' l)⟩
  · rw [hcells]
    exact hidx.append hidx'
  · rw [hcells, List.length_append, Nat.add_assoc]

mutual
theorem selectList_spec : ∀ (q : Query) {s : Scope} (idx : Nat), s.q = q →
    Holds (fun _ => True) (P.selectList s idx q) fun x =>
      Own P q s.extra x.2.2.2 ∧ JoinsOf P q x.2.2.2 ∧
        Consecutive idx x.2.2.1 (layers x.2.2.2)
  | .mk head columns on where_ joins relations, s, idx, hs => by
    refine (selectOwn_spec idx).bind fun own hown => ?_
    obtain ⟨_, hcols, hversioned, ent, hent, hidx, hlead, hbase⟩ := hown
    refine (selectJoins_spec joins (q := s.q) _ (by rw [hs]; exact fun _ h => h)).bind
      fun nested hnested => ?_
    refine Holds.bind (A := fun ent' => ent' = ent) (.lift fun ent' h => ?_) fun ent' he => ?_
    · have := present_ok.mp h
      rw [hent] at this
      exact (Option.some.inj this).symm
    subst he
    refine Holds.bind (.lift fun key hkey => keyRefs_spec hkey) fun key hkey => .pure ⟨?_, ?_, ?_⟩
    · rw [← hs]
      exact ⟨ent', _, hent, hidx, hlead, hbase, hkey⟩
    · rw [← hs]
      exact joinsOf_iff.mpr fun ch hch _ => hnested.1 ch hch
    · have hown : Consecutive idx (idx + own.1.columns.length)
          [(own.2.columns, own.2.aesVersion)] := by
        have hcells : cells [(own.2.columns, own.2.aesVersion)] = own.2.columns := by simp [cells]
        refine ⟨?_, by rw [hcells, hcols], fun l hl => List.mem_singleton.mp hl ▸ hversioned⟩
        rw [hcells]
        exact hidx
      exact hown.append hnested.2
theorem selectJoins_spec : ∀ (joins : List Join) {s : Scope} {q : Query} (idx : Nat),
    (∀ j ∈ joins, j ∈ q.joins) →
    Holds (fun _ => True) (P.selectJoins s idx joins) fun x => (∀ ch ∈ x.2.2.2, JoinOf P q ch) ∧
      Consecutive idx x.2.2.1 (joinLayers x.2.2.2)
  | [], _, _, idx, _ => by
    refine .pure ⟨fun ch hch => absurd hch List.not_mem_nil, ?_, rfl, ?_⟩
    · intro i c hc
      cases hc
    · intro l hl
      cases hl
  | .mk rel kind jq left right :: joins, s, q, idx, h => by
    refine (selectList_spec jq (s := joinScope s (.mk rel kind jq left right)) idx rfl).bind
      fun own hown => ?_
    refine (selectJoins_spec joins (q := q) _ fun j hj => h j (List.mem_cons_of_mem _ hj)).bind
      fun rest hrest => .pure ⟨fun ch hch => ?_, ?_⟩
    · rcases List.mem_cons.mp hch with rfl | hch
      · exact ⟨_, h _ List.mem_cons_self, _, rfl, rfl, hown.1, hown.2.1⟩
      · exact hrest.1 ch hch
    · exact hown.2.2.append hrest.2
end

theorem selectHead_spec {ent : Entity} (kind : Kind) (agg : String) :
    Holds (fun _ => True) (P.selectHead s ent kind agg) fun x => Built P s.q x.2.2 := by
  unfold Planner.selectHead
  split
  · exact .pure (built_of_children_nil rfl)
  · exact .pure (built_of_children_nil rfl)
  · exact .pure (built_of_children_nil rfl)
  · refine Holds.bind (A := fun x => x.2.2.children = []) (.lift fun x hx => ?_) fun x hx =>
      .pure (built_of_children_nil hx)
    obtain ⟨cols, _, hx⟩ := ok_bind.mp hx
    obtain ⟨key, _, hx⟩ := ok_bind.mp hx
    obtain rfl : _ = x := by simpa [pure, Except.pure] using hx
    rfl
  · refine (selectList_spec s.q 0 rfl).bind fun x hx => ?_
    refine Holds.bind (A := fun _ => True) (.lift fun _ _ => trivial) fun key _ => .pure ?_
    have hjoins := joinsOf_iff.mp hx.2.1
    refine ⟨joinsOf_iff.mpr fun ch hch hk => hjoins ch hch hk, fun _ => ?_⟩
    obtain ⟨hidx, -, hversioned⟩ := hx.2.2
    rw [layers_eq] at hidx hversioned
    rw [layers_eq]
    exact ⟨⟨0, hidx⟩, hversioned⟩

theorem selectText_spec (q : Query) (kind : Kind) (agg : String) (rc : Option RelationContext) :
    Holds (fun _ => True) (P.selectText q kind agg rc) fun x => Built P q x.2 := by
  have htrue {α : Type} (x : Build α) : Holds (fun _ => True) x fun _ => True :=
    fun _ _ _ _ _ => ⟨trivial, trivial⟩
  have hq : (Planner.selectRoot q rc).q = q := by cases rc <;> rfl
  unfold Planner.selectText
  refine (htrue _).bind fun _ _ => (htrue _).bind fun ent _ => ?_
  refine (selectHead_spec kind agg).bind fun x hx => ?_
  rw [hq] at hx
  refine (htrue _).bind fun _ _ => (htrue _).bind fun _ _ => (htrue _).bind fun _ _ => ?_
  refine (htrue _).bind fun _ _ => (htrue _).bind fun _ _ => ?_
  exact .pure hx

end Select

section Steps

/-- The queries that get a step of their own: the root and the relations, also of joins. -/
inductive StepQuery (root : Query) : Query → Prop where
  | root : StepQuery root root
  | join {q : Query} {j : Join} (h : StepQuery root q) (hj : j ∈ q.joins) : StepQuery root j.query
  | relation {q : Query} {r : Relation} (h : StepQuery root q) (hr : r ∈ q.relations) :
    StepQuery root r.query

/-- The assemblies of the steps are made from queries of the request. -/
def StepsJoined (P : Planner) (root : Query) (steps : List PlanStep) : Prop :=
  ∀ st ∈ steps, ∀ asm, st.assemble = some asm → ∃ q, StepQuery root q ∧ Built P q asm

variable {root : Query}

theorem addSelect_joined (hq : StepQuery root q) (kind : Kind) (agg : String)
    (rc : Option (RelationContext × Assemble)) :
    Holds (StepsJoined P root) (P.addSelect q kind agg rc) fun x => Built P q x.2 := by
  intro steps x steps' hr hs
  obtain ⟨⟨⟨sql, asm⟩, b⟩, htext, hr⟩ := ok_bind.mp hr
  have hasm := (selectText_spec q kind agg _ _ _ _ htext trivial).2
  obtain ⟨parent, _, hr⟩ := ok_bind.mp hr
  obtain ⟨rfl, rfl⟩ : _ = x ∧ _ = steps' := by simpa [pure, Except.pure] using hr
  refine ⟨fun st hst a ha => ?_, hasm⟩
  rcases List.mem_append.mp hst with hst | hst
  · exact hs st hst a ha
  · rw [List.mem_singleton.mp hst] at ha
    refine ⟨q, hq, ?_⟩
    cases hrows : Planner.returnsRows kind <;> simp [hrows] at ha
    exact ha ▸ hasm

theorem setAssemble_joined (id : Nat) (hq : StepQuery root q) (ha : Built P q asm) :
    Holds (StepsJoined P root) (setAssemble id asm) fun _ => True := by
  intro steps x steps' hr hs
  obtain rfl : _ = steps' := by simpa [setAssemble, pure, Except.pure] using hr
  refine ⟨fun st hst a hsome => ?_, trivial⟩
  obtain ⟨st', hst', rfl⟩ := List.mem_map.mp hst
  split at hsome
  · cases hsome
    exact ⟨q, hq, ha⟩
  · exact hs st' hst' a hsome

/-- The children of an assembly change, its columns and its key do not. -/
def SameOwn (asm asm' : Assemble) : Prop := asm'.columns = asm.columns ∧ asm'.key = asm.key

theorem Own.same {extra : List String} {asm' : Assemble} (h : Own P q extra asm)
    (hs : SameOwn asm asm') : Own P q extra asm' := by
  obtain ⟨ent, start, hent, hidx, hlead, hbase, hkey⟩ := h
  refine ⟨ent, start, hent, ?_, ?_, ?_, ?_⟩
  · rw [hs.1]
    exact hidx
  · rw [hs.1]
    exact hlead
  · rw [hs.1]
    exact hbase
  · rw [hs.1, hs.2]
    exact hkey

/-- What the relation steps of a query do to an assembly: the joins stay joins of their query, with
their columns where they are. -/
structure KeepsJoins (P : Planner) (asm asm' : Assemble) : Prop where
  same : SameOwn asm asm'
  layers : layers asm' = layers asm
  hasJoin : HasJoin asm' → HasJoin asm
  joinsOf : ∀ q, JoinsOf P q asm → JoinsOf P q asm'

theorem KeepsJoins.refl (asm : Assemble) : KeepsJoins P asm asm :=
  ⟨⟨rfl, rfl⟩, rfl, id, fun _ => id⟩

theorem KeepsJoins.trans {a b c : Assemble} (h : KeepsJoins P a b) (h' : KeepsJoins P b c) :
    KeepsJoins P a c :=
  ⟨⟨h'.same.1.trans h.same.1, h'.same.2.trans h.same.2⟩, h'.layers.trans h.layers,
    fun hj => h.hasJoin (h'.hasJoin hj), fun q hq => h'.joinsOf q (h.joinsOf q hq)⟩

theorem KeepsJoins.built {asm' : Assemble} (h : KeepsJoins P asm asm') (hb : Built P q asm) :
    Built P q asm' :=
  ⟨h.joinsOf q hb.1, fun hj => h.layers ▸ hb.2 (h.hasJoin hj)⟩

/-- Children that are no joins leave the joins as they are. -/
theorem keepsJoins_append {children : List Child} (h : ∀ ch ∈ children, ch.kind ≠ .join) :
    KeepsJoins P asm { asm with children := asm.children ++ children } := by
  have hmem : ∀ ch ∈ asm.children ++ children, ch.kind = .join → ch ∈ asm.children := by
    intro ch hch hk
    rcases List.mem_append.mp hch with hch | hch
    · exact hch
    · exact absurd hk (h ch hch)
  refine ⟨⟨rfl, rfl⟩, ?_, ?_, fun q hq => joinsOf_iff.mpr fun ch hch hk => ?_⟩
  · rw [layers_eq, layers_eq asm]
    change _ :: joinLayers (asm.children ++ children) = _
    rw [joinLayers_append, joinLayers_relations h, List.append_nil]
  · rintro ⟨ch, hch, hk⟩
    exact ⟨ch, hmem ch hch hk, hk⟩
  · exact joinsOf_iff.mp hq ch (hmem ch hch hk) hk

/-- One child of an assembly after the relation steps of its join. -/
structure KeepsChild (P : Planner) (ch ch' : Child) : Prop where
  kind : ch'.kind = ch.kind
  layers : ch.kind = .join → joinedLayers ch'.assemble = joinedLayers ch.assemble
  joinOf : ∀ q, ch.kind = .join → JoinOf P q ch → JoinOf P q ch'

theorem keepsJoins_children {children : List Child}
    (h : List.Forall₂ (KeepsChild P) asm.children children) :
    KeepsJoins P asm { asm with children := children } := by
  have hmem : ∀ ch' ∈ children, ∃ ch ∈ asm.children, KeepsChild P ch ch' := by
    intro ch' hch'
    obtain ⟨i, hi, rfl⟩ := List.mem_iff_getElem.mp hch'
    have hlen := h.length_eq
    exact ⟨_, List.getElem_mem (by omega), h.get (by omega) hi⟩
  refine ⟨⟨rfl, rfl⟩, ?_, ?_, fun q hq => joinsOf_iff.mpr fun ch' hch' hk => ?_⟩
  · rw [layers_eq, layers_eq asm]
    change _ :: joinLayers children = _
    congr 1
    clear hmem
    generalize asm.children = old at h
    induction h with
    | nil => rfl
    | cons hch _ ih =>
      rw [joinLayers_cons, joinLayers_cons, ih, hch.kind]
      split
      · rename_i hk
        rw [hch.layers hk]
      · rfl
  · rintro ⟨ch', hch', hk⟩
    obtain ⟨ch, hch, hkeeps⟩ := hmem ch' hch'
    exact ⟨ch, hch, hkeeps.kind ▸ hk⟩
  · obtain ⟨ch, hch, hkeeps⟩ := hmem ch' hch'
    have hk' : ch.kind = .join := hkeeps.kind ▸ hk
    exact hkeeps.joinOf q hk' (joinsOf_iff.mp hq ch hch hk')

mutual
theorem relationSteps_joined : ∀ (q : Query) {s : Scope} {stepId : Nat} {asm : Assemble},
    StepQuery root q →
    Holds (StepsJoined P root) (P.relationSteps s stepId asm q) (KeepsJoins P asm)
  | .mk head columns on where_ joins relations, s, stepId, asm, hq => by
    refine (relationChildren_joined relations (fun r hr => .relation hq hr)).bind
      fun children hch => ?_
    exact (joinRelationSteps_joined joins (fun j hj => .join hq hj)).mono fun asm' h =>
      (keepsJoins_append hch).trans h
theorem relationChildren_joined : ∀ (relations : List Relation) {s : Scope} {stepId : Nat}
    {asm : Assemble}, (∀ r ∈ relations, StepQuery root r.query) →
    Holds (StepsJoined P root) (P.relationChildren s stepId asm relations)
      fun children => ∀ ch ∈ children, ch.kind ≠ .join
  | [], _, _, _, _ => .pure fun ch hch => by cases hch
  | .mk rel q kind keys :: relations, s, stepId, asm, h => by
    have hq : StepQuery root q := h _ List.mem_cons_self
    refine (addSelect_joined hq .all "" _).bind fun x hx => ?_
    refine (relationSteps_joined q hq).bind fun assembled ha => ?_
    refine (setAssemble_joined _ hq (ha.built hx)).bind fun _ _ => ?_
    refine Holds.bind (A := fun child => child.kind ≠ .join) (.lift fun child hc => ?_)
      fun child hc => ?_
    · unfold Planner.relationChild at hc
      obtain ⟨_, _, hc⟩ := ok_bind.mp hc
      obtain ⟨_, _, hc⟩ := ok_bind.mp hc
      obtain ⟨_, _, hc⟩ := ok_bind.mp hc
      obtain ⟨_, _, hc⟩ := ok_bind.mp hc
      obtain ⟨_, _, hc⟩ := ok_bind.mp hc
      obtain ⟨_, _, hc⟩ := ok_bind.mp hc
      obtain rfl : _ = child := by simpa [pure, Except.pure] using hc
      simp
    · refine (relationChildren_joined relations
        fun r hr => h r (List.mem_cons_of_mem _ hr)).bind fun children hch => .pure ?_
      intro ch hmem
      rcases List.mem_cons.mp hmem with rfl | hmem
      · exact hc
      · exact hch ch hmem
theorem joinRelationSteps_joined : ∀ (joins : List Join) {s : Scope} {stepId : Nat}
    {asm : Assemble}, (∀ j ∈ joins, StepQuery root j.query) →
    Holds (StepsJoined P root) (P.joinRelationSteps s stepId asm joins) (KeepsJoins P asm)
  | [], _, _, asm, _ => .pure (.refl asm)
  | .mk rel kind q left right :: joins, s, stepId, asm, h => by
    refine (Holds.mapM (R := KeepsChild P) fun ch _ => ?_).bind fun children hch => ?_
    · split
      · refine Holds.bind (A := fun inner => ch.assemble = some inner)
          (.lift fun _ hi => present_ok.mp hi) fun inner hi => ?_
        refine (relationSteps_joined q (h _ List.mem_cons_self)).bind fun inner' hin =>
          .pure ⟨rfl, fun _ => ?_, ?_⟩
        · rw [hi]
          exact hin.layers
        · rintro q _ ⟨j, hj, a, hrel, ha, hown, hnested⟩
          obtain rfl : inner = a := Option.some.inj (hi.symm.trans ha)
          exact ⟨j, hj, inner', hrel, rfl, hown.same hin.same, hin.joinsOf _ hnested⟩
      · exact .pure ⟨rfl, fun _ => rfl, fun _ _ h => h⟩
    · exact (joinRelationSteps_joined joins fun j hj => h j (List.mem_cons_of_mem _ hj)).mono
        fun asm' ha => (keepsJoins_children hch).trans ha
end

theorem readSteps_joined (r : Request) :
    Holds (StepsJoined P r.query) (P.readSteps r) fun _ => True := by
  have happend (id : Nat) (asm : Assemble) (ha : Built P r.query asm) :
      Holds (StepsJoined P r.query) (P.appendRelations r.query id asm) fun _ => True :=
    (relationSteps_joined r.query .root).bind fun asm' h =>
      setAssemble_joined _ .root (h.built ha)
  unfold Planner.readSteps
  split
  · refine (addSelect_joined .root _ _ _).bind fun x hx => ?_
    refine (addSelect_joined .root _ _ _).bind fun _ _ => happend _ _ hx
  · refine (addSelect_joined .root _ _ _).bind fun x hx => ?_
    dsimp only
    split
    · exact happend _ _ hx
    · exact .pure trivial

theorem compile_joined {r : Request} {plan : Planner.Plan} (hk : r.kind.isWrite = false)
    (hc : P.compile r = .ok plan) : StepsJoined P r.query plan.steps := by
  obtain ⟨⟨_, steps⟩, hsteps, hc⟩ := ok_bind.mp hc
  obtain rfl : _ = plan := by simpa [pure, Except.pure] using hc
  rw [requestSteps_read hk] at hsteps
  exact (readSteps_joined r _ _ _ hsteps fun _ h => by cases h).1

end Steps

section Decoded
variable {V : Type} {codecs : Decoders V} {row row' : Row V} {ls : List Layer}

theorem foldlM_rel {α β ε : Type} {T : α → α → Prop} (hrefl : ∀ a, T a a)
    (htrans : ∀ a b c, T a b → T b c → T a c) {f : α → β → Except ε α} {l : List β}
    (hstep : ∀ x ∈ l, ∀ a a', f a x = .ok a' → T a a') {a a' : α}
    (h : l.foldlM f a = .ok a') : T a a' := by
  induction l generalizing a with
  | nil =>
    cases h
    exact hrefl _
  | cons x l ih =>
    rw [List.foldlM_cons] at h
    obtain ⟨b, hb, h⟩ := ok_bind.mp h
    exact htrans _ _ _ (hstep x List.mem_cons_self a b hb)
      (ih (fun y hy => hstep y (List.mem_cons_of_mem _ hy)) h)

/-- A fold that ends has made the step of each entry, between a start and an end. -/
theorem foldlM_visits {α β ε : Type} {f : α → β → Except ε α} {l : List β} {x : β} (hx : x ∈ l)
    {a a' : α} (h : l.foldlM f a = .ok a') :
    ∃ pre post b b', l = pre ++ x :: post ∧ pre.foldlM f a = .ok b ∧ f b x = .ok b' ∧
      post.foldlM f b' = .ok a' := by
  obtain ⟨pre, post, rfl⟩ := List.append_of_mem hx
  rw [List.foldlM_append] at h
  obtain ⟨b, hb, h⟩ := ok_bind.mp h
  rw [List.foldlM_cons] at h
  obtain ⟨b', hb', h⟩ := ok_bind.mp h
  exact ⟨pre, post, b, b', rfl, hb, hb', h⟩

variable (codecs) in
/-- The columns of one assembly. -/
def decodeLayer (row : Row V) (l : Layer) : Except Failure (Row V) := do
  let version ← versionCell l.1 l.2 row
  l.1.foldlM (decodeColumn codecs version) row

mutual
/-- An assembly is decoded layer by layer. -/
theorem decodeAssembly_eq : ∀ (asm : Assemble) (row : Row V),
    decodeAssembly codecs asm row = (layers asm).foldlM (decodeLayer codecs) row
  | ⟨_, _, columns, children, _, aesVersion⟩, row => by
    rw [decodeAssembly, layers, List.foldlM_cons, decodeLayer]
    simp only [bind_assoc]
    congr 1
    funext version
    congr 1
    funext mid
    exact decodeJoins_eq children mid
theorem decodeJoins_eq : ∀ (children : List Child) (row : Row V),
    decodeJoins codecs children row = (joinLayers children).foldlM (decodeLayer codecs) row
  | [], row => rfl
  | ⟨_, kind, _, _, _, _, _, _, asm⟩ :: children, row => by
    rw [decodeJoins, joinLayers, List.foldlM_append]
    have hrest : decodeJoins codecs children =
        fun mid => (joinLayers children).foldlM (decodeLayer codecs) mid :=
      funext fun mid => decodeJoins_eq children mid
    rw [hrest]
    split
    · rw [decodeJoined_eq asm row]
    · rfl
theorem decodeJoined_eq : ∀ (asm : Option Assemble) (row : Row V),
    decodeJoined codecs asm row = (joinedLayers asm).foldlM (decodeLayer codecs) row
  | none, _ => rfl
  | some asm, row => decodeAssembly_eq asm row
end

theorem decodeHost_none {version : Option V} {styles : List Stage} {value value' : Option V}
    (h : decodeHost codecs version styles value = .ok value') : value' = none ↔ value = none := by
  cases value with
  | none =>
    cases h
    simp
  | some v =>
    rw [decodeHost] at h
    split at h
    · cases h
      simp
    · rw [map_eq_pure_bind] at h
      obtain ⟨w, -, h⟩ := ok_bind.mp h
      cases h
      simp

theorem decodeClient_none {styles : List Stage} {value value' : Option V}
    (h : decodeClient codecs styles value = .ok value') :
    value' = none ↔ value = none ∧ styles = [] := by
  unfold decodeClient at h
  split at h
  · rename_i hnil
    cases h
    simp [hnil]
  · rename_i hne
    rw [map_eq_pure_bind] at h
    obtain ⟨w, -, h⟩ := ok_bind.mp h
    cases h
    simp [hne]

/-- A decoded column keeps the other cells, and its own is NULL just when it was and no client stage
reads it. -/
theorem decodeColumn_spec {version : Option V} {c : OutputColumn}
    (h : decodeColumn codecs version row c = .ok row') :
    row'.length = row.length ∧ (∀ i : Nat, i ≠ c.index → row'[i]? = row[i]?) ∧
      (row'[c.index]? = some none ↔ row[c.index]? = some none ∧ c.client = []) := by
  unfold decodeColumn at h
  split at h
  · rename_i hnone
    cases h
    exact ⟨rfl, fun _ _ => rfl, by simp [hnone]⟩
  · rename_i value hvalue
    split at h
    · rename_i hstyles
      cases h
      exact ⟨rfl, fun _ _ => rfl, by simp [OutputColumn.client, hstyles]⟩
    · obtain ⟨mid, hmid, h⟩ := ok_bind.mp h
      obtain ⟨value', hvalue', h⟩ := ok_bind.mp h
      cases h
      have hlt := (List.getElem?_eq_some_iff.mp hvalue).1
      refine ⟨List.length_set, fun i hi => List.getElem?_set_ne (Ne.symm hi), ?_⟩
      rw [List.getElem?_set_self hlt, hvalue, Option.some_inj, Option.some_inj,
        decodeClient_none hvalue', decodeHost_none hmid]

/-- Decoding makes no cell NULL. -/
def Kept (row row' : Row V) : Prop :=
  row'.length = row.length ∧ ∀ i : Nat, row'[i]? = some none → row[i]? = some none

theorem kept_columns {version : Option V} {columns : List OutputColumn}
    (h : columns.foldlM (decodeColumn codecs version) row = .ok row') : Kept row row' := by
  refine foldlM_rel (T := Kept) (fun _ => ⟨rfl, fun _ => id⟩) ?_ (fun c _ a a' hstep => ?_) h
  · intro a b c hab hbc
    exact ⟨hbc.1.trans hab.1, fun i hi => hab.2 i (hbc.2 i hi)⟩
  · obtain ⟨hlength, hother, hown⟩ := decodeColumn_spec hstep
    refine ⟨hlength, fun i hi => ?_⟩
    by_cases hic : i = c.index
    · subst hic
      exact (hown.mp hi).1
    · rwa [hother i hic] at hi

theorem kept_layers (h : ls.foldlM (decodeLayer codecs) row = .ok row') : Kept row row' := by
  refine foldlM_rel (T := Kept) (fun _ => ⟨rfl, fun _ => id⟩) ?_ (fun l _ a a' hstep => ?_) h
  · intro a b c hab hbc
    exact ⟨hbc.1.trans hab.1, fun i hi => hab.2 i (hbc.2 i hi)⟩
  · obtain ⟨version, -, hstep⟩ := ok_bind.mp hstep
    exact kept_columns hstep

/-- A NULL cell that no client stage reads stays NULL. -/
theorem null_layers {i : Nat} (hclient : ∀ c ∈ cells ls, c.index = i → c.client = [])
    (h : ls.foldlM (decodeLayer codecs) row = .ok row') (hnull : row[i]? = some none) :
    row'[i]? = some none := by
  refine foldlM_rel (T := fun a a' : Row V => a[i]? = some none → a'[i]? = some none)
    (fun _ => id) (fun _ _ _ hab hbc ha => hbc (hab ha)) (fun l hl a a' hstep => ?_) h hnull
  obtain ⟨version, -, hstep⟩ := ok_bind.mp hstep
  refine foldlM_rel (T := fun a a' : Row V => a[i]? = some none → a'[i]? = some none)
    (fun _ => id) (fun _ _ _ hab hbc ha => hbc (hab ha)) (fun c hc a a' hcell hai => ?_) hstep
  obtain ⟨-, hother, hown⟩ := decodeColumn_spec hcell
  by_cases hic : i = c.index
  · subst hic
    exact hown.mpr ⟨hai, hclient c (List.mem_flatMap.mpr ⟨l, hl, hc⟩) rfl⟩
  · rwa [hother i hic]

/-- A cell that a client stage reads is not NULL afterwards. -/
theorem client_layers {c : OutputColumn} (hc : c ∈ cells ls) (hclient : c.client ≠ [])
    (h : ls.foldlM (decodeLayer codecs) row = .ok row') : row'[c.index]? ≠ some none := by
  intro hnull
  obtain ⟨l, hl, hcl⟩ := List.mem_flatMap.mp hc
  obtain ⟨pre, post, b, b', -, -, hlayer, hpost⟩ := foldlM_visits hl h
  obtain ⟨version, -, hlayer⟩ := ok_bind.mp hlayer
  obtain ⟨pre', post', d, d', -, -, hcell, hrest⟩ := foldlM_visits hcl hlayer
  have hd' := (kept_columns hrest).2 _ ((kept_layers hpost).2 _ hnull)
  exact hclient ((decodeColumn_spec hcell).2.2.mp hd').2

/-- Decoders that read every cell as it is. -/
def plainDecoders [Inhabited V] : Decoders V := ⟨fun _ _ v => .ok v, fun _ v => .ok v, default⟩

theorem decodeColumn_plain [Inhabited V] (version : Option V) (row : Row V) (c : OutputColumn) :
    ∃ row', decodeColumn plainDecoders version row c = .ok row' := by
  unfold decodeColumn
  split
  · exact ⟨_, rfl⟩
  · rename_i value _
    split
    · exact ⟨_, rfl⟩
    · have hhost : ∃ mid, decodeHost plainDecoders version (c.styles.filter Stage.host) value =
          .ok mid := by
        cases value with
        | none => exact ⟨_, rfl⟩
        | some v =>
          rw [decodeHost]
          split <;> exact ⟨_, rfl⟩
      obtain ⟨mid, hmid⟩ := hhost
      have hclient : ∃ out, decodeClient plainDecoders c.client mid = .ok out := by
        unfold decodeClient
        split
        · exact ⟨_, rfl⟩
        · cases mid <;> exact ⟨_, rfl⟩
      obtain ⟨out, hout⟩ := hclient
      exact ⟨_, ok_bind.mpr ⟨mid, hmid, ok_bind.mpr ⟨out, hout, rfl⟩⟩⟩

/-- A row with a cell for every column is decoded. -/
theorem layers_plain [Inhabited V] (hversioned : ∀ l ∈ ls, LayerVersioned l) (row : Row V)
    (hrow : ∀ c ∈ cells ls, c.index < row.length) :
    ∃ row', ls.foldlM (decodeLayer plainDecoders) row = .ok row' := by
  induction ls generalizing row with
  | nil => exact ⟨row, rfl⟩
  | cons l ls ih =>
    have hversion : ∃ version, versionCell l.1 l.2 row = .ok version := by
      rcases hversioned l List.mem_cons_self with ⟨hnone, haes⟩ | ⟨i, c, hsome, hc⟩
      · refine ⟨none, ?_⟩
        unfold versionCell
        rw [hnone]
        simp only [List.any_eq_true, List.contains_iff_mem]
        exact if_neg fun ⟨c, hc, h⟩ => haes c hc h
      · have hlt := hrow c (List.mem_flatMap.mpr ⟨l, List.mem_cons_self, List.mem_of_getElem? hc⟩)
        refine ⟨row.get ⟨c.index, hlt⟩, ?_⟩
        unfold versionCell
        rw [hsome]
        refine ok_bind.mpr ⟨c, present_ok.mpr hc, ?_⟩
        rw [List.getElem?_eq_getElem hlt]
        rfl
    obtain ⟨version, hversion⟩ := hversion
    have hcolumns (columns : List OutputColumn) (row : Row V) :
        ∃ mid, columns.foldlM (decodeColumn plainDecoders version) row = .ok mid := by
      induction columns generalizing row with
      | nil => exact ⟨row, rfl⟩
      | cons c columns ih =>
        obtain ⟨next, hnext⟩ := decodeColumn_plain version row c
        obtain ⟨mid, hmid⟩ := ih next
        exact ⟨mid, by rw [List.foldlM_cons]; exact ok_bind.mpr ⟨next, hnext, hmid⟩⟩
    obtain ⟨mid, hmid⟩ := hcolumns l.1 row
    obtain ⟨row', hrow'⟩ := ih (fun l' hl' => hversioned l' (List.mem_cons_of_mem _ hl')) mid
      fun c hc => by
        rw [(kept_columns hmid).1]
        obtain ⟨l', hl', hcl⟩ := List.mem_flatMap.mp hc
        exact hrow c (List.mem_flatMap.mpr ⟨l', List.mem_cons_of_mem _ hl', hcl⟩)
    refine ⟨row', ?_⟩
    rw [List.foldlM_cons]
    exact ok_bind.mpr ⟨mid, ok_bind.mpr ⟨version, hversion, hmid⟩, hrow'⟩

end Decoded

section Attached
variable {V : Type} {ent : Entity} {row : Row V}

/-- Whether a column is never NULL in a row of the table. -/
def NeverNull (ent : Entity) (column : String) : Prop :=
  column ∈ ent.primaryKey ∨ ∃ f, fieldOf ent column = some f ∧ f.nullable = false

/-- The cells of a join in a result row: those of a row of its table or, for a left join, NULL in
all its columns. -/
inductive JoinCells (kind : JoinKind) (ent : Entity) (asm : Assemble) (row : Row V) : Prop where
  | joined (filled : ∀ c ∈ asm.columns, c.index < row.length)
    (table : ∀ c ∈ asm.columns, c.column = c.name → NeverNull ent c.name →
      row[c.index]? ≠ some none)
  | unjoined (outer : kind = .left)
    (null : ∀ c ∈ asm.columns, c.column = c.name → row[c.index]? = some none)

/-- The joined row exists: its primary key is not NULL. -/
def KeyPresent (asm : Assemble) (row : Row V) : Prop :=
  ∀ k ∈ asm.key, ∃ v, row[k.index]? = some (some v)

/-- Whether the client runs a stage of a column after SQL has read it. -/
def ClientRead (P : Planner) (ent : Entity) (column : String) : Prop :=
  ∃ f, fieldOf ent column = some f ∧ ∃ stage ∈ P.clientStyles f.stages, stage.host = false

/-- The first column that a join selects tells whether the joined row exists: for a left join it is
never NULL in a row of the table and no client stage makes a value of its NULL; for an inner join
one of the two is enough for a value to be there. -/
def LeadTells (P : Planner) (ent : Entity) (j : Join) : Prop :=
  ∀ x, (baseColumns ent j.query []).head? = some x →
    if j.kind = .left then NeverNull ent x ∧ ¬ ClientRead P ent x
    else NeverNull ent x ∨ ClientRead P ent x

theorem mem_pushFront (pks base : List String) (x : String) (hx : x ∈ pks ∨ x ∈ base) :
    x ∈ pks.foldl (fun base pk => if pk ∈ base then base else pk :: base) base := by
  induction pks generalizing base with
  | nil => exact hx.resolve_left (List.not_mem_nil)
  | cons pk pks ih =>
    refine ih _ ?_
    dsimp only
    by_cases hmem : pk ∈ base
    · rw [if_pos hmem]
      rcases hx with hx | hx
      · rcases List.mem_cons.mp hx with rfl | hx
        · exact Or.inr hmem
        · exact Or.inl hx
      · exact Or.inr hx
    · rw [if_neg hmem]
      rcases hx with hx | hx
      · rcases List.mem_cons.mp hx with rfl | hx
        · exact Or.inr List.mem_cons_self
        · exact Or.inl hx
      · exact Or.inr (List.mem_cons_of_mem _ hx)

/-- The primary key is always selected. -/
theorem primaryKey_mem_base {extra : List String} {pk : String} (h : pk ∈ ent.primaryKey) :
    pk ∈ baseColumns ent q extra :=
  mem_pushFront _ _ pk (Or.inl h)

/-- A name of the base columns names one of them first. -/
theorem find_base {base : List String} {columns : List OutputColumn} {x : String}
    {c : OutputColumn}
    (hbase : base.map (fun x => (x, x)) <+: columns.map fun c => (c.name, c.column))
    (hx : x ∈ base) (hc : columns.find? (·.name = x) = some c) : c.column = c.name := by
  induction base generalizing columns with
  | nil => cases hx
  | cons y base ih =>
    cases columns with
    | nil => simp at hbase
    | cons d columns =>
      simp only [List.map_cons, List.cons_prefix_cons, Prod.mk.injEq] at hbase
      rw [List.find?_cons] at hc
      by_cases hd : d.name = x
      · simp only [hd, decide_true, Option.some.injEq] at hc
        subst hc
        rw [← hbase.1.1, ← hbase.1.2]
      · simp only [hd, decide_false] at hc
        refine ih hbase.2 ?_ hc
        rcases List.mem_cons.mp hx with rfl | hx
        · exact absurd hbase.1.1.symm hd
        · exact hx

variable {extra : List String} {start : Nat} {a : Assemble}

theorem Indexed.inj {columns : List OutputColumn} (h : Indexed start columns)
    {c d : OutputColumn} (hc : c ∈ columns) (hd : d ∈ columns) (he : c.index = d.index) :
    c = d := by
  obtain ⟨i, hi⟩ := List.mem_iff_getElem?.mp hc
  obtain ⟨j, hj⟩ := List.mem_iff_getElem?.mp hd
  have hci := h i c hi
  have hdj := h j d hj
  obtain rfl : i = j := by omega
  exact Option.some.inj (hi.symm.trans hj)

/-- The first column of a join. -/
theorem Own.lead (h : Own P q extra a) (hent : entityOf P.m q.entity = some ent)
    (hpk : ent.primaryKey ≠ []) :
    ∃ c, a.columns.head? = some c ∧ c.column = c.name ∧
      (baseColumns ent q extra).head? = some c.name ∧ Styled P ent c := by
  obtain ⟨ent', start, hent', hidx, hlead, hbase, hkey⟩ := h
  obtain rfl : ent = ent' := Option.some.inj (hent.symm.trans hent')
  obtain ⟨pk, hmem⟩ := List.exists_mem_of_ne_nil _ hpk
  have hin : pk ∈ baseColumns ent q extra := primaryKey_mem_base hmem
  cases hb : baseColumns ent q extra with
  | nil => simp [hb] at hin
  | cons x base =>
    cases hcols : a.columns with
    | nil => simp [hb, hcols] at hbase
    | cons c columns =>
      have hstyled := hlead (by simp [hb]) c (by simp [hcols])
      simp only [hb, hcols, List.map_cons, List.cons_prefix_cons, Prod.mk.injEq] at hbase
      refine ⟨c, rfl, hbase.1.2.symm.trans hbase.1.1, ?_, hstyled⟩
      rw [List.head?_cons, hbase.1.1]

/-- The stages of the first column of a join that the client runs. -/
theorem Styled.clientRead_iff {c : OutputColumn} (h : Styled P ent c) :
    ClientRead P ent c.name ↔ c.client ≠ [] := by
  obtain ⟨f, hf, hstyles⟩ := h
  have hne : c.client ≠ [] ↔ ∃ stage ∈ c.styles, stage.host = false := by
    rw [OutputColumn.client, Ne, List.filter_eq_nil_iff]
    simp
  rw [hne, hstyles]
  constructor
  · rintro ⟨g, hg, hstage⟩
    rw [hf] at hg
    cases hg
    exact hstage
  · intro hstage
    exact ⟨f, hf, hstage⟩

/-- The key columns of an assembly are own columns of it. -/
theorem Own.key_column (h : Own P q extra a) (hent : entityOf P.m q.entity = some ent)
    {k : KeyReference} (hk : k ∈ a.key) :
    ∃ c ∈ a.columns, c.column = c.name ∧ c.name ∈ ent.primaryKey ∧ k.index = c.index := by
  obtain ⟨ent', start, hent', hidx, hlead, hbase, hkey⟩ := h
  obtain rfl : ent = ent' := Option.some.inj (hent.symm.trans hent')
  obtain ⟨i, hi, rfl⟩ := List.mem_iff_getElem.mp hk
  have hlen := hkey.length_eq
  obtain ⟨-, c, hfind, hindex⟩ := hkey.get (show i < ent.primaryKey.length by omega) hi
  have hname : c.name = ent.primaryKey[i] := by simpa using List.find?_some hfind
  refine ⟨c, List.mem_of_find?_eq_some hfind, ?_, ?_, hindex⟩
  · exact find_base hbase (primaryKey_mem_base (List.getElem_mem (by omega))) hfind
  · rw [hname]
    exact List.getElem_mem _

theorem Own.key_ne_nil (h : Own P q extra a) (hent : entityOf P.m q.entity = some ent)
    (hpk : ent.primaryKey ≠ []) : a.key ≠ [] := by
  obtain ⟨ent', start, hent', hidx, hlead, hbase, hkey⟩ := h
  obtain rfl : ent = ent' := Option.some.inj (hent.symm.trans hent')
  intro hnil
  rw [hnil] at hkey
  exact hpk (List.forall₂_nil_right_iff.mp hkey)

variable [DecidableEq V]

theorem joinRow_isSome {c : OutputColumn} (h : a.columns.head? = some c) :
    (joinRow a row).isSome = true ↔ row[c.index]? ≠ some none := by
  unfold joinRow
  rw [h]
  dsimp only
  split <;> simp_all

omit [DecidableEq V] in
/-- The key of a join is there in a row of its table, and is not where all its cells are NULL. -/
theorem keyPresent_joined (h : Own P q [] a) (hent : entityOf P.m q.entity = some ent)
    (filled : ∀ c ∈ a.columns, c.index < row.length)
    (table : ∀ c ∈ a.columns, c.column = c.name → NeverNull ent c.name →
      row[c.index]? ≠ some none) : KeyPresent a row := by
  intro k hk
  obtain ⟨d, hd, hdown, hdpk, hindex⟩ := h.key_column hent hk
  have hcell := table d hd hdown (Or.inl hdpk)
  rw [hindex]
  cases hv : row[d.index]? with
  | none => exact absurd (List.getElem?_eq_none_iff.mp hv) (by simpa using filled d hd)
  | some v =>
    cases v with
    | none => exact absurd hv hcell
    | some v => exact ⟨v, rfl⟩

omit [DecidableEq V] in
theorem not_keyPresent_unjoined (h : Own P q [] a) (hent : entityOf P.m q.entity = some ent)
    (hpk : ent.primaryKey ≠ [])
    (null : ∀ c ∈ a.columns, c.column = c.name → row[c.index]? = some none) :
    ¬ KeyPresent a row := by
  intro hkey
  obtain ⟨k, hk⟩ := List.exists_mem_of_ne_nil _ (h.key_ne_nil hent hpk)
  obtain ⟨d, hd, hdown, -, hindex⟩ := h.key_column hent hk
  obtain ⟨v, hv⟩ := hkey k hk
  rw [hindex, null d hd hdown] at hv
  cases hv

variable {ls : List Layer} {j : Join} {codecs : Decoders V} {row' : Row V}

/-- With a first column that tells, a joined row is found in the decoded row exactly when it
exists. -/
theorem joinRow_iff_key (h : Own P j.query [] a) (hent : entityOf P.m j.query.entity = some ent)
    (hpk : ent.primaryKey ≠ []) (hls : Laid ls) (ha : ∀ c ∈ a.columns, c ∈ cells ls)
    (htells : LeadTells P ent j) (hrow : JoinCells j.kind ent a row)
    (hdecode : ls.foldlM (decodeLayer codecs) row = .ok row') :
    (joinRow a row').isSome = true ↔ KeyPresent a row := by
  obtain ⟨c, hhead, hown, hbase, hstyled⟩ := h.lead hent hpk
  have hmem : c ∈ a.columns := List.mem_of_head? hhead
  obtain ⟨⟨start, hidx⟩, -⟩ := hls
  have hlead := htells _ hbase
  rw [hstyled.clientRead_iff] at hlead
  rw [joinRow_isSome hhead]
  cases hrow with
  | joined filled table =>
    refine iff_of_true (fun hnull => ?_) (keyPresent_joined h hent filled table)
    have hraw := (kept_layers hdecode).2 _ hnull
    split at hlead
    · exact table c hmem hown hlead.1 hraw
    · rcases hlead with hnever | hclient
      · exact table c hmem hown hnever hraw
      · exact client_layers (ha c hmem) hclient hdecode hnull
  | unjoined outer null =>
    rw [if_pos outer] at hlead
    refine iff_of_false (not_not.mpr ?_) (not_keyPresent_unjoined h hent hpk null)
    refine null_layers (fun d hd hindex => ?_) hdecode (null c hmem hown)
    rw [hidx.inj hd (ha c hmem) hindex]
    exact not_not.mp hlead.2

/-- With a first column that does not tell, some decoded row has a joined model too many or too
few. -/
theorem exists_joinRow_wrong [Inhabited V] (h : Own P j.query [] a)
    (hent : entityOf P.m j.query.entity = some ent) (hpk : ent.primaryKey ≠ []) (hls : Laid ls)
    (ha : ∀ c ∈ a.columns, c ∈ cells ls) (htells : ¬ LeadTells P ent j) :
    ∃ row row' : Row V, JoinCells j.kind ent a row ∧
      ls.foldlM (decodeLayer plainDecoders) row = .ok row' ∧
      ¬ ((joinRow a row').isSome = true ↔ KeyPresent a row) := by
  obtain ⟨c, hhead, hown, hbase, hstyled⟩ := h.lead hent hpk
  have hmem : c ∈ a.columns := List.mem_of_head? hhead
  obtain ⟨⟨start, hidx⟩, hversioned⟩ := hls
  have hlead : ¬ (if j.kind = .left then NeverNull ent c.name ∧ ¬ ClientRead P ent c.name
      else NeverNull ent c.name ∨ ClientRead P ent c.name) := by
    intro hlead
    refine htells fun x hx => ?_
    rw [hbase] at hx
    cases hx
    exact hlead
  rw [hstyled.clientRead_iff] at hlead
  have hlt : ∀ d ∈ cells ls, d.index < start + (cells ls).length := by
    intro d hd
    obtain ⟨i, hi⟩ := List.mem_iff_getElem?.mp hd
    have := (List.getElem?_eq_some_iff.mp hi).1
    rw [hidx i d hi]
    omega
  by_cases hclient : c.client = []
  · -- every cell has a value but the first one of the join
    have hnull : ¬ NeverNull ent c.name := by
      intro hnever
      apply hlead
      split
      · exact ⟨hnever, not_not.mpr hclient⟩
      · exact .inl hnever
    let row : Row V := (List.replicate (start + (cells ls).length) (some default)).set c.index none
    have hlength : row.length = start + (cells ls).length := by simp [row]
    have hfirst : row[c.index]? = some none := by
      rw [List.getElem?_set_self]
      simpa using hlt c (ha c hmem)
    have hother : ∀ d ∈ a.columns, d ≠ c → row[d.index]? = some (some default) := by
      intro d hd hne
      have hindex : c.index ≠ d.index :=
        fun he => hne (hidx.inj (ha d hd) (ha c hmem) he.symm)
      rw [List.getElem?_set_ne hindex, List.getElem?_replicate, if_pos (hlt d (ha d hd))]
    have filled : ∀ d ∈ a.columns, d.index < row.length := fun d hd => by
      rw [hlength]
      exact hlt d (ha d hd)
    have table : ∀ d ∈ a.columns, d.column = d.name → NeverNull ent d.name →
        row[d.index]? ≠ some none := by
      intro d hd _ hnever
      have hne : d ≠ c := by
        rintro rfl
        exact hnull hnever
      rw [hother d hd hne]
      simp
    obtain ⟨row', hrow'⟩ := layers_plain hversioned row fun d hd => hlength ▸ hlt d hd
    refine ⟨row, row', .joined filled table, hrow', fun hiff => ?_⟩
    have hsome := hiff.mpr (keyPresent_joined h hent filled table)
    rw [joinRow_isSome hhead] at hsome
    refine hsome (null_layers (fun d hd hindex => ?_) hrow' hfirst)
    rw [hidx.inj hd (ha c hmem) hindex]
    exact hclient
  · -- a left join without a row of its table
    have hleft : j.kind = .left := by
      by_contra hkind
      rw [if_neg hkind] at hlead
      exact hlead (.inr hclient)
    let row : Row V := List.replicate (start + (cells ls).length) none
    have hlength : row.length = start + (cells ls).length := by simp [row]
    have hnull : ∀ d ∈ a.columns, d.column = d.name → row[d.index]? = some none := by
      intro d hd _
      rw [List.getElem?_replicate, if_pos (hlt d (ha d hd))]
    obtain ⟨row', hrow'⟩ := layers_plain hversioned row fun d hd => hlength ▸ hlt d hd
    refine ⟨row, row', .unjoined hleft hnull, hrow', fun hiff => ?_⟩
    refine not_keyPresent_unjoined h hent hpk hnull (hiff.mp ?_)
    rw [joinRow_isSome hhead]
    exact client_layers (ha c hmem) hclient hrow'

variable (related : Child → Row V → List (Row V)) (row)

theorem assembleJoins_ok {children : List Child}
    (h : ∀ ch ∈ children, ch.kind = .join →
      ∃ x, assembleJoined related row ch.rel ch.assemble = .ok x) :
    ∃ xs, assembleJoins related row children = .ok xs := by
  induction children with
  | nil => exact ⟨[], rfl⟩
  | cons ch children ih =>
    obtain ⟨xs, hxs⟩ := ih fun c hc => h c (List.mem_cons_of_mem _ hc)
    obtain ⟨rel, kind, _, _, _, _, _, _, asm⟩ := ch
    rw [assembleJoins, hxs]
    by_cases hk : kind = .join
    · obtain ⟨x, hx⟩ := h _ List.mem_cons_self hk
      dsimp only at hx
      exact ⟨(rel, x) :: xs, by simp [hk, hx, bind, Except.bind, pure, Except.pure]⟩
    · exact ⟨xs, by simp [hk, bind, Except.bind, pure, Except.pure]⟩

/-- An assembly of the planner assembles every row. -/
theorem assembleModel_ok (h : JoinsOf P q asm) :
    ∃ x, assembleModel related row asm = .ok x := by
  induction h with
  | mk join inner own nested ih =>
    rename_i q asm
    obtain ⟨entity, aliasName, columns, children, key, aesVersion⟩ := asm
    have hjoins : ∃ xs, assembleJoins related row children = .ok xs := by
      refine assembleJoins_ok row related fun ch hch hk => ?_
      obtain ⟨x, hx⟩ := ih ch hch hk
      obtain ⟨-, -, ha, -⟩ := own ch hch hk
      rw [ha, assembleJoined]
      cases joinRow (inner ch hch hk) row with
      | none => exact ⟨none, rfl⟩
      | some _ => exact ⟨some x, by simp [hx, bind, Except.bind, pure, Except.pure]⟩
    obtain ⟨xs, hxs⟩ := hjoins
    rw [assembleModel, hxs]
    exact ⟨_, rfl⟩

theorem assembleJoined_ok (h : JoinsOf P q a) (rel : String) :
    ∃ x, assembleJoined related row rel (some a) = .ok x ∧
      (x.isSome = true ↔ (joinRow a row).isSome = true) := by
  rw [assembleJoined]
  cases hj : joinRow a row with
  | none => exact ⟨none, rfl, by simp⟩
  | some _ =>
    obtain ⟨x, hx⟩ := assembleModel_ok row related h
    exact ⟨some x, by simp [hx, bind, Except.bind, pure, Except.pure], by simp⟩

end Attached

/-- The joins of an assembly at any depth. -/
inductive JoinIn : Assemble → Child → Prop where
  | top {asm : Assemble} {ch : Child} (h : ch ∈ asm.children) (hk : ch.kind = .join) :
    JoinIn asm ch
  | deeper {asm inner : Assemble} {ch deep : Child} (h : ch ∈ asm.children) (hk : ch.kind = .join)
    (ha : ch.assemble = some inner) (hd : JoinIn inner deep) : JoinIn asm deep

/-- Every entity has a primary key. -/
def Keyed (m : RuntimeModel) : Prop := ∀ e ∈ m.entities, e.2.primaryKey ≠ []

theorem Keyed.primaryKey_ne {name : String} {ent : Entity} (h : Keyed m)
    (he : entityOf m name = some ent) : ent.primaryKey ≠ [] := by
  unfold entityOf at he
  rw [List.lookup_eq_some_iff] at he
  obtain ⟨l, r, hl, -⟩ := he
  exact h (name, ent) (by simp [hl])

theorem JoinIn.joinOf {ch : Child} {root : Query} (h : JoinIn asm ch) (hq : StepQuery root q)
    (hj : JoinsOf P q asm) : ∃ q, StepQuery root q ∧ JoinOf P q ch := by
  induction h generalizing q with
  | top h hk => exact ⟨q, hq, joinsOf_iff.mp hj _ h hk⟩
  | deeper h hk ha hd ih =>
    obtain ⟨j, hmem, a, -, ha', -, hnested⟩ := joinsOf_iff.mp hj _ h hk
    obtain rfl := Option.some.inj (ha.symm.trans ha')
    exact ih (.join hq hmem) hnested

/-- The layers of a join are layers of the assembly. -/
theorem JoinIn.layers_subset {ch : Child} (h : JoinIn asm ch) {a : Assemble}
    (ha : ch.assemble = some a) : ∀ l ∈ layers a, l ∈ layers asm := by
  have hchild (asm : Assemble) (ch : Child) (hch : ch ∈ asm.children) (hk : ch.kind = .join)
      (a : Assemble) (ha : ch.assemble = some a) : ∀ l ∈ layers a, l ∈ layers asm := by
    intro l hl
    rw [layers_eq]
    refine List.mem_cons_of_mem _ ?_
    obtain ⟨pre, post, hsplit⟩ := List.append_of_mem hch
    rw [hsplit, joinLayers_append, joinLayers_cons, if_pos hk, ha]
    exact List.mem_append_right _ (List.mem_append_left _ hl)
  induction h with
  | top h hk => exact hchild _ _ h hk a ha
  | deeper h hk hi _ ih => exact fun l hl => hchild _ _ h hk _ hi l (ih ha l hl)

theorem JoinIn.hasJoin {ch : Child} (h : JoinIn asm ch) : HasJoin asm := by
  cases h with
  | top h hk => exact ⟨_, h, hk⟩
  | deeper h hk _ _ => exact ⟨_, h, hk⟩

section Example

/-- An entity with a key and a column that may be NULL, declared in the given order. -/
def namedEntity (name : String) (columns : List String) : Entity where
  name := name
  table := name
  fields := columns.map fun c => exampleColumn c .i64
  primaryKey := ["id"]
  identity := ""
  uniques := []
  indexes := []
  updated := ""
  softDelete := ""
  aesVersion := ""
  keyPrefix := ""
  order := ""
  auditColumn := ""
  auditRecord := ""
  external := false

/-- A planner with books and their authors; the columns of an author are in the given order. -/
def authorPlanner (columns : List String) : Planner :=
  ⟨⟨"h", [("book", namedEntity "book" ["id", "author"]), ("author", namedEntity "author" columns)]⟩,
    .sqlite, false⟩

/-- All books with their authors. -/
def authorRequest : Request :=
  { bookRequest .all .and with
    query := .mk bookHead none none none
      [.mk "author" .left (.mk { bookHead with entity := "author" } none none none [] [])
        (some "author") (some "id")] [] }

/-- The root assembly and the author child in the plan of `authorRequest`. -/
def authorChild (columns : List String) : Option (Assemble × Child) := do
  let plan ← ((authorPlanner columns).compile authorRequest).toOption
  let st ← plan.steps.head?
  let asm ← st.assemble
  let ch ← asm.children.head?
  if ch.kind = .join then some (asm, ch) else none

/-- The assemblies in the plan of `authorRequest`. -/
theorem authorChild_nick :
    (authorChild ["nick", "id"]).bind (fun x => x.2.assemble.map fun a =>
      (layers x.1, a.columns, a.key)) =
      some ([([⟨0, "id", "id", .i64, [], false⟩, ⟨1, "author", "author", .i64, [], false⟩], none),
          ([⟨2, "nick", "nick", .i64, [], false⟩, ⟨3, "id", "id", .i64, [], false⟩], none)],
        [⟨2, "nick", "nick", .i64, [], false⟩, ⟨3, "id", "id", .i64, [], false⟩],
        [⟨"id", 3⟩]) := by
  decide +kernel

end Example

end Orm.Engine
