import Orm.Client.Batch
import Orm.Engine.Once

/-! The bind parameters of the inserts that `creates` sends, and the limit that it checks before. -/
namespace Orm.Client

open Orm.Engine
open Orm.Logic

/-- The batches bind at most the limit, counting the columns that the models set. -/
def batchFits (d : Dialect) (parts : List Nat) (columns : Nat) : Bool :=
  parts.all fun part => part * columns ≤ bindLimit d

/-- The insert of a batch of `rows` models that set `columns`: one parameter for each value, row
after row. -/
def partRequest (m : RuntimeModel) (entity : String) (columns : List String) (rows : Nat) :
    Request where
  irVersion := 1
  manifestHash := m.manifestHash
  kind := .insert
  load := false
  query := .mk ⟨entity, [], none, none, "", .none, "", false, 0, none, false⟩ none none none [] []
  set := columns.mapIdx fun j c => ⟨c, some j, false, none, none⟩
  onDuplicate := []
  rows := (List.range (rows - 1)).map fun i =>
    (List.range columns.length).map fun j => ((i + 1) * columns.length + j : Nat)
  optimistic := none
  agg := ""
  nParams := rows * columns.length

section Added

/-- The blind indexes of the columns that are not among them. -/
def indexColumns (ent : Entity) (columns : List String) : List String :=
  ((columns.filterMap fun c => (fieldOf ent c).map Field.blindIndex).filter fun b =>
    b ≠ "" ∧ b ∉ columns).dedup

/-- The columns that a row of an insert has besides those that are set. -/
def addedColumns (d : Dialect) (ent : Entity) (columns : List String) : List String :=
  let written := columns ++ indexColumns ent columns
  indexColumns ent columns ++
  (if ent.aesVersion ≠ "" ∧ ent.aesVersion ∉ written then [ent.aesVersion] else []) ++
  (if ent.auditColumn ≠ "" then [ent.auditColumn] else []) ++
  (if d.hostNow then (ent.fields.filter fun f => f.defaultNow ∧ f.name ∉ written).map Field.name
    else [])

end Added

section Parts

theorem insertParts_le {rows batch part : Nat} (h : part ∈ insertParts rows batch) :
    part ≤ min rows batch := by
  induction rows using Nat.strong_induction_on with
  | _ rows ih =>
    rw [insertParts] at h
    split at h
    · cases h
    · rename_i hpos
      rcases List.mem_cons.mp h with rfl | h
      · exact le_rfl
      · have hle := ih (rows - min rows batch) (by omega) h
        omega

theorem insertParts_pos {rows batch part : Nat} (h : part ∈ insertParts rows batch) : 0 < part := by
  induction rows using Nat.strong_induction_on with
  | _ rows ih =>
    rw [insertParts] at h
    split at h
    · cases h
    · rcases List.mem_cons.mp h with rfl | h
      · omega
      · exact ih (rows - min rows batch) (by omega) h

theorem min_mem_insertParts {rows batch : Nat} (hrows : 0 < rows) (hbatch : 0 < batch) :
    min rows batch ∈ insertParts rows batch := by
  rw [insertParts, dif_neg (by omega)]
  exact List.mem_cons_self

theorem batchFits_iff {d : Dialect} {rows batch columns : Nat} (hrows : 0 < rows)
    (hbatch : 0 < batch) : batchFits d (insertParts rows batch) columns = true ↔
      min rows batch * columns ≤ bindLimit d := by
  rw [batchFits, List.all_eq_true]
  constructor
  · intro h
    simpa using h _ (min_mem_insertParts hrows hbatch)
  · intro h part hpart
    have hle := Nat.mul_le_mul_right columns (insertParts_le hpart)
    simpa using hle.trans h

end Parts

section Count
variable {P : Planner} {ent : Entity} {columns : List String} {entity : String}

theorem partRequest_columns (m : RuntimeModel) (rows : Nat) :
    (partRequest m entity columns rows).set.map Assignment.column = columns := by
  simp [partRequest, List.mapIdx_eq_zipIdx_map, Function.comp_def]

/-- The derived indexes of a batch are the blind indexes of its columns. -/
theorem derivedIndex_iff {m : RuntimeModel} {rows : Nat} {c : String} :
    DerivedIndex ent (partRequest m entity columns rows).set c ↔ c ∈ indexColumns ent columns := by
  have hset (name : String) : (∃ a ∈ (partRequest m entity columns rows).set, a.column = name) ↔
      name ∈ columns := by
    rw [← List.mem_map, partRequest_columns]
  unfold DerivedIndex indexColumns
  rw [partRequest_columns]
  simp only [List.mem_dedup, List.mem_filter, List.mem_filterMap, Option.map_eq_some_iff,
    decide_eq_true_eq]
  constructor
  · rintro ⟨hne, hnot, a, ha, f, hf, heq⟩
    exact ⟨⟨a.column, (hset _).mp ⟨a, ha, rfl⟩, f, hf, heq⟩, hne, hnot⟩
  · rintro ⟨⟨name, hname, f, hf, heq⟩, hne, hnot⟩
    obtain ⟨a, ha, rfl⟩ := (hset name).mpr hname
    exact ⟨hne, hnot, a, ha, f, hf, heq⟩

/-- What the assignments of a batch become: one value for each column and each derived index. -/
structure BatchSet (ent : Entity) (columns : List String) (sourced : List (Assignment × Nat)) :
    Prop where
  length : sourced.length = columns.length + (indexColumns ent columns).length
  value : ∀ x ∈ sourced, (∃ p, x.1.p = some p) ∧ x.1.null = false ∧ x.1.plusP = none ∧
    x.1.minusP = none
  source : ∀ x ∈ sourced, x.2 < columns.length
  names : ∀ c, assigned (sourced.map Prod.fst) c = true ↔ c ∈ columns ++ indexColumns ent columns

theorem batchSet_of {m : RuntimeModel} {sourced : List (Assignment × Nat)} {rows : Nat}
    (h : addBlindIndexAssignments ent (partRequest m entity columns rows).set = .ok sourced) :
    BatchSet ent columns sourced := by
  have hassigned (c : String) : assigned (sourced.map Prod.fst) c = true ↔
      c ∈ columns ++ indexColumns ent columns := by
    rw [assigned_iff, addBlindIndexAssignments_columns h, partRequest_columns, derivedIndex_iff,
      List.mem_append]
  have hset : (partRequest m entity columns rows).set.length = columns.length := by
    simp [partRequest]
  have hvalue : ∀ a ∈ (partRequest m entity columns rows).set, (∃ p, a.p = some p) ∧
      a.null = false ∧ a.plusP = none ∧ a.minusP = none := by
    intro a ha
    obtain ⟨j, hj, rfl⟩ := List.mem_mapIdx.mp ha
    exact ⟨⟨_, rfl⟩, rfl, rfl, rfl⟩
  obtain ⟨derived, rfl, hd⟩ := addBlindIndexAssignments_derived h
  refine ⟨?_, fun x hx => ?_, fun x hx => ?_, hassigned⟩
  · have hperm : (derived.map fun x => x.1.column).Perm (indexColumns ent columns) :=
      (List.perm_ext_iff_of_nodup hd.nodup (List.nodup_dedup _)).mpr fun c =>
        hd.columns_iff.trans derivedIndex_iff
    have hlen := hperm.length_eq
    rw [List.length_map] at hlen
    rw [List.length_append, List.length_mapIdx, hset, hlen]
  · rcases List.mem_append.mp hx with hx | hx
    · obtain ⟨i, hi, rfl⟩ := List.mem_mapIdx.mp hx
      exact hvalue _ (List.getElem_mem hi)
    · obtain ⟨k, a, f, -, ha, -, -, -, -, heq⟩ := hd.source x hx
      obtain ⟨hp, hnull, -, -⟩ := hvalue a (List.mem_of_getElem? ha)
      rw [heq]
      exact ⟨hp, hnull, rfl, rfl⟩
  · rw [← hset]
    rcases List.mem_append.mp hx with hx | hx
    · obtain ⟨i, hi, rfl⟩ := List.mem_mapIdx.mp hx
      exact hi
    · obtain ⟨k, a, f, hk, ha, -⟩ := hd.source x hx
      have hlt := (List.getElem?_eq_some_iff.mp ha).1
      omega

theorem BatchSet.assignPlaces {sourced : List (Assignment × Nat)}
    (h : BatchSet ent columns sourced) :
    ((sourced.map Prod.fst).flatMap Planner.assignPlaces).length = sourced.length := by
  rw [List.length_flatMap, List.map_map]
  have hone : ∀ x ∈ sourced,
      ((fun a => (Planner.assignPlaces a).length) ∘ Prod.fst) x = 1 := by
    intro x hx
    obtain ⟨⟨p, hp⟩, hnull, hplus, hminus⟩ := h.value x hx
    simp [Planner.assignPlaces, hp, hnull, hplus, hminus]
  rw [List.map_congr_left hone]
  simp

/-- A row of a batch takes a parameter for each assignment. -/
theorem BatchSet.rowPlaces {sourced : List (Assignment × Nat)} (h : BatchSet ent columns sourced)
    {row : List Int} (hrow : row.length = columns.length) :
    (Planner.rowPlaces sourced row).length = sourced.length := by
  rw [Planner.rowPlaces, List.length_flatMap]
  have hone : ∀ x ∈ sourced, (row.toArray[x.2]?.toList.map Place.param).length = 1 := by
    intro x hx
    have hlt := h.source x hx
    rw [← hrow] at hlt
    simp [hlt]
  rw [List.map_congr_left hone]
  simp

/-- The other columns of a row take a value each. -/
theorem BatchSet.managedPlaces {sourced : List (Assignment × Nat)} (d : Dialect)
    (h : BatchSet ent columns sourced) :
    sourced.length + (Planner.managedPlaces d ent (sourced.map Prod.fst)).length =
      columns.length + (addedColumns d ent columns).length := by
  have hassigned (c : String) : assigned (sourced.map Prod.fst) c =
      decide (c ∈ columns ++ indexColumns ent columns) := by
    rw [Bool.eq_iff_iff, h.names, decide_eq_true_eq]
  have hversion : (if ent.aesVersion ≠ "" && !assigned (sourced.map Prod.fst) ent.aesVersion then
        [Place.config "aes_version"] else []).length =
      (if ent.aesVersion ≠ "" ∧ ent.aesVersion ∉ columns ++ indexColumns ent columns then
        [ent.aesVersion] else []).length := by
    rw [hassigned]
    split <;> split <;> simp_all
  have haudit : (Planner.auditPlaces ent).length =
      (if ent.auditColumn ≠ "" then [ent.auditColumn] else []).length := by
    unfold Planner.auditPlaces
    split <;> simp_all
  have hstamp : (if d.hostNow then (ent.fields.filter fun f =>
        f.defaultNow && !assigned (sourced.map Prod.fst) f.name).map fun _ => Place.now
        else []).length =
      (if d.hostNow then (ent.fields.filter fun f => f.defaultNow ∧
        f.name ∉ columns ++ indexColumns ent columns).map Field.name else []).length := by
    simp only [hassigned]
    split
    · simp only [List.length_map]
      congr 2
      funext f
      simp
    · rfl
  rw [Planner.managedPlaces, addedColumns, h.length]
  simp only [List.length_append, hversion, haudit, hstamp]
  omega

/-- The statement of a batch binds a value for each of its columns in each row. -/
theorem partRequest_binds {plan : Planner.Plan} {rows : Nat} (hrows : 0 < rows)
    (hent : entityOf P.m entity = some ent)
    (hc : P.compile (partRequest P.m entity columns rows) = .ok plan) :
    ∃ st, plan.steps = [st] ∧
      st.bindSlots.length = rows * (columns.length + (addedColumns P.d ent columns).length) := by
  obtain ⟨st, hst, -⟩ := compile_assigned hc (.inl rfl)
  refine ⟨st, hst, ?_⟩
  have hbound := (compile_places hc st (by simp [hst])).2
  have hwrite : (partRequest P.m entity columns rows).kind.isWrite = true := rfl
  rw [PlanStep.Bound, if_pos hwrite] at hbound
  obtain ⟨ent', hent', hbound⟩ := ok_bind.mp hbound
  obtain rfl : ent = ent' := Option.some.inj (hent.symm.trans (Planner.present_some hent'))
  obtain ⟨sourced, hsourced, hbound⟩ := ok_bind.mp hbound
  obtain ⟨rest, hrest, hbound⟩ := ok_bind.mp hbound
  have hset := batchSet_of hsourced
  have hmanaged := hset.managedPlaces P.d
  have hlen := congrArg List.length (Except.ok.inj hbound)
  rw [List.length_map, List.length_append, List.length_append, hset.assignPlaces] at hlen
  have hmore : rest.length =
      (rows - 1) * (columns.length + (addedColumns P.d ent columns).length) := by
    have hrow : ∀ row ∈ (partRequest P.m entity columns rows).rows,
        (Planner.rowPlaces sourced row ++
          Planner.managedPlaces P.d ent (sourced.map Prod.fst)).length =
        columns.length + (addedColumns P.d ent columns).length := by
      intro row hmem
      obtain ⟨i, -, rfl⟩ := List.mem_map.mp hmem
      rw [List.length_append, hset.rowPlaces (by simp), hmanaged]
    unfold Planner.insertRest at hrest
    split at hrest
    · cases hrest
      have hcount : (partRequest P.m entity columns rows).rows.length = rows - 1 := by
        simp [partRequest]
      rw [List.length_flatMap, List.map_congr_left hrow, List.map_const', List.sum_replicate,
        hcount, smul_eq_mul]
    · rename_i hnil
      have hdup : (partRequest P.m entity columns rows).onDuplicate = [] := rfl
      rw [if_pos hdup] at hrest
      cases hrest
      have hone : rows - 1 = 0 := by simpa [partRequest] using hnil
      rw [hone, Nat.zero_mul, List.length_nil]
  obtain ⟨n, rfl⟩ : ∃ n, rows = n + 1 := ⟨rows - 1, by omega⟩
  rw [Nat.add_sub_cancel] at hmore
  rw [← hlen, hmanaged, hmore]
  ring

end Count

/-- `creates` keeps to the bind limit of the dialect whenever its check passes exactly when the
check refuses the largest batch, or that batch fits with the columns that its statement adds. -/
theorem creates_within_limit_iff {P : Planner} {ent : Entity} {columns : List String}
    {entity : String} {rows batch : Nat} {plan : Planner.Plan}
    (hent : entityOf P.m entity = some ent) (hrows : 0 < rows) (hbatch : 0 < batch)
    (hc : P.compile (partRequest P.m entity columns (min rows batch)) = .ok plan) :
    (batchFits P.d (insertParts rows batch) columns.length = true →
      ∀ part ∈ insertParts rows batch, ∀ plan, P.compile (partRequest P.m entity columns part) =
        .ok plan → ∀ st ∈ plan.steps, st.bindSlots.length ≤ bindLimit P.d) ↔
    (bindLimit P.d < min rows batch * columns.length ∨
      min rows batch * (columns.length + (addedColumns P.d ent columns).length) ≤
        bindLimit P.d) := by
  rw [batchFits_iff hrows hbatch]
  constructor
  · intro h
    by_cases hfits : min rows batch * columns.length ≤ bindLimit P.d
    · obtain ⟨st, hst, hlen⟩ := partRequest_binds (by omega) hent hc
      have hle := h hfits _ (min_mem_insertParts hrows hbatch) plan hc st (by simp [hst])
      rw [hlen] at hle
      exact .inr hle
    · exact .inl (by omega)
  · rintro (hover | hfits) hpass part hpart plan' hc' st' hst'
    · omega
    · obtain ⟨st, hst, hlen⟩ := partRequest_binds (insertParts_pos hpart) hent hc'
      rw [hst] at hst'
      obtain rfl := List.mem_singleton.mp hst'
      rw [hlen]
      exact (Nat.mul_le_mul_right _ (insertParts_le hpart)).trans hfits

section Accepted
variable {P : Planner} {ent : Entity} {α β : Type}

/-- The program succeeds from every builder. -/
def Runs (x : Build α) : Prop := ∀ b, ∃ r, x b = .ok r

theorem Runs.bind {x : Build α} {f : α → Build β} (hx : Runs x) (hf : ∀ a, Runs (f a)) :
    Runs (x >>= f) := by
  intro b
  obtain ⟨⟨a, b'⟩, ha⟩ := hx b
  obtain ⟨r, hr⟩ := hf a b'
  exact ⟨r, ok_bind.mpr ⟨_, ha, hr⟩⟩

theorem runs_pure (a : α) : Runs (pure a) := fun _ => ⟨_, rfl⟩

theorem Runs.lift {x : Except Failure α} {a : α} {f : α → Build β} (hx : x = .ok a)
    (hf : Runs (f a)) : Runs ((liftM x : Build α) >>= f) := by
  intro b
  obtain ⟨r, hr⟩ := hf b
  rw [hx]
  exact ⟨r, hr⟩

theorem runs_mapM {f : α → Build β} {as : List α} (h : ∀ a ∈ as, Runs (f a)) :
    Runs (as.mapM f) := by
  induction as with
  | nil => exact runs_pure _
  | cons a as ih =>
    rw [List.mapM_cons]
    refine (h a List.mem_cons_self).bind fun b => ?_
    exact (ih fun c hc => h c (List.mem_cons_of_mem _ hc)).bind fun bs => runs_pure _

theorem runs_typed {d : Dialect} {s : BindSlot} {type : FieldType} (h : s.colType = some type) :
    Runs (Build.typed d s) := by
  intro b
  rw [Build.typed, h]
  exact ⟨_, rfl⟩

/-- The slot that was just added takes its host styles. -/
theorem runs_styled {d : Dialect} {s : BindSlot} {type : FieldType} (h : s.colType = some type)
    (styles : List HostStyle) (f : Sql.Text → Sql.Text) :
    Runs (Build.typed d s >>= fun ph => Build.setHostStyles styles >>= fun _ => pure (f ph)) := by
  intro b
  have htyped : Build.typed d s b = .ok (d.placeholder (b.binds.length + 1),
      { b with binds := b.binds ++ [s] }) := by
    rw [Build.typed, h]
    rfl
  have hstyles : Build.setHostStyles styles { b with binds := b.binds ++ [s] } = .ok (⟨⟩, { b with
      binds := (b.binds ++ [s]).dropLast ++ [{ s with hostStyles := styles }] }) := by
    rw [Build.setHostStyles, List.getLast?_concat]
  exact ⟨_, ok_bind.mpr ⟨_, htyped, ok_bind.mpr ⟨_, hstyles, rfl⟩⟩⟩

/-- The assignment of a parameter is always rendered. -/
theorem runs_renderAssign (col : Field) (column : String) (p : Int) :
    Runs (P.renderAssign ent col ⟨column, some p, false, none, none⟩) := by
  refine Runs.bind (fun b => ⟨(b, b), rfl⟩) fun b => ?_
  dsimp only
  have hmark (start : Nat) (t : Sql.Text) : Runs (Planner.markAssigned start col t) :=
    fun _ => ⟨_, rfl⟩
  split
  · exact Runs.lift rfl ((runs_styled rfl _ id).bind fun t => hmark _ t)
  · refine Runs.lift rfl (Runs.bind ?_ fun t => hmark _ t)
    unfold Planner.renderValue
    dsimp only
    split
    · exact runs_styled rfl _ _
    · exact runs_styled rfl _ _

end Accepted

/-- Members with an encrypted mail address, on SQLite. -/
def mailPlanner : Planner := { memberPlanner with d := .sqlite }

theorem creates_within_limit_one :
    ∃ plan, mailPlanner.compile (partRequest mailPlanner.m "member" ["id", "mail"] 1) = .ok plan ∧
      ((batchFits .sqlite (insertParts 3 1) 2 = true →
        ∀ part ∈ insertParts 3 1, ∀ plan,
          mailPlanner.compile (partRequest mailPlanner.m "member" ["id", "mail"] part) = .ok plan →
          ∀ st ∈ plan.steps, st.bindSlots.length ≤ bindLimit .sqlite) ↔
        (bindLimit .sqlite < 1 * 2 ∨
          1 * (2 + (addedColumns .sqlite memberEntity ["id", "mail"]).length) ≤
            bindLimit .sqlite)) := by
  obtain ⟨plan, hc⟩ : ∃ plan, mailPlanner.compile
      (partRequest mailPlanner.m "member" ["id", "mail"] 1) = .ok plan :=
    exists_ok (by decide +kernel)
  have hent : entityOf mailPlanner.m "member" = some memberEntity := rfl
  have hrows : 0 < 3 := by decide
  have hbatch : 0 < 1 := by decide
  exact ⟨plan, hc, creates_within_limit_iff hent hrows hbatch hc⟩

/-- Every batch of members is accepted. -/
theorem mailPlanner_compiles (rows : Nat) (hrows : 1 < rows) : ∃ plan, mailPlanner.compile
    (partRequest mailPlanner.m "member" ["id", "mail"] rows) = .ok plan := by
  have hmanaged (set : List Assignment) :
      Runs ((mailPlanner.managedInsertColumns memberEntity set).mapM Prod.snd) := by
    refine runs_mapM fun x hx => ?_
    rcases List.mem_append.mp hx with hx | hx
    · rcases List.mem_append.mp hx with hx | hx
      · split at hx
        · obtain rfl := List.mem_singleton.mp hx
          exact Runs.lift rfl (runs_typed rfl)
        · cases hx
      · cases hx
    · cases hx
  have hrun : Runs (mailPlanner.insertText
      (partRequest mailPlanner.m "member" ["id", "mail"] rows)) := by
    refine Runs.lift rfl (Runs.lift rfl (Runs.lift rfl (Runs.lift rfl ?_)))
    refine Runs.bind (runs_mapM fun a ha => ?_) fun vals => (hmanaged _).bind fun more =>
      Runs.bind (fun b => ⟨_, rfl⟩) fun table => ?_
    · have ha' : a ∈ [⟨"id", some 0, false, none, none⟩, ⟨"mail", some 1, false, none, none⟩] := ha
      rcases List.mem_pair.mp ha' with rfl | rfl
      · exact Runs.lift rfl (runs_renderAssign _ _ _)
      · exact Runs.lift rfl (runs_renderAssign _ _ _)
    · have hrows : (partRequest mailPlanner.m "member" ["id", "mail"] rows).rows ≠ [] := by
        simp [partRequest]
        omega
      dsimp only
      rw [if_pos hrows]
      refine Runs.bind (runs_mapM fun row hrow => ?_) fun _ => runs_pure _
      refine Runs.bind (runs_mapM fun x hx => ?_) fun vals => (hmanaged _).bind fun _ => runs_pure _
      have hx' : x ∈ [(⟨"id", some 0, false, none, none⟩, 0),
        (⟨"mail", some 1, false, none, none⟩, 1)] := hx
      obtain ⟨i, -, rfl⟩ := List.mem_map.mp hrow
      rcases List.mem_pair.mp hx' with rfl | rfl
      · exact Runs.lift rfl (Runs.lift rfl (runs_renderAssign _ _ _))
      · exact Runs.lift rfl (Runs.lift rfl (runs_renderAssign _ _ _))
  obtain ⟨r, hr⟩ := hrun {}
  exact ⟨_, ok_bind.mpr ⟨_, ok_bind.mpr ⟨_, hr, rfl⟩, rfl⟩⟩

/-- 400 rows of two columns pass the check, and their one statement binds 1200 values. -/
theorem creates_over_limit :
    batchFits .sqlite (insertParts 400 400) 2 = true ∧ bindLimit .sqlite = 999 ∧
      insertParts 400 400 = [400] ∧
      ∃ plan st, mailPlanner.compile
          (partRequest mailPlanner.m "member" ["id", "mail"] 400) = .ok plan ∧
        plan.steps = [st] ∧ st.bindSlots.length = 1200 := by
  obtain ⟨plan, hc⟩ := mailPlanner_compiles 400 (by decide)
  have hent : entityOf mailPlanner.m "member" = some memberEntity := rfl
  obtain ⟨st, hst, hlen⟩ := partRequest_binds (by decide) hent hc
  have hparts : insertParts 400 400 = [400] := by
    rw [insertParts, dif_neg (by decide), insertParts, dif_pos (by decide)]
    rfl
  refine ⟨?_, rfl, hparts, plan, st, hc, hst, hlen⟩
  rw [hparts]
  rfl

end Orm.Client
