import Orm.Engine.Bound
import Orm.Engine.Restore
import Orm.Engine.Versioned

/-! What the statement of a write assigns: for each column the text of its value and the bind
slots in it. -/
namespace Orm.Engine

open Orm.Logic
open Orm.Sql (Tok Text bindsOf)
open Orm.Sql.Text (commaSep)

/-- A column of an INSERT row or of a SET list with its value and the slots of the value. -/
structure Written where
  column : String
  value : Text
  slots : List (BindSlot × Nat)

/-- The value is the placeholder of one slot in `A`, behind SQL-side functions. -/
def Written.Holds (d : Dialect) (w : Written) (A : BindSlot → Prop) : Prop :=
  ∃ s n, w.slots = [(s, n)] ∧ A s ∧ bindsOf w.value = d.placeholder (n + 1)

/-- The slot of a parameter that the executor encodes by `styles`. -/
def BindSlot.Carries (p : Int) (styles : List HostStyle) (s : BindSlot) : Prop :=
  s.source = .param ∧ s.param = p ∧ s.hostStyles = styles

/-- The column is given NULL. -/
def Written.Null (w : Written) : Prop := w.value = [.word "NULL"] ∧ w.slots = []

section Slots
variable {d : Dialect} {A : BindSlot → Prop} {c : String}

theorem Written.Holds.mono {w : Written} {B : BindSlot → Prop} (h : w.Holds d A)
    (hB : ∀ s, A s → B s) : w.Holds d B := by
  obtain ⟨s, n, hslots, hs, hvalue⟩ := h
  exact ⟨s, n, hslots, hB s hs, hvalue⟩

theorem typed_holds (s : BindSlot) : Adds Builder.binds (Build.typed d s) fun t l =>
    Written.Holds d ⟨c, t, l⟩ (· = s) := by
  intro b t b' hr
  obtain ⟨new, hnew, hbinds, -⟩ := Build.typed_writes s b t b' hr
  have hone : new = [s] := by
    unfold Build.typed at hr
    split at hr
    · obtain ⟨rfl, rfl⟩ : _ = t ∧ _ = b' := by simpa [Build.push, pure, Except.pure] using hr
      exact (List.append_cancel_left hnew).symm
    · cases hr
  subst hone
  exact ⟨[s], hnew, s, _, rfl, rfl, by simpa using hbinds⟩

/-- The host styles of the slot that was just added. -/
theorem styled_holds {x : Build Text} (styles : List HostStyle) {f : Text → Text}
    (hf : ∀ t, bindsOf (f t) = bindsOf t)
    (hx : Adds Builder.binds x fun t l => Written.Holds d ⟨c, t, l⟩ A) :
    Adds Builder.binds (x >>= fun ph => Build.setHostStyles styles >>= fun _ => pure (f ph))
      fun t l => Written.Holds d ⟨c, t, l⟩ fun s => ∃ s₀, A s₀ ∧ s = { s₀ with hostStyles := styles } := by
  intro b t b' hr
  obtain ⟨⟨ph, b₁⟩, hph, hr⟩ := ok_bind.mp hr
  obtain ⟨new, hnew, s, n, hslots, hs, hvalue⟩ := hx b ph b₁ hph
  obtain ⟨s', rfl⟩ : ∃ s', new = [s'] := by
    have hlen := congrArg List.length hslots
    rw [List.length_zipIdx] at hlen
    exact List.length_eq_one_iff.mp hlen
  obtain ⟨rfl, rfl⟩ : s' = s ∧ b.binds.length = n := by simpa using hslots
  obtain ⟨⟨u, b₂⟩, hset, hr⟩ := ok_bind.mp hr
  obtain ⟨rfl, rfl⟩ : f ph = t ∧ b₂ = b' := by simpa [pure, StateT.pure, Except.pure] using hr
  have hlast : b₁.binds.getLast? = some s' := by rw [hnew]; simp
  unfold Build.setHostStyles at hset
  rw [hlast] at hset
  cases hset
  refine ⟨[{ s' with hostStyles := styles }], ?_, _, _, rfl, ⟨s', hs, rfl⟩, (hf ph).trans hvalue⟩
  simp [hnew]

end Slots

section Assignments
variable {P : Planner} {ent : Entity}

/-- The assignment gives the parameter `p`. -/
def Assignment.Value (a : Assignment) (p : Int) : Prop :=
  a.plusP = none ∧ a.minusP = none ∧ a.null = false ∧ a.p = some p

def Assignment.Null (a : Assignment) : Prop :=
  a.plusP = none ∧ a.minusP = none ∧ a.null = true

/-- What an assignment writes: its parameter, hashed when the column is a blind index, or NULL. -/
structure Gives (P : Planner) (ent : Entity) (a : Assignment) (w : Written) : Prop where
  column : w.column = a.column
  value : ∀ p, a.Value p → ∃ styles, w.Holds P.d (BindSlot.Carries p styles) ∧
    (isBlindIndexTarget ent a.column = true → styles = [.blindIndex])
  null : a.Null → w.Null
  index : isBlindIndexTarget ent a.column = true → a.Null ∨ ∃ p, a.Value p
  plain : a.plusP = none → a.minusP = none → a.Null ∨ ∃ p, a.Value p

/-- A run from a builder with `n` slots adds slots; its text with them is in `A`. -/
def AddsAt (n : Nat) (x : Build Text) (A : Text → List (BindSlot × Nat) → Prop) : Prop :=
  ∀ b t b', b.binds.length = n → x b = .ok (t, b') →
    ∃ new, b'.binds = b.binds ++ new ∧ A t (new.zipIdx n)

theorem addsAt {x : Build Text} {A : Text → List (BindSlot × Nat) → Prop} (n : Nat)
    (hx : Adds Builder.binds x A) : AddsAt n x A := by
  rintro b t b' rfl hr
  exact hx b t b' hr

/-- The marks of an assigned value change no slot of a parameter in what it carries. -/
theorem markAssigned_addsAt {d : Dialect} {c : String} {p : Int} {styles : List HostStyle}
    {x : Build Text} (n : Nat) (col : Field) (hx : Adds Builder.binds x fun t l =>
      Written.Holds d ⟨c, t, l⟩ (BindSlot.Carries p styles)) :
    AddsAt n (x >>= Planner.markAssigned n col) fun t l =>
      Written.Holds d ⟨c, t, l⟩ (BindSlot.Carries p styles) := by
  rintro b t b' rfl hr
  obtain ⟨⟨v, b₁⟩, hv, hr⟩ := ok_bind.mp hr
  obtain ⟨new, hnew, s, n, hslots, hs, hvalue⟩ := hx b v b₁ hv
  obtain ⟨rfl, rfl⟩ : v = t ∧ _ = b' := by
    simpa [Planner.markAssigned, pure, Except.pure] using hr
  by_cases hnull : col.nullable = true
  · exact ⟨new, by simp [hnull, hnew], s, n, hslots, hs, hvalue⟩
  · refine ⟨new.map fun s => if s.source = .param then
      { s with notNull := true, column := col.name } else s, by simp [hnull, hnew],
      { s with notNull := true, column := col.name }, n, ?_, ⟨hs.1, hs.2.1, hs.2.2⟩, hvalue⟩
    dsimp only at hslots ⊢
    rw [List.zipIdx_map, hslots, List.map_singleton, Prod.map_apply, if_pos hs.1]
    rfl

theorem renderValue_holds (c : String) (col : Field) (p : Int) :
    Adds Builder.binds (P.renderValue col p) fun t l => Written.Holds P.d ⟨c, t, l⟩
      (BindSlot.Carries p ((P.hostStyles col.stages).map .stage)) := by
  unfold Planner.renderValue
  dsimp only
  split
  · refine (styled_holds _ (Planner.bindsOf_writtenValue col) (typed_holds _)).mono fun t l h => h.mono ?_
    rintro _ ⟨_, rfl, rfl⟩
    exact ⟨rfl, rfl, rfl⟩
  · refine (styled_holds _ (Planner.bindsOf_writtenValue col) (typed_holds _)).mono fun t l h => h.mono ?_
    rintro _ ⟨_, rfl, rfl⟩
    exact ⟨rfl, rfl, rfl⟩

theorem renderBlindIndexValue_holds (c : String) (col : Field) (p : Int) :
    Adds Builder.binds (P.renderBlindIndexValue col p) fun t l => Written.Holds P.d ⟨c, t, l⟩
      (BindSlot.Carries p [.blindIndex]) := by
  refine (styled_holds _ (fun _ => rfl) (typed_holds _)).mono fun t l h => h.mono ?_
  rintro _ ⟨_, rfl, rfl⟩
  exact ⟨rfl, rfl, rfl⟩

theorem get_adds {f : Builder → Build Text} {A : Text → List (BindSlot × Nat) → Prop}
    (hf : ∀ b, AddsAt b.binds.length (f b) A) : Adds Builder.binds (get >>= f) A := by
  intro b t b' hr
  exact hf b b t b' rfl hr

theorem renderAssign_gives {col : Field} {a : Assignment} (hcol : fieldOf ent a.column = some col) :
    Adds Builder.binds (P.renderAssign ent col a) fun t l => Gives P ent a ⟨a.column, t, l⟩ := by
  have hname : col.name = a.column := fieldOf_name hcol
  -- an assignment by plus or minus gives neither a parameter nor NULL, and no blind index
  have hother (w : Written) (hw : w.column = a.column)
      (h : ¬(a.plusP = none ∧ a.minusP = none)) (hno : isBlindIndexTarget ent a.column ≠ true) :
      Gives P ent a w :=
    ⟨hw, fun p hp => absurd ⟨hp.1, hp.2.1⟩ h, fun hn => absurd ⟨hn.1, hn.2.1⟩ h,
      fun hi => absurd hi hno, fun hplus hminus => absurd ⟨hplus, hminus⟩ h⟩
  have hnull (h : a.plusP = none ∧ a.minusP = none) (hn : a.null = true) :
      Gives P ent a ⟨a.column, [.word "NULL"], []⟩ := by
    refine ⟨rfl, fun p hp => ?_, fun _ => ⟨rfl, rfl⟩, fun _ => .inl ⟨h.1, h.2, hn⟩,
      fun _ _ => .inl ⟨h.1, h.2, hn⟩⟩
    cases hn.symm.trans hp.2.2.1
  have hvalue {f : Int → Build Text} (n : Nat) (styles : List HostStyle)
      (hf : ∀ i, Adds Builder.binds (f i) fun t l =>
        Written.Holds P.d ⟨a.column, t, l⟩ (BindSlot.Carries i styles))
      (h : a.plusP = none ∧ a.minusP = none) (hn : a.null = false)
      (hstyles : isBlindIndexTarget ent a.column = true → styles = [.blindIndex]) :
      AddsAt n (do
        let p ← present a.p s!"the value of {a.column}"
        let value ← f p
        Planner.markAssigned n col value) fun t l => Gives P ent a ⟨a.column, t, l⟩ := by
    cases hp : a.p with
    | none => exact addsAt n (.error fun _ _ h => by cases h)
    | some p =>
      intro b t b' hb hr
      obtain ⟨new, hnew, hholds⟩ := markAssigned_addsAt n col (hf p) b t b' hb hr
      refine ⟨new, hnew, rfl, fun q hq => ⟨styles, ?_, hstyles⟩, fun hnull => ?_,
        fun _ => .inr ⟨p, h.1, h.2, hn, hp⟩, fun _ _ => .inr ⟨p, h.1, h.2, hn, hp⟩⟩
      · obtain rfl : p = q := Option.some.inj (hp.symm.trans hq.2.2.2)
        exact hholds
      · cases hn.symm.trans hnull.2.2
  refine get_adds fun b => ?_
  dsimp only
  generalize b.binds.length = n
  rw [hname]
  split
  · rename_i hindex
    split
    · exact addsAt n (.error fun _ _ h => by cases h)
    · rename_i hplain
      have hplus : a.plusP = none ∧ a.minusP = none := by simpa using hplain
      cases hn : a.null with
      | true => exact addsAt n (.pure (hnull hplus hn))
      | false => exact hvalue n _ (renderBlindIndexValue_holds _ col) hplus hn fun _ => rfl
  · rename_i hindex
    cases hplus : a.plusP with
    | some plus =>
      refine addsAt n ((Build.colParam_writes plus col .none).bind fun ph l _ => .pure ?_)
      exact hother _ rfl (by simp [hplus]) hindex
    | none =>
      cases hminus : a.minusP with
      | some minus =>
        refine addsAt n ((Build.colParam_writes minus col .none).bind fun ph l _ =>
          (Build.colParam_writes minus col .none).bind fun ph' l' _ => .pure ?_)
        exact hother _ rfl (by simp [hminus]) hindex
      | none =>
        dsimp only
        cases hn : a.null with
        | true => exact addsAt n (.pure (hnull ⟨hplus, hminus⟩ hn))
        | false =>
          exact hvalue n _ (renderValue_holds _ col) ⟨hplus, hminus⟩ hn fun h => absurd h hindex

end Assignments

section Lists
variable {P : Planner} {ent : Entity} {view : Written → Text}

/-- The texts of columns written one after the other, with their slots. -/
def Listed (view : Written → Text) (A : List Written → Prop) (ts : List Text)
    (l : List (BindSlot × Nat)) : Prop :=
  ∃ ws, ts = ws.map view ∧ l = ws.flatMap Written.slots ∧ A ws

theorem Listed.mono {A B : List Written → Prop} {ts : List Text} {l : List (BindSlot × Nat)}
    (h : Listed view A ts l) (hB : ∀ ws, A ws → B ws) : Listed view B ts l := by
  obtain ⟨ws, hts, hl, hA⟩ := h
  exact ⟨ws, hts, hl, hB ws hA⟩

theorem listed_nil {A : List Written → Prop} (h : A []) : Listed view A [] [] :=
  ⟨[], rfl, rfl, h⟩

theorem listed_one {A : List Written → Prop} {w : Written} {t : Text} {l : List (BindSlot × Nat)}
    (ht : t = view w) (hl : l = w.slots) (h : A [w]) : Listed view A [t] l :=
  ⟨[w], by rw [ht, List.map_singleton], by rw [hl, List.flatMap_singleton], h⟩

theorem Listed.append {A B : List Written → Prop} {ts us : List Text}
    {l m : List (BindSlot × Nat)} (h : Listed view A ts l) (h' : Listed view B us m) :
    Listed view (fun ws => ∃ xs ys, ws = xs ++ ys ∧ A xs ∧ B ys) (ts ++ us) (l ++ m) := by
  obtain ⟨xs, rfl, rfl, hA⟩ := h
  obtain ⟨ys, rfl, rfl, hB⟩ := h'
  exact ⟨xs ++ ys, List.map_append.symm, List.flatMap_append.symm, xs, ys, rfl, hA, hB⟩

theorem listed_inTurn {α : Type} {R : α → Written → Prop} {as : List α} {ts : List Text}
    {l : List (BindSlot × Nat)}
    (h : InTurn (fun a t m => ∃ w, t = view w ∧ m = w.slots ∧ R a w) as ts l) :
    Listed view (List.Forall₂ R as) ts l := by
  induction h with
  | nil => exact listed_nil .nil
  | cons head tail ih =>
    obtain ⟨w, rfl, rfl, hw⟩ := head
    obtain ⟨ws, rfl, rfl, hws⟩ := ih
    exact ⟨w :: ws, rfl, rfl, .cons hw hws⟩

/-- The text of a column of a SET list. -/
def Planner.setView (P : Planner) (w : Written) : Text := P.setText w.column w.value

theorem setTexts_listed (set : List Assignment) : Adds Builder.binds (P.setTexts ent set)
    (Listed P.setView (List.Forall₂ (Gives P ent) set)) := by
  refine (Adds.mapM fun a _ => .lift_bind fun col hcol => ?_).mono fun ts l => listed_inTurn
  refine (renderAssign_gives (Planner.present_some hcol)).bind fun t l h => .pure ?_
  exact ⟨⟨a.column, t, l⟩, rfl, List.append_nil l, h⟩

/-- A column is written when `c` holds, as `A` says, and none otherwise. -/
def Only (c : Prop) (A : Written → Prop) (ws : List Written) : Prop :=
  (c → ∃ w, ws = [w] ∧ A w) ∧ (¬ c → ws = [])

/-- The value is the configured key version. -/
def Written.Version (d : Dialect) (w : Written) : Prop :=
  w.Holds d fun s => s.source = .config ∧ s.name = "aes_version"

theorem config_version (d : Dialect) (c : String) (type : FieldType) :
    Adds Builder.binds (Build.config d "aes_version" type) fun t l =>
      Written.Version d ⟨c, t, l⟩ := by
  refine (typed_holds _).mono fun t l h => h.mono ?_
  rintro _ rfl
  exact ⟨rfl, rfl⟩

theorem versionAssignment_listed (set : List Assignment) :
    Adds Builder.binds (P.versionAssignment ent set) (Listed P.setView
      (Only (ent.aesVersion ≠ "" ∧ assignsAES ent set = true ∧ assigned set ent.aesVersion = false)
        fun w => w.column = ent.aesVersion ∧ w.Version P.d)) := by
  refine .ite (fun hc => .lift_bind fun col _ => ?_) fun hc => .pure (listed_nil ?_)
  · refine (config_version P.d ent.aesVersion col.type).bind fun t l h => .pure (listed_one
      (w := ⟨ent.aesVersion, t, l⟩) rfl (List.append_nil l) ?_)
    have hc' : ent.aesVersion ≠ "" ∧ assignsAES ent set = true ∧
        assigned set ent.aesVersion = false := by simpa [and_assoc] using hc
    exact ⟨fun _ => ⟨_, rfl, rfl, h⟩, fun hn => absurd hc' hn⟩
  · refine ⟨fun h => absurd ?_ hc, fun _ => rfl⟩
    simpa [and_assoc] using h

/-- The value is the key of the transaction's audit record. -/
def Written.Audit (d : Dialect) (w : Written) : Prop := w.Holds d fun s => s.source = .audit

theorem audit_holds (c : String) : Adds Builder.binds (P.audit ent) fun t l =>
    Written.Audit P.d ⟨c, t, l⟩ := by
  refine .lift_bind fun col _ => (typed_holds _).mono fun t l h => h.mono ?_
  rintro _ rfl
  rfl

theorem auditAssignment_listed : Adds Builder.binds (P.auditAssignment ent) (Listed P.setView
    (Only (ent.auditColumn ≠ "") fun w => w.column = ent.auditColumn ∧ w.Audit P.d)) := by
  refine .ite (fun hc => .pure (listed_nil ⟨fun h => absurd hc h, fun _ => rfl⟩)) fun hc => ?_
  refine (audit_holds ent.auditColumn).bind fun t l h => .pure (listed_one
    (w := ⟨ent.auditColumn, t, l⟩) rfl (List.append_nil l) ?_)
  exact ⟨fun _ => ⟨_, rfl, rfl, h⟩, fun hn => absurd hc hn⟩

theorem updatedAssignment_listed (set : List Assignment) :
    Adds Builder.binds (P.updatedAssignment ent set) (Listed P.setView
      (Only (ent.updated ≠ "" ∧ assigned set ent.updated = false) fun w =>
        w.column = ent.updated)) := by
  refine .ite (fun hc => .lift_bind fun col _ => ?_) fun hc => .pure (listed_nil ?_)
  · refine (Planner.clock_writes col).bind fun t l _ => .pure (listed_one
      (w := ⟨ent.updated, t, l⟩) rfl (List.append_nil l) ?_)
    have hc' : ent.updated ≠ "" ∧ assigned set ent.updated = false := by simpa using hc
    exact ⟨fun _ => ⟨_, rfl, rfl⟩, fun hn => absurd hc' hn⟩
  · refine ⟨fun h => absurd ?_ hc, fun _ => rfl⟩
    simpa using h

end Lists

section Statements
variable {P : Planner} {ent : Entity} {r : Request}

/-- The key version that a set of assignments takes along. -/
def TakesVersion (ent : Entity) (set : List Assignment) : Prop :=
  ent.aesVersion ≠ "" ∧ assignsAES ent set = true

/-- The parts of a SET list: the assignments with their blind indexes, the key version, the
clock columns, the audit column and the identity that an upsert reports. -/
structure SetParts where
  own : List Written
  version : List Written
  stamp : List Written
  audit : List Written
  refresh : List Written

def SetParts.all (x : SetParts) : List Written :=
  x.own ++ x.version ++ x.stamp ++ x.audit ++ x.refresh

/-- The SET list of the assignments `input`, with the clock columns and the refreshed ones. -/
structure SetParts.Of (x : SetParts) (P : Planner) (ent : Entity) (input : List Assignment)
    (stamp refresh : List String) (sourced : List (Assignment × Nat)) : Prop where
  derives : addBlindIndexAssignments ent input = .ok sourced
  checked : validateAESAssignments ent (sourced.map Prod.fst) true = .ok ⟨⟩
  own : List.Forall₂ (Gives P ent) (sourced.map Prod.fst) x.own
  version : Only (TakesVersion ent (sourced.map Prod.fst))
    (fun w => w.column = ent.aesVersion ∧ w.Version P.d) x.version
  stamp : x.stamp.map Written.column = stamp
  audit : Only (ent.auditColumn ≠ "") (fun w => w.column = ent.auditColumn ∧ w.Audit P.d) x.audit
  refresh : x.refresh.map Written.column = refresh ∧ ∀ w ∈ x.refresh, w.slots = []

/-- The parts of a row of an INSERT, in the order of its columns. -/
structure RowParts where
  own : List Written
  version : List Written
  audit : List Written
  stamp : List Written

def RowParts.all (x : RowParts) : List Written := x.own ++ x.version ++ x.audit ++ x.stamp

/-- The columns that default to now and that an insert writes itself. -/
def stampColumns (d : Dialect) (ent : Entity) (set : List Assignment) : List String :=
  if d.hostNow then (ent.fields.filter fun f => f.defaultNow && !assigned set f.name).map Field.name
  else []

/-- A row that gives the values of the assignments `values`, which assign the columns of `set`. -/
structure RowParts.Of (x : RowParts) (P : Planner) (ent : Entity) (set values : List Assignment) :
    Prop where
  own : List.Forall₂ (Gives P ent) values x.own
  version : Only (ent.aesVersion ≠ "" ∧ assigned set ent.aesVersion = false)
    (fun w => w.column = ent.aesVersion ∧ w.Version P.d) x.version
  audit : Only (ent.auditColumn ≠ "") (fun w => w.column = ent.auditColumn ∧ w.Audit P.d) x.audit
  stamp : x.stamp.map Written.column = stampColumns P.d ent set

/-- The assignments of one more row: each takes the parameter of its source. -/
def rowSet (sourced : List (Assignment × Nat)) (row : List Int) : List Assignment :=
  sourced.map fun x => ⟨x.1.column, row.toArray[x.2]?, false, none, none⟩

/-- What a statement assigns: the column list and the rows of an INSERT with the SET list of an
upsert, or the SET list of an UPDATE. -/
structure Assigned where
  columns : List String
  rows : List RowParts
  sets : Option SetParts

def valuesText : List RowParts → Text
  | [] => []
  | row :: rows => .paren (commaSep (row.all.map Written.value)) :: rows.flatMap fun row =>
      [.comma, .paren (commaSep (row.all.map Written.value))]

/-- The update of an upsert. -/
def upsertText (P : Planner) (conflict : List String) : Option SetParts → Text
  | none => []
  | some sets => P.d.upsert conflict (commaSep (sets.all.map P.setView))

/-- The statement and its slots are those of what it assigns. -/
inductive Assigned.Emitted (P : Planner) (ent : Entity) (x : Assigned) (sql : Text)
    (slots : List (BindSlot × Nat)) : Prop where
  | insert (conflict : List String) (returning : Text)
    (hreturning : returning = [] ∨ ∃ c, returning = [.word "RETURNING", .ident (P.d.quote c)])
    (hsql : sql = [.word "INSERT INTO", .ident (P.d.quote ent.table),
      .paren (commaSep (x.columns.map fun c => [.ident (P.d.quote c)])), .word "VALUES"] ++
      valuesText x.rows ++ upsertText P conflict x.sets ++ returning)
    (hslots : slots = x.rows.flatMap (fun row => row.all.flatMap Written.slots) ++
      x.sets.toList.flatMap fun sets => sets.all.flatMap Written.slots)
  | update (sets : SetParts) (where_ : Text) (rest : List (BindSlot × Nat))
    (hx : x = ⟨[], [], some sets⟩)
    (hsql : sql = [.word "UPDATE", .ident (P.d.quote ent.table), .word "SET"] ++
      commaSep (sets.all.map P.setView) ++ .word "WHERE" :: where_)
    (hslots : slots = sets.all.flatMap Written.slots ++ rest)

/-- The identity column that an upsert reports on a database without RETURNING. -/
def refreshColumns (d : Dialect) (ent : Entity) : List String :=
  if ent.identity ≠ "" ∧ !d.insertReturningId then [ent.identity] else []

def updatedColumns (ent : Entity) (set : List Assignment) : List String :=
  if ent.updated ≠ "" ∧ assigned set ent.updated = false then [ent.updated] else []

/-- What the statement of a request assigns. -/
inductive Assigned.Of (P : Planner) (ent : Entity) (r : Request) : Assigned → Prop where
  | insert {sourced : List (Assignment × Nat)} {rows : List RowParts}
    (hkind : r.kind = .insert)
    (hsourced : addBlindIndexAssignments ent r.set = .ok sourced)
    (hchecked : validateAESAssignments ent (sourced.map Prod.fst) false = .ok ⟨⟩)
    (hrows : List.Forall₂ (fun values row => RowParts.Of row P ent (sourced.map Prod.fst) values)
      (sourced.map Prod.fst :: r.rows.map (rowSet sourced)) rows)
    (hupsert : r.rows ≠ [] ∨ r.onDuplicate = []) :
    Assigned.Of P ent r ⟨(sourced.map Prod.fst).map Assignment.column ++
      (P.managedInsertColumns ent (sourced.map Prod.fst)).map Prod.fst, rows, none⟩
  | upsert {sourced duplicate : List (Assignment × Nat)} {row : RowParts} {sets : SetParts}
    (hkind : r.kind = .insert)
    (hsourced : addBlindIndexAssignments ent r.set = .ok sourced)
    (hchecked : validateAESAssignments ent (sourced.map Prod.fst) false = .ok ⟨⟩)
    (hrow : row.Of P ent (sourced.map Prod.fst) (sourced.map Prod.fst))
    (hrows : r.rows = []) (hduplicate : r.onDuplicate ≠ [])
    (hsets : sets.Of P ent r.onDuplicate [] (refreshColumns P.d ent) duplicate) :
    Assigned.Of P ent r ⟨(sourced.map Prod.fst).map Assignment.column ++
      (P.managedInsertColumns ent (sourced.map Prod.fst)).map Prod.fst, [row], some sets⟩
  | update {sourced : List (Assignment × Nat)} {sets : SetParts} (hkind : r.kind = .update)
    (hsets : sets.Of P ent r.set (updatedColumns ent r.set) [] sourced) :
    Assigned.Of P ent r ⟨[], [], some sets⟩
  | restore {parts : RestoreParts} {sourced : List (Assignment × Nat)} {sets : SetParts}
    (hkind : r.kind = .restore) (hparts : restoreKey ent r = .ok parts)
    (hsets : sets.Of P ent parts.set [ent.softDelete] [] sourced) :
    Assigned.Of P ent r ⟨[], [], some sets⟩

/-- The checked set assigns no key version of its own. -/
theorem checked_version {set : List Assignment} {complete : Bool}
    (h : validateAESAssignments ent set complete = .ok ⟨⟩) (hv : ent.aesVersion ≠ "") :
    assigned set ent.aesVersion = false := by
  rw [validateAESAssignments, if_neg hv] at h
  obtain ⟨_, hrefuse, -⟩ := ok_bind.mp h
  simpa using ok_refuse hrefuse

theorem table_text : Adds Builder.binds (Build.table P.d ent) fun t l =>
    t = [.ident (P.d.quote ent.table)] ∧ l = [] := by
  intro b t b' hr
  obtain ⟨rfl, rfl⟩ : _ = t ∧ _ = b' := by simpa [Build.table, pure, Except.pure] using hr
  exact ⟨[], (List.append_nil _).symm, rfl, rfl⟩

theorem insertRow_listed (sourced : List (Assignment × Nat)) (row : List Int) :
    Adds Builder.binds (P.insertRow ent sourced row)
      (Listed Written.value (List.Forall₂ (Gives P ent) (rowSet sourced row))) := by
  have hone : ∀ x ∈ sourced, Adds Builder.binds (do
      let col ← present (fieldOf ent x.1.column) s!"column {x.1.column}"
      let p ← present row.toArray[x.2]? s!"the parameter of {x.1.column} in a row"
      P.renderAssign ent col ⟨x.1.column, some p, false, none, none⟩ : Build Text) fun t l =>
        ∃ w, t = w.value ∧ l = w.slots ∧
          Gives P ent ⟨x.1.column, row.toArray[x.2]?, false, none, none⟩ w := by
    refine fun x _ => .lift_bind fun col hcol => .lift_bind fun p hp => ?_
    rw [Planner.present_some hp]
    have hfield : fieldOf ent (Assignment.mk x.1.column (some p) false none none).column = some col :=
      Planner.present_some hcol
    exact (renderAssign_gives hfield).mono fun t l h => ⟨⟨x.1.column, t, l⟩, rfl, rfl, h⟩
  refine (Adds.mapM hone).mono fun ts l h => (listed_inTurn h).mono fun ws hws => ?_
  rw [rowSet, List.forall₂_map_left_iff]
  exact hws

theorem mapM_append_listed {α : Type} {A B : List Written → Prop} {f : α → Build Text}
    {xs ys : List α} (hx : Adds Builder.binds (xs.mapM f) (Listed Written.value A))
    (hy : Adds Builder.binds (ys.mapM f) (Listed Written.value B)) :
    Adds Builder.binds ((xs ++ ys).mapM f) (Listed Written.value fun ws =>
      ∃ us vs, ws = us ++ vs ∧ A us ∧ B vs) := by
  rw [List.mapM_append]
  refine hx.bind fun ts l hl => hy.bind fun us m hm => .pure ?_
  rw [List.append_nil]
  exact hl.append hm

/-- What an insert writes besides the assignments. -/
theorem managed_listed (set : List Assignment) :
    Adds Builder.binds ((P.managedInsertColumns ent set).mapM Prod.snd) (Listed Written.value
      fun ws => ∃ us stamp, ws = us ++ stamp ∧ (∃ version audit, us = version ++ audit ∧
        Only (ent.aesVersion ≠ "" ∧ assigned set ent.aesVersion = false)
          (fun w => w.column = ent.aesVersion ∧ w.Version P.d) version ∧
        Only (ent.auditColumn ≠ "") (fun w => w.column = ent.auditColumn ∧ w.Audit P.d) audit) ∧
        stamp.map Written.column = stampColumns P.d ent set) := by
  have hone {name : String} {x : Build Text} {A : Text → List (BindSlot × Nat) → Prop}
      {B : List Written → Prop} (hx : Adds Builder.binds x A)
      (hB : ∀ t l, A t l → B [⟨name, t, l⟩]) :
      Adds Builder.binds ([(name, x)].mapM Prod.snd) (Listed Written.value B) := by
    rw [List.mapM_cons, List.mapM_nil]
    refine hx.bind fun t l hl => .pure ?_
    exact listed_one (w := ⟨name, t, l⟩) rfl (List.append_nil l) (hB t l hl)
  refine mapM_append_listed (mapM_append_listed ?_ ?_) ?_
  · split
    · rename_i hc
      refine hone (.lift_bind fun col _ => config_version P.d ent.aesVersion col.type)
        fun t l h => ?_
      have hc' : ent.aesVersion ≠ "" ∧ assigned set ent.aesVersion = false := by simpa using hc
      exact ⟨fun _ => ⟨_, rfl, rfl, h⟩, fun hn => absurd hc' hn⟩
    · rename_i hc
      refine .pure (listed_nil ⟨fun h => absurd ?_ hc, fun _ => rfl⟩)
      simpa using h
  · split
    · rename_i hc
      exact hone (audit_holds ent.auditColumn) fun t l h =>
        ⟨fun _ => ⟨_, rfl, rfl, h⟩, fun hn => absurd hc hn⟩
    · rename_i hc
      exact .pure (listed_nil ⟨fun h => absurd h hc, fun _ => rfl⟩)
  · unfold stampColumns
    split
    · rw [List.mapM_map]
      have hnow (f : Field) : Adds Builder.binds (Build.now P.d f.precision) fun t l =>
          ∃ w, t = Written.value w ∧ l = w.slots ∧ f.name = w.column :=
        (Build.now_writes f.precision).mono fun t l _ => ⟨⟨f.name, t, l⟩, rfl, rfl, rfl⟩
      refine (Adds.mapM fun f _ => hnow f).mono fun ts l h => (listed_inTurn h).mono fun ws hws => ?_
      rw [eq_comm, ← List.forall₂_eq_eq_eq, List.forall₂_map_left_iff, List.forall₂_map_right_iff]
      exact hws
    · exact .pure (listed_nil rfl)

/-- One row of an INSERT from the texts of its assignments and of the managed columns. -/
theorem Listed.row {set values : List Assignment} {ts us : List Text}
    {l m : List (BindSlot × Nat)}
    (h : Listed Written.value (List.Forall₂ (Gives P ent) values) ts l)
    (h' : Listed Written.value (fun ws => ∃ us stamp, ws = us ++ stamp ∧
      (∃ version audit, us = version ++ audit ∧
        Only (ent.aesVersion ≠ "" ∧ assigned set ent.aesVersion = false)
          (fun w => w.column = ent.aesVersion ∧ w.Version P.d) version ∧
        Only (ent.auditColumn ≠ "") (fun w => w.column = ent.auditColumn ∧ w.Audit P.d) audit) ∧
        stamp.map Written.column = stampColumns P.d ent set) us m) :
    ∃ row : RowParts, row.Of P ent set values ∧ ts ++ us = row.all.map Written.value ∧
      l ++ m = row.all.flatMap Written.slots := by
  obtain ⟨own, rfl, rfl, hown⟩ := h
  obtain ⟨_, rfl, rfl, _, stamp, rfl, ⟨version, audit, rfl, hversion, haudit⟩, hstamp⟩ := h'
  refine ⟨⟨own, version, audit, stamp⟩, ⟨hown, hversion, haudit, hstamp⟩, ?_, ?_⟩
  · simp [RowParts.all]
  · simp [RowParts.all]

theorem rows_assigned (sourced : List (Assignment × Nat)) (set : List Assignment)
    (rows : List (List Int)) :
    Adds Builder.binds (rows.mapM fun row => do
      let vals ← P.insertRow ent sourced row
      let more ← (P.managedInsertColumns ent set).mapM Prod.snd
      pure ([.comma, .paren (commaSep (vals ++ more))] : Text)) fun ts l => ∃ ws : List RowParts,
        List.Forall₂ (fun values row => RowParts.Of row P ent set values)
          (rows.map (rowSet sourced)) ws ∧
        ts.flatten = ws.flatMap (fun row => [.comma, .paren (commaSep (row.all.map Written.value))]) ∧
        l = ws.flatMap fun row => row.all.flatMap Written.slots := by
  have hone (row : List Int) : Adds Builder.binds (do
      let vals ← P.insertRow ent sourced row
      let more ← (P.managedInsertColumns ent set).mapM Prod.snd
      pure ([.comma, .paren (commaSep (vals ++ more))] : Text)) fun t l => ∃ x : RowParts,
        x.Of P ent set (rowSet sourced row) ∧
        t = [.comma, .paren (commaSep (x.all.map Written.value))] ∧
        l = x.all.flatMap Written.slots := by
    refine (insertRow_listed sourced row).bind fun vals l hl => ?_
    refine (managed_listed set).bind fun more m hm => .pure ?_
    obtain ⟨x, hx, htext, hslots⟩ := hl.row hm
    exact ⟨x, hx, by rw [htext], by rw [List.append_nil, hslots]⟩
  refine (Adds.mapM fun row _ => hone row).mono fun ts l h => ?_
  clear hone
  induction h with
  | nil => exact ⟨[], .nil, rfl, rfl⟩
  | cons head _ ih =>
    obtain ⟨x, hx, rfl, rfl⟩ := head
    obtain ⟨ws, hws, htext, hslots⟩ := ih
    refine ⟨x :: ws, .cons hx hws, ?_, ?_⟩
    · rw [List.flatten_cons, htext, List.flatMap_cons]
    · rw [hslots, List.flatMap_cons]

/-- The SET list from the texts of its parts. -/
theorem Listed.sets {input : List Assignment} {stamp refresh : List String}
    {sourced : List (Assignment × Nat)} {ts us vs ws xs : List Text}
    {k l m n o : List (BindSlot × Nat)}
    (hsourced : addBlindIndexAssignments ent input = .ok sourced)
    (hchecked : validateAESAssignments ent (sourced.map Prod.fst) true = .ok ⟨⟩)
    (hown : Listed P.setView (List.Forall₂ (Gives P ent) (sourced.map Prod.fst)) ts k)
    (hversion : Listed P.setView (Only (TakesVersion ent (sourced.map Prod.fst))
      fun w => w.column = ent.aesVersion ∧ w.Version P.d) us l)
    (hstamp : Listed P.setView (fun ws => ws.map Written.column = stamp) vs m)
    (haudit : Listed P.setView (Only (ent.auditColumn ≠ "") fun w =>
      w.column = ent.auditColumn ∧ w.Audit P.d) ws n)
    (hrefresh : Listed P.setView (fun ws => ws.map Written.column = refresh ∧
      ∀ w ∈ ws, w.slots = []) xs o) :
    ∃ sets : SetParts, sets.Of P ent input stamp refresh sourced ∧
      ts ++ us ++ vs ++ ws ++ xs = sets.all.map P.setView ∧
      k ++ l ++ m ++ n ++ o = sets.all.flatMap Written.slots := by
  obtain ⟨own, rfl, rfl, hown⟩ := hown
  obtain ⟨version, rfl, rfl, hversion⟩ := hversion
  obtain ⟨stamped, rfl, rfl, hstamp⟩ := hstamp
  obtain ⟨audit, rfl, rfl, haudit⟩ := haudit
  obtain ⟨refreshed, rfl, rfl, hrefresh⟩ := hrefresh
  refine ⟨⟨own, version, stamped, audit, refreshed⟩,
    ⟨hsourced, hchecked, hown, hversion, hstamp, haudit, hrefresh⟩, ?_, ?_⟩
  · simp [SetParts.all]
  · simp [SetParts.all]

/-- A checked set takes the key version along exactly when it assigns an AES column. -/
theorem only_version {set : List Assignment} {complete : Bool} {A : Written → Prop}
    {ws : List Written} (h : validateAESAssignments ent set complete = .ok ⟨⟩)
    (hws : Only (ent.aesVersion ≠ "" ∧ assignsAES ent set = true ∧
      assigned set ent.aesVersion = false) A ws) : Only (TakesVersion ent set) A ws :=
  ⟨fun hc => hws.1 ⟨hc.1, hc.2, checked_version h hc.1⟩,
    fun hc => hws.2 fun hc' => hc ⟨hc'.1, hc'.2.1⟩⟩

theorem onDuplicate_assigned (set : List Assignment) (input : List Assignment) :
    Adds Builder.binds (P.onDuplicate ent set input) fun t l => ∃ conflict duplicate sets,
      SetParts.Of sets P ent input [] (refreshColumns P.d ent) duplicate ∧
      t = P.d.upsert conflict (commaSep (sets.all.map P.setView)) ∧
      l = sets.all.flatMap Written.slots := by
  refine .lift_bind fun duplicate hduplicate => .lift_bind fun _ hchecked => ?_
  refine (setTexts_listed _).bind fun sets k hk => ?_
  refine (versionAssignment_listed _).bind fun version l hl => ?_
  refine auditAssignment_listed.bind fun op n hn => .lift_bind fun conflict _ => .pure ?_
  have hstamp : Listed P.setView (fun ws => ws.map Written.column = []) [] [] := listed_nil rfl
  have hrefresh : Listed P.setView (fun ws => ws.map Written.column = refreshColumns P.d ent ∧
      ∀ w ∈ ws, w.slots = []) (if ent.identity ≠ "" ∧ !P.d.insertReturningId then
        [P.setText ent.identity [.call "LAST_INSERT_ID" [.ident (P.d.quote ent.identity)]]]
      else []) [] := by
    unfold refreshColumns
    split
    · exact listed_one (w := ⟨ent.identity, _, []⟩) rfl rfl ⟨rfl, by simp⟩
    · exact listed_nil ⟨rfl, by simp⟩
  obtain ⟨x, hx, htext, hslots⟩ := Listed.sets hduplicate hchecked hk
    (hl.mono fun ws => only_version hchecked) hstamp hn hrefresh
  refine ⟨conflict, duplicate, x, hx, ?_, ?_⟩
  · rw [← htext, List.append_nil]
  · rw [← hslots]
    simp

/-- What a write statement assigns, for its text and its slots. -/
def EmitsOf (P : Planner) (r : Request) (sql : Text) (slots : List (BindSlot × Nat)) : Prop :=
  ∃ ent x, entityOf P.m r.query.entity = some ent ∧ Assigned.Of P ent r x ∧
    x.Emitted P ent sql slots

/-- The key that an insert returns, after the text `sql`. -/
theorem returning_text (sql : Text) : Adds Builder.binds (do
    let returning ← if P.d.insertReturningId && ent.identity ≠ "" then
        pure [.word "RETURNING", .ident (P.d.quote ent.identity)]
      else if P.assigns && allocatedKey ent then do
        let pk ← present ent.primaryKey.head? "the primary key"
        pure [.word "RETURNING", .ident (P.d.quote pk)]
      else pure []
    pure (sql ++ returning) : Build Text) fun t l => l = [] ∧ ∃ returning : Text,
      (returning = [] ∨ ∃ c, returning = [.word "RETURNING", .ident (P.d.quote c)]) ∧
      t = sql ++ returning := by
  dsimp only
  split
  · exact .pure ⟨rfl, _, .inr ⟨_, rfl⟩, rfl⟩
  · split
    · exact .lift_bind fun pk _ => .pure ⟨rfl, _, .inr ⟨pk, rfl⟩, rfl⟩
    · exact .pure ⟨rfl, _, .inl rfl, rfl⟩

theorem insertText_assigned (hk : r.kind = .insert) :
    Adds Builder.binds (P.insertText r) (EmitsOf P r) := by
  refine .lift_bind fun ent hent => .lift_bind fun sourced hsourced => ?_
  refine .lift_bind fun _ hchecked => .lift_bind fun _ _ => ?_
  dsimp only
  split
  · exact .error fun _ _ h => by cases h
  have hvals : Adds Builder.binds ((sourced.map Prod.fst).mapM fun a => do
      let col ← Planner.columnIn ent a.column
      if col.identity && !r.load then
        throw (.orm .irInvalid s!"cannot set identity column {a.column}")
      P.renderAssign ent col a : Build (List Text))
      (Listed Written.value (List.Forall₂ (Gives P ent) (sourced.map Prod.fst))) := by
    refine (Adds.mapM fun a _ => .lift_bind fun col hcol => ?_).mono fun ts l => listed_inTurn
    dsimp only
    split
    · exact .error fun _ _ h => by cases h
    · exact (renderAssign_gives (Planner.present_some hcol)).mono fun t l h =>
        ⟨⟨a.column, t, l⟩, rfl, rfl, h⟩
  refine hvals.bind fun vals l hl => (managed_listed _).bind fun more m hm => ?_
  obtain ⟨row, hrow, htext, hslots⟩ := hl.row hm
  rw [htext]
  refine table_text.bind ?_
  rintro _ _ ⟨rfl, rfl⟩
  split
  · rename_i hrows
    refine (rows_assigned sourced _ r.rows).bind fun ts n hn => .pure ?_
    obtain ⟨ws, hws, htexts, rfl⟩ := hn
    refine ⟨ent, _, Planner.present_some hent, .insert hk hsourced hchecked (.cons hrow hws)
      (.inl hrows), .insert [] [] (.inl rfl) ?_ ?_⟩
    · rw [htexts]
      simp [valuesText, upsertText]
    · rw [← List.append_assoc l, hslots]
      simp
  · rename_i hrows
    have hrows : r.rows = [] := by simpa using hrows
    split
    · rename_i hdup
      refine (returning_text _).mono ?_
      rintro _ _ ⟨rfl, returning, hreturning, rfl⟩
      have hws : List.Forall₂ (fun values row => RowParts.Of row P ent (sourced.map Prod.fst) values)
          (sourced.map Prod.fst :: r.rows.map (rowSet sourced)) [row] := by
        rw [hrows]
        exact .cons hrow .nil
      refine ⟨ent, _, Planner.present_some hent, .insert hk hsourced hchecked hws (.inr hdup),
        .insert [] returning hreturning ?_ ?_⟩
      · simp [valuesText, upsertText]
      · rw [← List.append_assoc l, hslots]
        simp
    · rename_i hdup
      refine (onDuplicate_assigned _ _).bind fun t n hn => ?_
      obtain ⟨conflict, duplicate, sets, hsets, rfl, rfl⟩ := hn
      refine (returning_text _).mono ?_
      rintro _ _ ⟨rfl, returning, hreturning, rfl⟩
      refine ⟨ent, _, Planner.present_some hent, .upsert hk hsourced hchecked hrow hrows hdup hsets,
        .insert conflict returning hreturning ?_ ?_⟩
      · simp [valuesText, upsertText]
      · rw [← List.append_assoc l, hslots]
        simp

theorem updateText_assigned (hk : r.kind = .update) :
    Adds Builder.binds (P.updateText r) (EmitsOf P r) := by
  refine .lift_bind fun ent hent => .lift_bind fun sourced hsourced => .lift_bind fun _ hchecked => ?_
  refine .lift_bind fun _ _ => (setTexts_listed _).bind fun own k hown => ?_
  refine (versionAssignment_listed _).bind fun version l hversion => ?_
  refine (updatedAssignment_listed _).bind fun updated m hupdated => ?_
  refine auditAssignment_listed.bind fun op n haudit => ?_
  refine (Planner.writeWhere_writes _ _).bind fun where_ o _ => ?_
  refine (mapM_writes fun o _ => Planner.optimisticCondition_writes o).bind fun opt p _ => ?_
  refine table_text.bind ?_
  rintro _ _ ⟨rfl, rfl⟩
  have hstamp : Listed P.setView (fun ws => ws.map Written.column = updatedColumns ent r.set)
      updated m := by
    refine hupdated.mono fun ws hws => ?_
    unfold updatedColumns
    split
    · rename_i hc
      obtain ⟨w, rfl, hw⟩ := hws.1 hc
      rw [List.map_singleton, hw]
    · rename_i hc
      rw [hws.2 hc]
      rfl
  have hrefresh : Listed P.setView (fun ws => ws.map Written.column = [] ∧
      ∀ w ∈ ws, w.slots = []) [] [] := listed_nil ⟨rfl, by simp⟩
  obtain ⟨sets, hsets, htext, hslots⟩ := Listed.sets hsourced hchecked hown
    (hversion.mono fun ws => only_version hchecked) hstamp haudit hrefresh
  refine .pure ⟨ent, _, Planner.present_some hent, .update hk hsets, .update sets
    (Planner.andWhere where_ (opt ++ P.softDeleteConditions (rootScope r.query ent.table) ent))
    (o ++ p) rfl ?_ ?_⟩
  · rw [← htext]
    simp
  · rw [← hslots]
    simp

theorem restoreText_assigned (hk : r.kind = .restore) :
    Adds Builder.binds (P.restoreText r) (EmitsOf P r) := by
  refine .lift_bind fun ent hent => .lift_bind fun parts hparts => ?_
  refine .lift_bind fun sourced hsourced => .lift_bind fun _ hchecked => .lift_bind fun _ _ => ?_
  refine (setTexts_listed _).bind fun own k hown => ?_
  have hstamp : Listed P.setView (fun ws => ws.map Written.column = [ent.softDelete])
      [P.setText ent.softDelete [.word "NULL"]] [] :=
    listed_one (w := ⟨ent.softDelete, [.word "NULL"], []⟩) rfl rfl rfl
  have hrefresh : Listed P.setView (fun ws => ws.map Written.column = [] ∧
      ∀ w ∈ ws, w.slots = []) [] [] := listed_nil ⟨rfl, by simp⟩
  have hrest {version : List Text} {l : List (BindSlot × Nat)}
      (hversion : Listed P.setView (Only (TakesVersion ent (sourced.map Prod.fst))
        fun w => w.column = ent.aesVersion ∧ w.Version P.d) version l) : Adds Builder.binds (do
        let op ← P.auditAssignment ent
        let where_ ← P.writeWhere (rootScope r.query ent.table) "restore" (some parts.where_)
        let table ← Build.table P.d ent
        pure (.word "UPDATE" :: table ++ .word "SET" ::
          commaSep (own ++ version ++ [P.setText ent.softDelete [.word "NULL"]] ++ op) ++
          .word "WHERE" :: Planner.andWhere where_ [P.qcol (rootScope r.query ent.table)
            ent.softDelete ++ [.word "IS", .word "NOT", .word "NULL"]]) : Build Text) fun t m =>
        EmitsOf P r t (k ++ (l ++ m)) := by
    refine auditAssignment_listed.bind fun op n haudit => ?_
    refine (Planner.writeWhere_writes _ _).bind fun where_ o _ => table_text.bind ?_
    rintro _ _ ⟨rfl, rfl⟩
    obtain ⟨sets, hsets, htext, hslots⟩ := Listed.sets hsourced hchecked hown hversion hstamp haudit
      hrefresh
    refine .pure ⟨ent, _, Planner.present_some hent, .restore hk hparts hsets, .update sets
      (Planner.andWhere where_ [P.qcol (rootScope r.query ent.table) ent.softDelete ++
        [.word "IS", .word "NOT", .word "NULL"]]) o rfl ?_ ?_⟩
    · rw [← htext]
      simp
    · rw [← hslots]
      simp
  dsimp only
  split
  · rename_i hc
    have hc' : TakesVersion ent (sourced.map Prod.fst) := by simpa [TakesVersion] using hc
    refine .lift_bind fun col _ => (config_version P.d ent.aesVersion col.type).bind
      fun value l hl => ?_
    exact hrest (listed_one (w := ⟨ent.aesVersion, value, l⟩) rfl rfl
      ⟨fun _ => ⟨_, rfl, rfl, hl⟩, fun hn => absurd hc' hn⟩)
  · rename_i hc
    refine hrest (listed_nil ⟨fun h => absurd ?_ hc, fun _ => rfl⟩)
    simpa [TakesVersion] using h

/-- The one statement of a compiled insert, update or restore, and what it assigns. -/
theorem compile_assigned {plan : Planner.Plan} (hc : P.compile r = .ok plan)
    (hk : r.kind = .insert ∨ r.kind = .update ∨ r.kind = .restore) :
    ∃ st, plan.steps = [st] ∧ EmitsOf P r st.sql st.bindSlots.zipIdx := by
  obtain ⟨⟨_, steps⟩, hsteps, hc⟩ := ok_bind.mp hc
  obtain rfl : _ = plan := by simpa [pure, Except.pure] using hc
  have hstep {text : Build Text} (htext : Adds Builder.binds text (EmitsOf P r))
      (h : Planner.writeStep text [] = .ok (⟨⟩, steps)) :
      ∃ st, steps = [st] ∧ EmitsOf P r st.sql st.bindSlots.zipIdx := by
    obtain ⟨⟨sql, b⟩, hrun, h⟩ := ok_bind.mp h
    obtain ⟨new, hnew, hemits⟩ := htext _ _ _ hrun
    obtain rfl : b.binds = new := hnew
    obtain rfl : _ = steps := by simpa [pure, Except.pure] using h
    exact ⟨_, rfl, hemits⟩
  rcases hk with hk | hk | hk
  · rw [Planner.requestSteps, hk] at hsteps
    exact hstep (insertText_assigned hk) hsteps
  · rw [Planner.requestSteps, hk] at hsteps
    exact hstep (updateText_assigned hk) hsteps
  · rw [Planner.requestSteps, hk] at hsteps
    exact hstep (restoreText_assigned hk) hsteps

end Statements

end Orm.Engine
