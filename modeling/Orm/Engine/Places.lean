import Orm.Logic.Adds
import Orm.Sql.Binds
import Orm.Engine.Predicate

/-! The placeholders of a predicate stand for the values of its request, in the order in which
the text holds them. -/
namespace Orm.Engine

open Orm.Sql (Tok Text bindsOf)
open Orm.Sql.Text (commaSep)
open Orm.Logic

/-- A value that a placeholder stands for. -/
inductive Place where
  | param (i : Int)
  | config (name : String)
  | now
  | audit (name : String)
  | parent (step : Nat)
  deriving DecidableEq, Repr

def BindSlot.place (s : BindSlot) : Place :=
  match s.source with
  | .param => .param s.param
  | .config => .config s.name
  | .now => .now
  | .audit => .audit s.name
  | .parent => .parent s.step

/-- The placeholders of the text are those of the added slots, in their order, and the slots stand
for the values `e`. -/
def Shown (d : Dialect) (e : List Place) (t : Text) (l : List (BindSlot × Nat)) : Prop :=
  bindsOf t = l.flatMap (fun x => d.placeholder (x.2 + 1)) ∧ l.map (fun x => x.1.place) = e

/-- A run writes a text whose placeholders stand for the values `e`. -/
abbrev Writes (d : Dialect) (x : Build Text) (e : List Place) : Prop :=
  Adds Builder.binds x (Shown d e)

variable {d : Dialect} {e : List Place} {t : Text} {l : List (BindSlot × Nat)}

theorem shown_nil (h : bindsOf t = []) : Shown d [] t [] := ⟨h, rfl⟩

theorem Shown.of_eq {u : Text} {l' : List (BindSlot × Nat)} (h : Shown d e t l)
    (hu : bindsOf u = bindsOf t) (hl : l' = l) : Shown d e u l' := by
  rw [hl]
  exact ⟨hu.trans h.1, h.2⟩

/-- A text around the placeholders of another one. -/
theorem Shown.same {u : Text} (h : Shown d e t l) (hu : bindsOf u = bindsOf t) :
    Shown d e u (l ++ []) := h.of_eq hu (List.append_nil l)

theorem Shown.append {e' : List Place} {t' u : Text} {l' : List (BindSlot × Nat)}
    (h : Shown d e t l) (h' : Shown d e' t' l') (hu : bindsOf u = bindsOf t ++ bindsOf t') :
    Shown d (e ++ e') u (l ++ l') := by
  refine ⟨?_, ?_⟩
  · rw [hu, h.1, h'.1, List.flatMap_append]
  · rw [List.map_append, h.2, h'.2]

theorem Shown.concat {e' : List Place} {t' : Text} {l' : List (BindSlot × Nat)}
    (h : Shown d e t l) (h' : Shown d e' t' l') : Shown d (e ++ e') (t ++ t') (l ++ l') :=
  h.append h' (Orm.Sql.bindsOf_append t t')

/-- The values of a list written one after the other; `view` is the text of a value. -/
theorem shown_inTurn {α β : Type} {places : α → List Place} (view : β → Text) {as : List α}
    {bs : List β} (h : InTurn (fun a b => Shown d (places a) (view b)) as bs l) :
    Shown d (as.flatMap places) (bs.map view).flatten l := by
  induction h with
  | nil => exact shown_nil rfl
  | cons head tail ih => exact head.append ih (by simp)

theorem mapM_writes {α : Type} {places : α → List Place} {f : α → Build Text} {as : List α}
    (h : ∀ a ∈ as, Writes d (f a) (places a)) :
    Adds Builder.binds (as.mapM f) fun ts l => Shown d (as.flatMap places) ts.flatten l := by
  refine (Adds.mapM h).mono fun ts l hl => ?_
  have hshown := shown_inTurn id hl
  rwa [List.map_id] at hshown

/-- The parameters of a list written one after the other. -/
theorem params_write {f : Int → Build Text} {ps : List Int}
    (h : ∀ i ∈ ps, Writes d (f i) [.param i]) :
    Adds Builder.binds (ps.mapM f) fun ts l => Shown d (ps.map .param) ts.flatten l := by
  refine (mapM_writes h).mono fun ts l hl => ?_
  rwa [← List.map_eq_flatMap] at hl

namespace Build

theorem push_writes (s : BindSlot) : Writes d (push d s) [s.place] := by
  intro b t b' hr
  obtain ⟨rfl, rfl⟩ : _ = t ∧ _ = b' := by simpa [push, pure, Except.pure] using hr
  refine ⟨[s], rfl, ?_, rfl⟩
  cases d <;> simp [Dialect.placeholder]

theorem typed_writes (s : BindSlot) : Writes d (typed d s) [s.place] := by
  intro b t b' hr
  unfold typed at hr
  split at hr
  · exact push_writes s b t b' hr
  · cases hr

theorem param_writes (i : Int) (type : FieldType) : Writes d (param d i type) [.param i] :=
  typed_writes _

theorem colParam_writes (i : Int) (col : Field) (transform : Transform) :
    Writes d (colParam d i col transform) [.param i] := typed_writes _

theorem transformed_writes (i : Int) (transform : Transform) :
    Writes d (transformed d i transform) [.param i] := typed_writes _

theorem now_writes (precision : Nat) : Writes d (now d precision) [.now] := typed_writes _

theorem config_writes (name : String) (type : FieldType) :
    Writes d (config d name type) [.config name] := typed_writes _

theorem parentList_writes (step : Nat) (types : List FieldType) :
    Writes d (parentList d step types) [.parent step] := push_writes _

theorem table_adds (ent : Entity) :
    Adds Builder.binds (table d ent) fun t l => bindsOf t = [] ∧ l = [] := by
  intro b t b' hr
  obtain ⟨rfl, rfl⟩ : _ = t ∧ _ = b' := by simpa [table, pure, Except.pure] using hr
  exact ⟨[], (List.append_nil _).symm, rfl, rfl⟩

theorem nextSub_adds : Adds Builder.binds nextSub fun _ l => l = [] := by
  intro b t b' hr
  obtain ⟨rfl, rfl⟩ : _ = t ∧ _ = b' := by simpa [nextSub, pure, Except.pure] using hr
  exact ⟨[], (List.append_nil _).symm, rfl⟩

/-- The host styles of the slot that was just added do not change what it stands for. -/
theorem styled_writes {x : Build Text} {p : Place} (hx : Writes d x [p]) (styles : List HostStyle)
    {f : Text → Text} (hf : ∀ t, bindsOf (f t) = bindsOf t) :
    Writes d (x >>= fun ph => setHostStyles styles >>= fun _ => pure (f ph)) [p] := by
  intro b t b' hr
  obtain ⟨⟨ph, b₁⟩, hph, hr⟩ := ok_bind.mp hr
  obtain ⟨new, hlog, hbinds, hplaces⟩ := hx b ph b₁ hph
  have hlen := congrArg List.length hplaces
  rw [List.length_map, List.length_zipIdx] at hlen
  obtain ⟨s, rfl⟩ := List.length_eq_one_iff.mp hlen
  obtain ⟨⟨_, b₂⟩, hset, hr⟩ := ok_bind.mp hr
  obtain ⟨rfl, rfl⟩ : f ph = t ∧ b₂ = b' := by simpa [pure, StateT.pure, Except.pure] using hr
  simp only [setHostStyles, hlog, List.getLast?_append, List.getLast?_singleton, Option.some_or,
    Except.ok.injEq, Prod.mk.injEq, true_and] at hset
  subst hset
  refine ⟨[{ s with hostStyles := styles }], by simp, ?_, ?_⟩
  · rw [hf, hbinds]
    rfl
  · simpa [BindSlot.place] using hplaces

end Build

/-- The values of a relative time: its guard and its result each hold the clock and the guarded
argument. -/
def relativePlaces (d : Dialect) (arg : List Place) : List Place :=
  let value := match d with
    | .mysql => arg ++ arg
    | .postgres => .now :: (arg ++ arg)
    | .sqlite => .now :: (arg ++ [.now])
  value ++ value

/-- The values of a function of the clock. -/
def clockPlaces (d : Dialect) (fn : Func) : List Place :=
  match fn.name with
  | .now => if d = .mysql then [] else [.now]
  | .today => if d = .sqlite then [.now] else []
  | .ago _ | .later _ => relativePlaces d (fn.ps.head?.toList.map .param)
  | _ => []

/-- The values of a predicate without a subquery, as its text holds them. -/
def testPlaces (d : Dialect) (t : Test) : List Place :=
  match t.op with
  | .tupleIn | .tupleNotIn => if t.cols = [] then [] else t.ps.map .param
  | .fulltext | .fulltextBoolean => t.p.toList.map .param
  | op => match t.value with
    | some fn => clockPlaces d fn
    | none => match op with
      | .in_ | .notIn => t.ps.map .param
      | .between => (t.ps.take 2).map .param
      | .isNull | .isNotNull | .eqCol | .notEqCol | .gtCol | .gteCol | .ltCol | .lteCol => []
      | _ => t.p.toList.map .param

namespace Dialect

@[simp] theorem bindsOf_cast (x u : Text) : bindsOf (cast x u) = bindsOf x ++ bindsOf u := by
  simp [cast]

@[simp] theorem bindsOf_writeTime (ph : Text) : bindsOf (d.writeTime ph) = bindsOf ph := by
  cases d <;> simp [writeTime]

@[simp] theorem bindsOf_writeUuid (ph : Text) : bindsOf (d.writeUuid ph) = bindsOf ph := by
  cases d <;> simp [writeUuid]

@[simp] theorem bindsOf_writeExpr (ph : Text) (stages : List Stage) :
    bindsOf (d.writeExpr ph stages) = bindsOf ph := by
  cases d with
  | mysql =>
    simp only [writeExpr]
    induction stages generalizing ph with
    | nil => rfl
    | cons s stages ih =>
      rw [List.foldl_cons, ih]
      split <;> simp
  | postgres => rfl
  | sqlite => rfl

@[simp] theorem bindsOf_readExpr (col : Text) (stages : List Stage) :
    bindsOf (d.readExpr col stages) = bindsOf col := by
  cases d with
  | mysql =>
    simp only [readExpr]
    induction stages with
    | nil => rfl
    | cons s stages ih =>
      rw [List.foldr_cons, ← ih]
      split <;> simp
  | postgres => rfl
  | sqlite => rfl

@[simp] theorem bindsOf_readTime (col : Text) (precision : Nat) :
    bindsOf (d.readTime col precision) = bindsOf col := by
  cases d with
  | mysql => simp [readTime]
  | postgres =>
    simp only [readTime]
    split <;> simp
  | sqlite => rfl

@[simp] theorem bindsOf_readUuid (col : Text) : bindsOf (d.readUuid col) = bindsOf col := by
  cases d <;> simp [readUuid]

@[simp] theorem bindsOf_clockOperand (col : Text) (precision : Nat) :
    bindsOf (d.clockOperand col precision) = bindsOf col := by
  cases d with
  | mysql => rfl
  | postgres => rfl
  | sqlite =>
    simp only [clockOperand]
    split
    · rfl
    · split <;> simp

@[simp] theorem bindsOf_asciiLower (x : Text) : bindsOf (asciiLower x) = bindsOf x := by
  unfold asciiLower
  generalize List.range 26 = l
  induction l generalizing x with
  | nil => rfl
  | cons i l ih => simp [ih]

@[simp] theorem bindsOf_like (col ph : Text) :
    bindsOf (d.like col ph) = bindsOf col ++ bindsOf ph := by
  cases d <;> simp [like]

theorem bindsOf_columnFunction {name : FuncName} {col text : Text}
    (h : d.columnFunction name col = some text) : bindsOf text = bindsOf col := by
  unfold columnFunction at h
  split at h <;> cases h <;> simp

@[simp] theorem bindsOf_tupleIn (cols : List Text) (rows : List (List Text)) (negate : Bool) :
    bindsOf (d.tupleIn cols rows negate) =
      (cols.map bindsOf).flatten ++ (rows.map fun row => (row.map bindsOf).flatten).flatten := by
  unfold tupleIn
  cases d <;> cases negate <;> simp [Function.comp_def]

theorem guardInterval_writes {arg : Build Text} (h : Writes d arg e) (unit : Unit)
    {operandCast : Option Text} (hcast : ∀ u, operandCast = some u → bindsOf u = []) :
    Writes d (guardInterval unit operandCast arg) (e ++ e) := by
  refine h.bind fun operand l hl => h.bind fun value l' hl' => .pure ⟨?_, ?_⟩
  · cases operandCast with
    | none => cases unit <;> simp [Unit.bound, hl.1, hl'.1]
    | some u => cases unit <;> simp [Unit.bound, hl.1, hl'.1, hcast u rfl]
  · simp [hl.2, hl'.2]

theorem guardResult_writes {value : Build Text} (h : Writes d value e) :
    Writes d (guardResult value) (e ++ e) := by
  refine h.bind fun tested l hl => h.bind fun result l' hl' => .pure ⟨?_, ?_⟩
  · simp [hl.1, hl'.1]
  · simp [hl.2, hl'.2]

theorem relativeTime_writes {arg now : Build Text} (ha : Writes d arg e) (hn : Writes d now [.now])
    (later : Bool) (unit : Unit) :
    Writes d (d.relativeTime later unit arg now) (relativePlaces d e) := by
  cases d with
  | mysql =>
    refine guardResult_writes ((guardInterval_writes ha unit (by simp)).bind fun i l hl => ?_)
    refine .pure ⟨?_, ?_⟩
    · cases unit <;> cases later <;> simp [Unit.upper, hl.1]
    · simp [hl.2]
  | postgres =>
    refine guardResult_writes (hn.bind fun c l hl => ?_)
    refine (guardInterval_writes ha unit ?_).bind fun i l' hl' => .pure ⟨?_, ?_⟩
    · intro u hu
      cases unit <;> cases hu <;> rfl
    · cases unit <;> simp [hl.1, hl'.1]
    · simp [hl.2, hl'.2]
  | sqlite =>
    refine guardResult_writes (hn.bind fun c l hl => ha.bind fun v l' hl' => ?_)
    refine hn.bind fun f l'' hl'' => .pure ⟨?_, ?_⟩
    · have hfloor : bindsOf (if unit = .month then [.comma, .str "'floor'"] else []) = [] := by
        split <;> rfl
      simp [hl.1, hl'.1, hl''.1, hfloor]
    · simp [hl.2, hl'.2, hl''.2]

/-- What a text that may be missing shows. -/
def ShownOption (d : Dialect) (e : List Place) (o : Option Text) (l : List (BindSlot × Nat)) : Prop :=
  ∀ t, o = some t → Shown d e t l

theorem shownOption_some (h : Shown d e t l) : ShownOption d e (some t) l := by
  intro u hu
  cases hu
  exact h

theorem valueFunction_writes {arg now : Build Text} {fn : Func}
    (ha : Writes d arg (fn.ps.head?.toList.map .param)) (hn : Writes d now [.now]) :
    Adds Builder.binds (d.valueFunction fn.name arg now) (ShownOption d (clockPlaces d fn)) := by
  obtain ⟨name, ps⟩ := fn
  cases name with
  | now =>
    cases d with
    | mysql => exact .pure (shownOption_some (shown_nil rfl))
    | postgres =>
      exact hn.bind fun c l hl => .pure (shownOption_some (hl.same (by simp)))
    | sqlite => exact .map (hn.mono fun c l hl => shownOption_some hl)
  | today =>
    cases d with
    | mysql => exact .pure (shownOption_some (shown_nil rfl))
    | postgres => exact .pure (shownOption_some (shown_nil rfl))
    | sqlite =>
      exact hn.bind fun c l hl => .pure (shownOption_some (hl.same (by simp)))
  | ago unit => exact .map ((relativeTime_writes ha hn false unit).mono fun c l hl => shownOption_some hl)
  | later unit => exact .map ((relativeTime_writes ha hn true unit).mono fun c l hl => shownOption_some hl)
  | dayOfWeek | year | month | date | other => exact .pure fun t ht => by cases ht

theorem containsBinary_writes {col : Text} (hc : bindsOf col = []) {value : Transform → Build Text}
    (h : ∀ transform, Writes d (value transform) e) : Writes d (d.containsBinary col value) e := by
  cases d with
  | mysql =>
    exact (h _).bind fun v l hl => .pure (hl.same (by simp [hc]))
  | postgres =>
    exact (h _).bind fun v l hl => .pure (hl.same (by simp [hc]))
  | sqlite =>
    exact (h _).bind fun v l hl => .pure (hl.same (by simp [hc]))

theorem fulltext_writes {cols : List Text} (hc : ∀ c ∈ cols, bindsOf c = [])
    {value : Transform → Build Text} (h : ∀ transform, Writes d (value transform) e)
    (boolean : Bool) :
    Adds Builder.binds (d.fulltext cols value boolean) (ShownOption d e) := by
  have hcols : (cols.map bindsOf).flatten = [] := by
    simpa using hc
  cases d with
  | mysql =>
    exact (h _).bind fun v l hl => .pure (shownOption_some (hl.same (by simp [hcols])))
  | postgres =>
    have hjoined := Orm.Sql.Text.bindsOf_intercalate [.word "||", .str "' '", .word "||"] rfl
      (cols.map fun c => [.call "coalesce" (c ++ [.comma, .str "''"])])
    have hnone : (cols.map fun c => bindsOf [.call "coalesce" (c ++ [.comma, .str "''"])]).flatten =
        [] := by
      simpa using hc
    rw [List.map_map, Function.comp_def, hnone] at hjoined
    exact (h _).bind fun v l hl => .pure (shownOption_some (hl.same (by simp [hjoined])))
  | sqlite => exact .pure fun t ht => by cases ht

end Dialect

theorem bindsOf_cmp {op : Op} (h : cmp op = .ok t) : bindsOf t = [] := by
  cases op <;> cases h <;> rfl

namespace Planner
variable {P : Planner}

@[simp] theorem bindsOf_qcol (s : Scope) (c : String) : bindsOf (P.qcol s c) = [] := rfl

@[simp] theorem bindsOf_inWords (negate : Bool) : bindsOf (inWords negate) = [] := by
  cases negate <;> rfl

@[simp] theorem bindsOf_writtenValue (col : Field) (ph : Text) :
    bindsOf (P.writtenValue col ph) = bindsOf ph := by
  unfold writtenValue
  dsimp only
  split <;> simp

theorem renderValue_writes (col : Field) (i : Int) : Writes P.d (P.renderValue col i) [.param i] := by
  unfold renderValue
  dsimp only
  split
  · exact Build.styled_writes (Build.colParam_writes i col .none) _ (bindsOf_writtenValue col)
  · exact Build.styled_writes (Build.param_writes i _) _ (bindsOf_writtenValue col)

theorem renderBlindIndexValue_writes (index : Field) (i : Int) :
    Writes P.d (P.renderBlindIndexValue index i) [.param i] :=
  Build.styled_writes (Build.param_writes i _) _ fun _ => rfl

theorem columnFunction_binds {s : Scope} {column : String} {f : Func}
    (h : P.columnFunction s column f = .ok t) : bindsOf t = [] := by
  unfold columnFunction at h
  split at h
  · rename_i text hf
    cases h
    exact Dialect.bindsOf_columnFunction hf
  · cases h

theorem tupleRows_flatten {α : Type} {n : Nat} (hn : n ≠ 0) (ps : List α) :
    (tupleRows n ps).flatten = ps := by
  induction ps using tupleRows.induct n with
  | case1 => simp [tupleRows]
  | case2 a as h => exact absurd h hn
  | case3 a as h ih => simp [tupleRows, h, ih]

theorem tupleRows_length {α : Type} {n : Nat} (ps : List α) :
    ∀ row ∈ tupleRows n ps, row.length ≤ n := by
  induction ps using tupleRows.induct n with
  | case1 => simp [tupleRows]
  | case2 a as h => simp [tupleRows, h]
  | case3 a as h ih =>
    rw [tupleRows, if_neg h]
    refine List.forall_mem_cons.mpr ⟨?_, ih⟩
    simp only [List.length_cons, List.length_take]
    omega

theorem renderTuple_writes (s : Scope) (ent : Entity) (x : Test) :
    Writes P.d (P.renderTuple s ent x) (if x.cols = [] then [] else x.ps.map .param) := by
  unfold renderTuple
  refine (Adds.mapM_lift x.cols).bind ?_
  rintro cols _ ⟨hcols, rfl⟩
  have hlen := hcols.length_eq
  have hrow : ∀ row ∈ tupleRows x.cols.length x.ps,
      Adds Builder.binds ((cols.zip row).mapM fun y => P.renderValue y.1 y.2) fun ts l =>
        Shown P.d ((cols.zip row).flatMap fun y => [.param y.2]) ts.flatten l :=
    fun row _ => mapM_writes fun y _ => renderValue_writes y.1 y.2
  have hrows : Adds Builder.binds ((tupleRows x.cols.length x.ps).mapM fun row => do
      if row.length < cols.length then
        throw (.plain s!"value {x.ps.length + 1} of {x.op.text} is missing")
      (cols.zip row).mapM fun y => P.renderValue y.1 y.2 : Build (List (List Text)))
      fun rows l => Shown P.d ((tupleRows x.cols.length x.ps).flatMap fun row => row.map .param)
        (rows.map List.flatten).flatten l := by
    refine (Adds.mapM fun row hmem => ?_).mono fun rows l hl => shown_inTurn List.flatten hl
    have hle := tupleRows_length x.ps row hmem
    split
    · exact .error fun _ _ h => by cases h
    · rename_i hlt
      refine (hrow row hmem).mono fun ts l hl => ?_
      have hparams : (cols.zip row).flatMap (fun y => [Place.param y.2]) = row.map .param := by
        rw [← List.map_eq_flatMap, ← Function.comp_def Place.param, ← List.map_map,
          List.map_snd_zip (by omega)]
      rwa [hparams] at hl
  refine hrows.bind fun rows l hl => .pure ?_
  have hplaces : ((tupleRows x.cols.length x.ps).flatMap fun row => row.map Place.param) =
      if x.cols = [] then [] else x.ps.map .param := by
    split
    · rename_i hnil
      rw [hnil]
      cases x.ps <;> simp [tupleRows]
    · rename_i hne
      have hpos : x.cols.length ≠ 0 := fun h => hne (List.length_eq_zero_iff.mp h)
      rw [List.flatMap_def, ← List.map_flatten, tupleRows_flatten hpos]
  rw [hplaces] at hl
  refine hl.same ?_
  simp [Function.comp_def]

theorem present_some {α : Type} {value : Option α} {what : String} {a : α}
    (h : present value what = .ok a) : value = some a := by
  cases value with
  | none => cases h
  | some b =>
    cases h
    rfl

theorem renderFulltext_writes (s : Scope) (ent : Entity) (x : Test) :
    Writes P.d (P.renderFulltext s ent x) (x.p.toList.map .param) := by
  unfold renderFulltext
  refine (Dialect.fulltext_writes (e := x.p.toList.map .param) ?_ ?_ _).bind fun o l hl => ?_
  · intro c hc
    obtain ⟨name, _, rfl⟩ := List.mem_map.mp hc
    rfl
  · intro transform
    refine .lift_bind fun i hi => ?_
    rw [present_some hi]
    exact Build.transformed_writes i transform
  · cases o with
    | none => exact .error fun _ _ h => by cases h
    | some text => exact .pure ((hl text rfl).same rfl)

theorem renderClock_writes (s : Scope) (x : Test) (column : String) (col : Field) (fn : Func) :
    Writes P.d (P.renderClock s x column col fn) (clockPlaces P.d fn) := by
  unfold renderClock
  refine (Dialect.valueFunction_writes ?_ (Build.now_writes 6)).bind fun o l hl => ?_
  · refine .lift_bind fun i hi => ?_
    rw [present_some hi]
    exact Build.param_writes i _
  · cases o with
    | none => exact .error fun _ _ h => by cases h
    | some value =>
      refine .lift_bind fun op hop => .pure ((hl value rfl).same ?_)
      split <;> simp [bindsOf_cmp hop]

theorem between_ok {x : Test} {r : Int × Int} (h : between x = .ok r) :
    x.ps.take 2 = [r.1, r.2] := by
  unfold between at h
  split at h
  · rename_i hps
    cases h
    simp [hps]
  · cases h

/-- The operators that compare with one value. -/
theorem testPlaces_cmp {x : Test} (hvalue : x.value = none) (h : cmp x.op = .ok t) :
    testPlaces d x = x.p.toList.map .param := by
  unfold testPlaces
  rw [hvalue]
  cases hop : x.op <;> simp [hop, cmp] at h ⊢

theorem renderFunction_writes (s : Scope) (x : Test) (column : String) (col : Field) (f : Func)
    (hvalue : x.value = none) :
    Writes P.d (P.renderFunction s x column col f) (testPlaces P.d x) := by
  unfold renderFunction
  refine .lift_bind fun fn hfn => ?_
  have hnone := columnFunction_binds hfn
  have hin : Writes P.d (do
      let values ← x.ps.mapM fun i => Build.param P.d i (functionType f.name col.type)
      pure (fn ++ inWords (x.op = .notIn) ++ [.paren (commaSep values)]) : Build Text)
      (x.ps.map .param) := by
    refine (params_write fun i _ => Build.param_writes i _).bind fun values l hl => .pure ?_
    exact hl.same (by simp [hnone])
  split
  · rename_i hop
    simpa [testPlaces, hop, hvalue] using hin
  · rename_i hop
    simpa [testPlaces, hop, hvalue] using hin
  · rename_i hop
    refine .lift_bind fun r hr => ?_
    refine (Build.param_writes r.1 _).bind fun low l hl => ?_
    refine (Build.param_writes r.2 _).bind fun high l' hl' => .pure ?_
    rw [List.append_nil]
    have hplaces : testPlaces P.d x = [.param r.1] ++ [.param r.2] := by
      simp [testPlaces, hop, hvalue, between_ok hr]
    rw [hplaces]
    exact hl.append hl' (by simp [hnone])
  · refine .lift_bind fun op hop => .lift_bind fun i hi => ?_
    rw [testPlaces_cmp hvalue hop, present_some hi]
    exact (Build.param_writes i _).bind fun v l hl => .pure (hl.same (by simp [hnone, bindsOf_cmp hop]))

theorem renderOrdering_writes (s : Scope) (ent : Entity) (x : Test) (column : String)
    (col : Field) : Writes P.d (P.renderOrdering s ent x column col) (x.p.toList.map .param) := by
  have haes : Writes P.d (do
      let index ← blindIndexOf ent col
      let op ← cmp x.op
      let value ← P.renderBlindIndexValue index
        (← (present x.p s!"the value of {x.op.text}" : Except Failure Int))
      pure (P.qcol s col.blindIndex ++ op ++ value) : Build Text) (x.p.toList.map .param) := by
    refine .lift_bind fun index _ => .lift_bind fun op hop => .lift_bind fun i hi => ?_
    rw [present_some hi]
    exact (renderBlindIndexValue_writes index i).bind fun v l hl =>
      .pure (hl.same (by simp [bindsOf_cmp hop]))
  unfold renderOrdering
  dsimp only
  split
  · split
    · exact .error fun _ _ h => by cases h
    · exact haes
  · refine .lift_bind fun op hop => .lift_bind fun i hi => ?_
    rw [present_some hi]
    exact (renderValue_writes col i).bind fun v l hl =>
      .pure (hl.same (by simp [bindsOf_cmp hop]))

theorem renderColumns_writes (s : Scope) (x : Test) (column : String) :
    Writes P.d (P.renderColumns s x column) [] := by
  unfold renderColumns
  refine .lift_bind fun ref _ => .lift_bind fun rs _ => .lift_bind fun rent _ => ?_
  split
  · exact .error fun _ _ h => by cases h
  · refine .lift_bind fun op hop => .pure (shown_nil ?_)
    simp [bindsOf_cmp hop]

theorem renderList_writes (s : Scope) (ent : Entity) (x : Test) (column : String) (col : Field) :
    Writes P.d (P.renderList s ent x column col) (x.ps.map .param) := by
  unfold renderList
  split
  · refine .lift_bind fun index _ => ?_
    refine (params_write fun i _ => renderBlindIndexValue_writes index i).bind fun values l hl => ?_
    exact .pure (hl.same (by simp))
  · refine (params_write fun i _ => renderValue_writes col i).bind fun values l hl => ?_
    exact .pure (hl.same (by simp))

theorem renderPlain_writes (s : Scope) (ent : Entity) (x : Test) (column : String) (col : Field)
    (hvalue : x.value = none) :
    Writes P.d (P.renderPlain s ent x column col) (testPlaces P.d x) := by
  unfold renderPlain
  dsimp only
  split
  iterate 6
    rename_i hop
    simpa [testPlaces, hop, hvalue] using renderOrdering_writes s ent x column col
  iterate 6
    rename_i hop
    simpa [testPlaces, hop, hvalue] using renderColumns_writes s x column
  iterate 2
    rename_i hop
    simpa [testPlaces, hop, hvalue] using renderList_writes s ent x column col
  · rename_i hop
    refine .lift_bind fun r hr => ?_
    refine (renderValue_writes col r.1).bind fun low l hl => ?_
    refine (renderValue_writes col r.2).bind fun high l' hl' => .pure ?_
    rw [List.append_nil]
    have hplaces : testPlaces P.d x = [.param r.1] ++ [.param r.2] := by
      simp [testPlaces, hop, hvalue, between_ok hr]
    rw [hplaces]
    exact hl.append hl' (by simp)
  · rename_i hop
    simpa [testPlaces, hop, hvalue] using Adds.pure (shown_nil (by simp))
  · rename_i hop
    simpa [testPlaces, hop, hvalue] using Adds.pure (shown_nil (by simp))
  · rename_i hop
    refine .lift_bind fun i hi => ?_
    have hplaces : testPlaces P.d x = [.param i] := by
      simp [testPlaces, hop, hvalue, present_some hi]
    rw [hplaces]
    exact (Build.colParam_writes i col _).bind fun v l hl => .pure (hl.same (by simp))
  · rename_i hop
    refine Dialect.containsBinary_writes rfl fun transform => .lift_bind fun i hi => ?_
    have hplaces : testPlaces P.d x = [.param i] := by
      simp [testPlaces, hop, hvalue, present_some hi]
    rw [hplaces]
    exact Build.colParam_writes i col transform
  · exact .error fun _ _ h => by cases h

/-- The values of a predicate; `sub` are those of its subquery. -/
def predicatePlaces (d : Dialect) (x : Test) (sub : Option (List Place)) : List Place :=
  match x.op, sub with
  | .tupleIn, _ | .tupleNotIn, _ | .fulltext, _ | .fulltextBoolean, _ => testPlaces d x
  | _, none => testPlaces d x
  | _, some e => e

theorem renderTest_writes (s : Scope) (x : Test) {sub : Option (Build Text)}
    {e : Option (List Place)} (hsub : Option.Rel (Writes P.d) sub e) :
    Writes P.d (P.renderTest s x sub) (predicatePlaces P.d x e) := by
  unfold renderTest
  refine .lift_bind fun ent _ => ?_
  split
  · rename_i hop
    simpa [predicatePlaces, testPlaces, hop] using renderTuple_writes s ent x
  · rename_i hop
    simpa [predicatePlaces, testPlaces, hop] using renderTuple_writes s ent x
  · rename_i hop
    simpa [predicatePlaces, testPlaces, hop] using renderFulltext_writes s ent x
  · rename_i hop
    simpa [predicatePlaces, testPlaces, hop] using renderFulltext_writes s ent x
  · rename_i hin hnotIn hfull hboolean
    refine .lift_bind fun y _ => ?_
    cases hsub with
    | @some sub e hsub =>
      have hplaces : predicatePlaces P.d x (some e) = e := by
        unfold predicatePlaces
        split <;> simp_all
      rw [hplaces]
      exact hsub.bind fun text l hl => .pure (hl.same (by simp))
    | none =>
      have hplaces : predicatePlaces P.d x none = testPlaces P.d x := by
        unfold predicatePlaces
        split <;> simp_all
      rw [hplaces]
      cases hvalue : x.value with
      | some fn =>
        have hclock : testPlaces P.d x = clockPlaces P.d fn := by
          unfold testPlaces
          split <;> simp_all
        rw [hclock]
        exact renderClock_writes s x _ _ fn
      | none =>
        cases x.fn with
        | some fn => exact renderFunction_writes s x _ _ fn hvalue
        | none => exact renderPlain_writes s ent x _ _ hvalue

end Planner

end Orm.Engine
