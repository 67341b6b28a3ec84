import Orm.Logic.Passes
import Orm.Engine.Order
import Orm.Engine.Request

/-! The walk of a request through its parameter references, in the order in which the canonical
form numbers them. -/
namespace Orm.Engine

open Orm.Logic

/-- What a walk does at a parameter index, at a list that pads, and at a page limit, which may be
the one of the root. -/
structure Visitor (σ ε : Type) where
  index : Int → StateT σ (Except ε) Int
  list : List Int → StateT σ (Except ε) (List Int)
  limit : Bool → Limit → StateT σ (Except ε) Limit

/-- An `in` or `not_in` list without a subquery pads. -/
def pads (op : Op) (sub : Option Subquery) : Bool := (op = .in_ || op = .notIn) && sub.isNone

namespace Visitor
variable {σ ε α : Type} (c : Visitor σ ε)

def optional (f : α → StateT σ (Except ε) α) : Option α → StateT σ (Except ε) (Option α)
  | none => pure none
  | some a => some <$> f a

def ints (ps : List Int) : StateT σ (Except ε) (List Int) := ps.mapM c.index

def fn (f : Func) : StateT σ (Except ε) Func := do
  let ps ← c.ints f.ps
  pure { f with ps }

def assignment (a : Assignment) : StateT σ (Except ε) Assignment := do
  let p ← optional c.index a.p
  let plusP ← optional c.index a.plusP
  let minusP ← optional c.index a.minusP
  pure { a with p, plusP, minusP }

def column (x : String × ColumnFunction) : StateT σ (Except ε) (String × ColumnFunction) := do
  let fn ← c.fn x.2.fn
  pure (x.1, { x.2 with fn })

def order (o : Order) : StateT σ (Except ε) Order := do
  let fn ← optional c.fn o.fn
  pure { o with fn }

def ifParent (i : IfParent) : StateT σ (Except ε) IfParent := do
  let p ← c.index i.p
  pure { i with p }

/-- The members of a query that the walk visits after its relations. -/
def head (root : Bool) (h : Head) : StateT σ (Except ε) Head := do
  let order ← h.order.mapM c.order
  let limit ← optional (c.limit root) h.limit
  let ifParent ← optional c.ifParent h.ifParent
  pure { h with order, limit, ifParent }

def values (pad : Bool) (ps : List Int) : StateT σ (Except ε) (List Int) :=
  if pad then c.list ps else c.ints ps

/-- The members of a predicate that the walk visits before its subquery. -/
def test (pad : Bool) (t : Test) : StateT σ (Except ε) Test := do
  let p ← optional c.index t.p
  let ps ← c.values pad t.ps
  let fn ← optional c.fn t.fn
  let value ← optional c.fn t.value
  pure { t with p, ps, fn, value }

/-- Runs the named walks in the order of their names. -/
def named (l : List (String × StateT σ (Except ε) Subquery)) :
    StateT σ (Except ε) (List NamedSub) :=
  (sortedEntries Prod.fst l).mapM fun x => NamedSub.mk x.1 <$> x.2

mutual
def query (root : Bool) : Query → StateT σ (Except ε) Query
  | .mk h columns on where_ joins relations => do
    let columns ← optProjection columns
    let on ← optGroup on
    let where_ ← optGroup where_
    let joins ← queryJoins joins
    let relations ← queryRelations relations
    let h ← c.head root h
    pure (.mk h columns on where_ joins relations)
termination_by structural q => q

def optProjection : Option Projection → StateT σ (Except ε) (Option Projection)
  | none => pure none
  | some p => some <$> projection p
termination_by structural p => p

def projection : Projection → StateT σ (Except ε) Projection
  | .mk mode add remove fn sub => do
    let fn ← (sortedEntries Prod.fst fn).mapM c.column
    let sub ← named (namedSubs sub)
    pure (.mk mode add remove fn sub)
termination_by structural p => p

def namedSubs : List NamedSub → List (String × StateT σ (Except ε) Subquery)
  | [] => []
  | .mk name sub :: rest => (name, subquery sub) :: namedSubs rest
termination_by structural l => l

def subquery : Subquery → StateT σ (Except ε) Subquery
  | .mk q column agg => do
    let q ← query false q
    pure (.mk q column agg)
termination_by structural s => s

def optGroup : Option Group → StateT σ (Except ε) (Option Group)
  | none => pure none
  | some g => some <$> groupOf g
termination_by structural g => g

def groupOf : Group → StateT σ (Except ε) Group
  | .mk conn not items => do
    let items ← groupItems items
    pure (.mk conn not items)
termination_by structural g => g

def groupItems : List Item → StateT σ (Except ε) (List Item)
  | [] => pure []
  | i :: rest => do
    let i ← item i
    let rest ← groupItems rest
    pure (i :: rest)
termination_by structural l => l

def item : Item → StateT σ (Except ε) Item
  | .mk pred group joined => do
    let pred ← optPredicate pred
    let group ← optGroup group
    pure (.mk pred group joined)
termination_by structural i => i

def optPredicate : Option Predicate → StateT σ (Except ε) (Option Predicate)
  | none => pure none
  | some p => some <$> predicate p
termination_by structural p => p

def predicate : Predicate → StateT σ (Except ε) Predicate
  | .mk t sub => do
    let t ← c.test (pads t.op sub) t
    let sub ← optSubquery sub
    pure (.mk t sub)
termination_by structural p => p

def optSubquery : Option Subquery → StateT σ (Except ε) (Option Subquery)
  | none => pure none
  | some s => some <$> subquery s
termination_by structural s => s

def queryJoins : List Join → StateT σ (Except ε) (List Join)
  | [] => pure []
  | .mk rel kind q left right :: rest => do
    let q ← query false q
    let rest ← queryJoins rest
    pure (.mk rel kind q left right :: rest)
termination_by structural l => l

def queryRelations : List Relation → StateT σ (Except ε) (List Relation)
  | [] => pure []
  | .mk rel q kind keys :: rest => do
    let q ← query false q
    let rest ← queryRelations rest
    pure (.mk rel q kind keys :: rest)
termination_by structural l => l
end

def optimistic (o : Optimistic) : StateT σ (Except ε) Optimistic := do
  let p ← c.index o.p
  pure { o with p }

def request (r : Request) : StateT σ (Except ε) Request := do
  let query ← c.query true r.query
  let set ← r.set.mapM c.assignment
  let onDuplicate ← r.onDuplicate.mapM c.assignment
  let rows ← r.rows.mapM c.ints
  let optimistic ← optional c.optimistic r.optimistic
  pure { r with query, set, onDuplicate, rows, optimistic }

end Visitor

/-- At each reference, `v` after `w` does what `u` does. -/
structure Chases {σ τ υ ε ε₁ ε₂ : Type} (Good : σ → Prop) (I : σ → τ → υ → Prop)
    (w : Visitor σ ε) (v : Visitor τ ε₁) (u : Visitor υ ε₂) : Prop where
  index : ∀ p, Passes Good I (w.index p) v.index (u.index p)
  list : ∀ ps, Passes Good I (w.list ps) v.list (u.list ps)
  limit : ∀ root l, Passes Good I (w.limit root l) (v.limit root) (u.limit root l)

namespace Chases
variable {σ τ υ ε ε₁ ε₂ α : Type} {Good : σ → Prop} {I : σ → τ → υ → Prop}
  {w : Visitor σ ε} {v : Visitor τ ε₁} {u : Visitor υ ε₂}

open Visitor

theorem optional {f : α → StateT σ (Except ε) α} {f₁ : α → StateT τ (Except ε₁) α}
    {f₂ : α → StateT υ (Except ε₂) α} (h : ∀ a, Passes Good I (f a) f₁ (f₂ a)) (o : Option α) :
    Passes Good I (optional f o) (Visitor.optional f₁) (Visitor.optional f₂ o) := by
  cases o with
  | none => exact Passes.pure rfl
  | some a => exact (h a).map fun _ => rfl

variable (h : Chases Good I w v u)
include h

theorem ints (ps : List Int) : Passes Good I (w.ints ps) v.ints (u.ints ps) :=
  Passes.mapM ps fun p _ => h.index p

theorem fn (f : Func) : Passes Good I (w.fn f) v.fn (u.fn f) := by
  have hps := (h.ints f.ps).map (f := fun ps => { f with ps }) (g := fun ps => { f with ps })
    (V := v.fn) fun ps => by simp only [Visitor.fn, map_eq_pure_bind]
  simpa only [Visitor.fn, map_eq_pure_bind] using hps

theorem assignment (a : Assignment) :
    Passes Good I (w.assignment a) v.assignment (u.assignment a) := by
  have hall := (((optional h.index a.p).both (optional h.index a.plusP)).both
    (optional h.index a.minusP)).map
      (f := fun x => { a with p := x.1.1, plusP := x.1.2, minusP := x.2 })
      (g := fun x => { a with p := x.1.1, plusP := x.1.2, minusP := x.2 })
      (V := v.assignment) fun x => by
        simp only [Visitor.assignment, both, map_bind, map_pure, bind_assoc, pure_bind]
  simpa only [Visitor.assignment, both, map_bind, map_pure, bind_assoc, pure_bind] using hall

theorem column (x : String × ColumnFunction) :
    Passes Good I (w.column x) v.column (u.column x) := by
  have hfn := (h.fn x.2.fn).map (f := fun fn => (x.1, { x.2 with fn }))
    (g := fun fn => (x.1, { x.2 with fn })) (V := v.column) fun fn => by
      simp only [Visitor.column, map_eq_pure_bind]
  simpa only [Visitor.column, map_eq_pure_bind] using hfn

theorem order (o : Order) : Passes Good I (w.order o) v.order (u.order o) := by
  have hfn := (optional h.fn o.fn).map (f := fun fn => { o with fn })
    (g := fun fn => { o with fn }) (V := v.order) fun fn => by
      simp only [Visitor.order, map_eq_pure_bind]
  simpa only [Visitor.order, map_eq_pure_bind] using hfn

theorem ifParent (i : IfParent) : Passes Good I (w.ifParent i) v.ifParent (u.ifParent i) := by
  have hp := (h.index i.p).map (f := fun p => { i with p }) (g := fun p => { i with p })
    (V := v.ifParent) fun p => by simp only [Visitor.ifParent, map_eq_pure_bind]
  simpa only [Visitor.ifParent, map_eq_pure_bind] using hp

theorem head (root : Bool) (q : Head) :
    Passes Good I (w.head root q) (v.head root) (u.head root q) := by
  have hall := (((Passes.mapM q.order fun o _ => h.order o).both
    (optional (h.limit root) q.limit)).both (optional h.ifParent q.ifParent)).map
      (f := fun x => { q with order := x.1.1, limit := x.1.2, ifParent := x.2 })
      (g := fun x => { q with order := x.1.1, limit := x.1.2, ifParent := x.2 })
      (V := v.head root) fun x => by
        simp only [Visitor.head, both, map_bind, map_pure, bind_assoc, pure_bind]
  simpa only [Visitor.head, both, map_bind, map_pure, bind_assoc, pure_bind] using hall

theorem values (pad : Bool) (ps : List Int) :
    Passes Good I (w.values pad ps) (v.values pad) (u.values pad ps) := by
  cases pad with
  | true => exact h.list ps
  | false => exact h.ints ps

theorem test (pad : Bool) (t : Test) :
    Passes Good I (w.test pad t) (v.test pad) (u.test pad t) := by
  have hall := ((((optional h.index t.p).both (h.values pad t.ps)).both
    (optional h.fn t.fn)).both (optional h.fn t.value)).map
      (f := fun x => { t with p := x.1.1.1, ps := x.1.1.2, fn := x.1.2, value := x.2 })
      (g := fun x => { t with p := x.1.1.1, ps := x.1.1.2, fn := x.1.2, value := x.2 })
      (V := v.test pad) fun x => by
        simp only [Visitor.test, both, map_bind, map_pure, bind_assoc, pure_bind]
  simpa only [Visitor.test, both, map_bind, map_pure, bind_assoc, pure_bind] using hall

end Chases

section Names
variable {σ ε α β : Type}

theorem namedSubs_eq (c : Visitor σ ε) (l : List NamedSub) :
    c.namedSubs l = l.map fun n => (n.name, c.subquery n.sub) := by
  induction l with
  | nil => rfl
  | cons n l ih =>
    cases n
    rw [Visitor.namedSubs, ih]
    rfl

/-- A walk of one named subquery. -/
def Visitor.namedSub (c : Visitor σ ε) (n : NamedSub) : StateT σ (Except ε) NamedSub :=
  NamedSub.mk n.name <$> c.subquery n.sub

/-- The named subqueries are walked in the order of their names. -/
theorem named_eq (c : Visitor σ ε) (l : List NamedSub) :
    Visitor.named (c.namedSubs l) = (sortedEntries NamedSub.name l).mapM c.namedSub := by
  have hname (n : NamedSub) : (n.name, c.subquery n.sub).1 = n.name := rfl
  rw [Visitor.named, namedSubs_eq, sortedEntries_map hname, List.mapM_map]
  rfl

/-- A walk of entries that keeps their names returns entries in the order of their names. -/
theorem holds_sorted {name : α → String} {f : α → StateT σ (Except ε) α} (l : List α)
    (h : ∀ a, Holds (fun _ => True) (f a) fun b => name b = name a) :
    Holds (fun _ => True) ((sortedEntries name l).mapM f) fun l' => sortedEntries name l' = l' := by
  refine (Holds.mapM (R := fun a b => name b = name a) fun a _ => h a).mono fun l' hl' => ?_
  refine sortedEntries_of_names (n := name) (l := l) ?_
  generalize sortedEntries name l = m at hl'
  induction hl' with
  | nil => rfl
  | cons hname _ ih => rw [List.map_cons, List.map_cons, hname, ih]

theorem holds_column (c : Visitor σ ε) (x : String × ColumnFunction) :
    Holds (fun _ => True) (c.column x) fun y => y.1 = x.1 :=
  Holds.bind (A := fun _ => True) (fun _ _ _ _ _ => ⟨trivial, trivial⟩) fun _ _ => Holds.pure rfl

theorem holds_namedSub (c : Visitor σ ε) (n : NamedSub) :
    Holds (fun _ => True) (c.namedSub n) fun m => m.name = n.name :=
  Holds.map fun _ _ _ _ _ => ⟨trivial, rfl⟩

end Names

section Passes
variable {σ τ υ ε ε₁ ε₂ : Type} {Good : σ → Prop} {I : σ → τ → υ → Prop}
  {w : Visitor σ ε} {v : Visitor τ ε₁} {u : Visitor υ ε₂}

theorem holds_test (c : Visitor σ ε) (pad : Bool) (t : Test) :
    Holds (fun _ => True) (c.test pad t) fun t' => t'.op = t.op := by
  intro s t' s' hr _
  obtain ⟨⟨p, s₁⟩, -, hr⟩ := ok_bind.mp hr
  obtain ⟨⟨ps, s₂⟩, -, hr⟩ := ok_bind.mp hr
  obtain ⟨⟨fn, s₃⟩, -, hr⟩ := ok_bind.mp hr
  obtain ⟨⟨value, s₄⟩, -, hr⟩ := ok_bind.mp hr
  cases hr
  exact ⟨trivial, rfl⟩

namespace Chases
variable (h : Chases Good I w v u)
include h

/-- A walk of a predicate, from those of its test and its subquery. -/
theorem predicate_of {t : Test} {sub : Option Subquery}
    (hsub : Passes Good I (w.optSubquery sub) v.optSubquery (u.optSubquery sub)) :
    Passes Good I (w.predicate (.mk t sub)) v.predicate (u.predicate (.mk t sub)) := by
  have hkeeps : Holds (fun _ => True) (both (w.test (pads t.op sub) t) (w.optSubquery sub))
      fun x => pads x.1.op x.2 = pads t.op sub := by
    refine (holds_test w _ t).bind fun t' ht' => ?_
    cases sub with
    | none => exact Holds.pure (by rw [ht'])
    | some s =>
      refine Holds.bind (A := fun s' => s'.isNone = false) ?_ fun s' hs' => Holds.pure ?_
      · exact Holds.map fun _ _ _ _ _ => ⟨trivial, rfl⟩
      · simp [pads, hs']
  have hall := ((h.test (pads t.op sub) t).both hsub).mapOf hkeeps
    (f := fun x => Predicate.mk x.1 x.2) (g := fun x => Predicate.mk x.1 x.2)
    (V := v.predicate) fun x hx => by
      simp only [Visitor.predicate, both, hx, map_bind, map_pure]
  simpa only [Visitor.predicate, both, map_bind, map_pure, bind_assoc, pure_bind] using hall

/-- A walk of a projection, from those of its subqueries. -/
theorem projection_of {mode : Mode} {add remove : List String}
    {fn : List (String × ColumnFunction)} {sub : List NamedSub}
    (hsub : ∀ n ∈ sub, Passes Good I (w.subquery n.sub) v.subquery (u.subquery n.sub)) :
    Passes Good I (w.projection (.mk mode add remove fn sub)) v.projection
      (u.projection (.mk mode add remove fn sub)) := by
  have hfn := Passes.mapM (sortedEntries Prod.fst fn) fun x _ => h.column x
  have hnamed : Passes Good I ((sortedEntries NamedSub.name sub).mapM w.namedSub)
      (fun l => l.mapM v.namedSub) ((sortedEntries NamedSub.name sub).mapM u.namedSub) :=
    Passes.mapM _ fun n hn => (hsub n ((List.mem_insertionSort _).mp hn)).map fun _ => rfl
  have hsorted : Holds (fun _ => True) (both ((sortedEntries Prod.fst fn).mapM w.column)
      ((sortedEntries NamedSub.name sub).mapM w.namedSub)) fun x =>
      sortedEntries Prod.fst x.1 = x.1 ∧ sortedEntries NamedSub.name x.2 = x.2 :=
    (holds_sorted fn (holds_column w)).bind fun l hl =>
      (holds_sorted sub (holds_namedSub w)).bind fun m hm => Holds.pure ⟨hl, hm⟩
  have hall := (hfn.both hnamed).mapOf hsorted
    (f := fun x => Projection.mk mode add remove x.1 x.2)
    (g := fun x => Projection.mk mode add remove x.1 x.2) (V := v.projection) fun x hx => by
      simp only [Visitor.projection, named_eq, hx.1, hx.2, both, map_bind, map_pure]
  simpa only [Visitor.projection, named_eq, both, map_bind, map_pure] using hall

/-- A walk of a query, from those of its parts. -/
theorem query_of {root : Bool} {q : Head} {columns : Option Projection} {on where_ : Option Group}
    {joins : List Join} {relations : List Relation}
    (hcolumns : Passes Good I (w.optProjection columns) v.optProjection (u.optProjection columns))
    (hon : Passes Good I (w.optGroup on) v.optGroup (u.optGroup on))
    (hwhere : Passes Good I (w.optGroup where_) v.optGroup (u.optGroup where_))
    (hjoins : Passes Good I (w.queryJoins joins) v.queryJoins (u.queryJoins joins))
    (hrelations : Passes Good I (w.queryRelations relations) v.queryRelations
      (u.queryRelations relations)) :
    Passes Good I (w.query root (.mk q columns on where_ joins relations)) (v.query root)
      (u.query root (.mk q columns on where_ joins relations)) := by
  have hall := (((((hcolumns.both hon).both hwhere).both hjoins).both hrelations).both
    (h.head root q)).map
      (f := fun x => Query.mk x.2 x.1.1.1.1.1 x.1.1.1.1.2 x.1.1.1.2 x.1.1.2 x.1.2)
      (g := fun x => Query.mk x.2 x.1.1.1.1.1 x.1.1.1.1.2 x.1.1.1.2 x.1.1.2 x.1.2)
      (V := v.query root) fun x => by
        simp only [Visitor.query, both, map_bind, map_pure, bind_assoc, pure_bind]
  simpa only [Visitor.query, both, map_bind, map_pure, bind_assoc, pure_bind] using hall

omit h

mutual
theorem query (h : Chases Good I w v u) (root : Bool) : (q : Query) →
    Passes Good I (w.query root q) (v.query root) (u.query root q)
  | .mk _ columns on where_ joins relations => h.query_of (h.optProjection columns) (h.optGroup on)
      (h.optGroup where_) (h.queryJoins joins) (h.queryRelations relations)
termination_by structural q => q

theorem optProjection (h : Chases Good I w v u) : (p : Option Projection) →
    Passes Good I (w.optProjection p) v.optProjection (u.optProjection p)
  | none => Passes.pure rfl
  | some p => (h.projection p).map fun _ => rfl
termination_by structural p => p

theorem projection (h : Chases Good I w v u) : (p : Projection) →
    Passes Good I (w.projection p) v.projection (u.projection p)
  | .mk _ _ _ _ sub => h.projection_of (h.namedSubs sub)
termination_by structural p => p

theorem namedSubs (h : Chases Good I w v u) : (l : List NamedSub) → ∀ n ∈ l,
    Passes Good I (w.subquery n.sub) v.subquery (u.subquery n.sub)
  | [] => fun _ hn => absurd hn List.not_mem_nil
  | .mk _ sub :: rest => List.forall_mem_cons.mpr ⟨h.subquery sub, h.namedSubs rest⟩
termination_by structural l => l

theorem subquery (h : Chases Good I w v u) : (s : Subquery) →
    Passes Good I (w.subquery s) v.subquery (u.subquery s)
  | .mk q column agg => by
    have hq := (h.query false q).map (f := fun q => Subquery.mk q column agg)
      (g := fun q => Subquery.mk q column agg) (V := v.subquery) fun q => by
        simp only [Visitor.subquery, map_eq_pure_bind]
    simpa only [Visitor.subquery, map_eq_pure_bind] using hq
termination_by structural s => s

theorem optGroup (h : Chases Good I w v u) : (g : Option Group) →
    Passes Good I (w.optGroup g) v.optGroup (u.optGroup g)
  | none => Passes.pure rfl
  | some g => (h.groupOf g).map fun _ => rfl
termination_by structural g => g

theorem groupOf (h : Chases Good I w v u) : (g : Group) →
    Passes Good I (w.groupOf g) v.groupOf (u.groupOf g)
  | .mk conn not items => by
    have hitems := (h.groupItems items).map (f := fun items => Group.mk conn not items)
      (g := fun items => Group.mk conn not items) (V := v.groupOf) fun items => by
        simp only [Visitor.groupOf, map_eq_pure_bind]
    simpa only [Visitor.groupOf, map_eq_pure_bind] using hitems
termination_by structural g => g

theorem groupItems (h : Chases Good I w v u) : (l : List Item) →
    Passes Good I (w.groupItems l) v.groupItems (u.groupItems l)
  | [] => Passes.pure rfl
  | i :: rest => by
    have hall := ((h.item i).both (h.groupItems rest)).map (f := fun x => x.1 :: x.2)
      (g := fun x => x.1 :: x.2) (V := v.groupItems) fun x => by
        simp only [Visitor.groupItems, both, map_bind, map_pure]
    simpa only [Visitor.groupItems, both, map_bind, map_pure] using hall
termination_by structural l => l

theorem item (h : Chases Good I w v u) : (i : Item) → Passes Good I (w.item i) v.item (u.item i)
  | .mk pred group joined => by
    have hall := ((h.optPredicate pred).both (h.optGroup group)).map
      (f := fun x => Item.mk x.1 x.2 joined) (g := fun x => Item.mk x.1 x.2 joined)
      (V := v.item) fun x => by simp only [Visitor.item, both, map_bind, map_pure]
    simpa only [Visitor.item, both, map_bind, map_pure] using hall
termination_by structural i => i

theorem optPredicate (h : Chases Good I w v u) : (p : Option Predicate) →
    Passes Good I (w.optPredicate p) v.optPredicate (u.optPredicate p)
  | none => Passes.pure rfl
  | some p => (h.predicate p).map fun _ => rfl
termination_by structural p => p

theorem predicate (h : Chases Good I w v u) : (p : Predicate) →
    Passes Good I (w.predicate p) v.predicate (u.predicate p)
  | .mk _ sub => h.predicate_of (h.optSubquery sub)
termination_by structural p => p

theorem optSubquery (h : Chases Good I w v u) : (s : Option Subquery) →
    Passes Good I (w.optSubquery s) v.optSubquery (u.optSubquery s)
  | none => Passes.pure rfl
  | some s => (h.subquery s).map fun _ => rfl
termination_by structural s => s

theorem queryJoins (h : Chases Good I w v u) : (l : List Join) →
    Passes Good I (w.queryJoins l) v.queryJoins (u.queryJoins l)
  | [] => Passes.pure rfl
  | .mk rel kind q left right :: rest => by
    have hall := ((h.query false q).both (h.queryJoins rest)).map
      (f := fun x => Join.mk rel kind x.1 left right :: x.2)
      (g := fun x => Join.mk rel kind x.1 left right :: x.2) (V := v.queryJoins) fun x => by
        simp only [Visitor.queryJoins, both, map_bind, map_pure]
    simpa only [Visitor.queryJoins, both, map_bind, map_pure] using hall
termination_by structural l => l

theorem queryRelations (h : Chases Good I w v u) : (l : List Relation) →
    Passes Good I (w.queryRelations l) v.queryRelations (u.queryRelations l)
  | [] => Passes.pure rfl
  | .mk rel q kind keys :: rest => by
    have hall := ((h.query false q).both (h.queryRelations rest)).map
      (f := fun x => Relation.mk rel x.1 kind keys :: x.2)
      (g := fun x => Relation.mk rel x.1 kind keys :: x.2) (V := v.queryRelations) fun x => by
        simp only [Visitor.queryRelations, both, map_bind, map_pure]
    simpa only [Visitor.queryRelations, both, map_bind, map_pure] using hall
termination_by structural l => l
end

include h

theorem optimistic (o : Optimistic) :
    Passes Good I (w.optimistic o) v.optimistic (u.optimistic o) := by
  have hp := (h.index o.p).map (f := fun p => { o with p }) (g := fun p => { o with p })
    (V := v.optimistic) fun p => by simp only [Visitor.optimistic, map_eq_pure_bind]
  simpa only [Visitor.optimistic, map_eq_pure_bind] using hp

/-- Where `v` after `w` does at each reference what `u` does, so it does over a whole request. -/
theorem request (r : Request) : Passes Good I (w.request r) v.request (u.request r) := by
  have hall := (((((h.query true r.query).both
    (Passes.mapM r.set fun a _ => h.assignment a)).both
    (Passes.mapM r.onDuplicate fun a _ => h.assignment a)).both
    (Passes.mapM r.rows fun row _ => h.ints row)).both
    (optional h.optimistic r.optimistic)).map
      (f := fun x => { r with
        query := x.1.1.1.1, set := x.1.1.1.2, onDuplicate := x.1.1.2, rows := x.1.2,
        optimistic := x.2 })
      (g := fun x => { r with
        query := x.1.1.1.1, set := x.1.1.1.2, onDuplicate := x.1.1.2, rows := x.1.2,
        optimistic := x.2 })
      (V := v.request) fun x => by
        simp only [Visitor.request, both, map_bind, map_pure, bind_assoc, pure_bind]
  simpa only [Visitor.request, both, map_bind, map_pure, bind_assoc, pure_bind] using hall

end Chases

end Passes

end Orm.Engine
