import Orm.Engine.Walk

/-! The places of a request that refer to parameters, read off the request, and what a walk that
visits each of them in turn makes of it. -/
namespace Orm.Engine

open Orm.Logic

/-- A place of a request that refers to parameters: an index, a list that pads, or a page limit,
which may be the one of the root. -/
inductive Site where
  | index (p : Int)
  | list (ps : List Int)
  | limit (root : Bool) (l : Limit)
  deriving DecidableEq, Repr

namespace Sites

def fn (f : Func) : List Site := f.ps.map .index

def assignment (a : Assignment) : List Site :=
  (a.p.toList ++ a.plusP.toList ++ a.minusP.toList).map .index

def order (o : Order) : List Site := o.fn.toList.flatMap fn

def head (root : Bool) (h : Head) : List Site :=
  h.order.flatMap order ++ h.limit.toList.map (.limit root) ++
    h.ifParent.toList.map fun i => .index i.p

def test (pad : Bool) (t : Test) : List Site :=
  t.p.toList.map .index ++ (if pad then [.list t.ps] else t.ps.map .index) ++
    t.fn.toList.flatMap fn ++ t.value.toList.flatMap fn

mutual
/-- The sites of a query: those of its columns and its conditions, of its joins and relations, and
then of its order, limit and parent condition. -/
def query (root : Bool) : Query → List Site
  | .mk h columns on where_ joins relations =>
    optProjection columns ++ optGroup on ++ optGroup where_ ++ queryJoins joins ++
      queryRelations relations ++ head root h
termination_by structural q => q

def optProjection : Option Projection → List Site
  | none => []
  | some p => projection p
termination_by structural p => p

/-- Functions and subqueries by name. -/
def projection : Projection → List Site
  | .mk _ _ _ f sub =>
    (sortedEntries Prod.fst f).flatMap (fun x => fn x.2.fn) ++
      (sortedEntries Prod.fst (namedSubs sub)).flatMap Prod.snd
termination_by structural p => p

def namedSubs : List NamedSub → List (String × List Site)
  | [] => []
  | .mk name sub :: rest => (name, subquery sub) :: namedSubs rest
termination_by structural l => l

def subquery : Subquery → List Site
  | .mk q _ _ => query false q
termination_by structural s => s

def optGroup : Option Group → List Site
  | none => []
  | some g => groupOf g
termination_by structural g => g

def groupOf : Group → List Site
  | .mk _ _ items => groupItems items
termination_by structural g => g

def groupItems : List Item → List Site
  | [] => []
  | i :: rest => item i ++ groupItems rest
termination_by structural l => l

def item : Item → List Site
  | .mk pred group _ => optPredicate pred ++ optGroup group
termination_by structural i => i

def optPredicate : Option Predicate → List Site
  | none => []
  | some p => predicate p
termination_by structural p => p

def predicate : Predicate → List Site
  | .mk t sub => test (pads t.op sub) t ++ optSubquery sub
termination_by structural p => p

def optSubquery : Option Subquery → List Site
  | none => []
  | some s => subquery s
termination_by structural s => s

def queryJoins : List Join → List Site
  | [] => []
  | .mk _ _ q _ _ :: rest => query false q ++ queryJoins rest
termination_by structural l => l

def queryRelations : List Relation → List Site
  | [] => []
  | .mk _ q _ _ :: rest => query false q ++ queryRelations rest
termination_by structural l => l
end

def request (r : Request) : List Site :=
  query true r.query ++ r.set.flatMap assignment ++ r.onDuplicate.flatMap assignment ++
    r.rows.flatMap (fun row => row.map .index) ++ r.optimistic.toList.map fun o => .index o.p

end Sites

/-- What stands at the sites of a request in place of what did. -/
structure Labels where
  index : Int → Int
  list : List Int → List Int
  limit : Bool → Limit → Limit

namespace Labels
variable (L : Labels)

def fn (f : Func) : Func := { f with ps := f.ps.map L.index }

def assignment (a : Assignment) : Assignment :=
  { a with p := a.p.map L.index, plusP := a.plusP.map L.index, minusP := a.minusP.map L.index }

def column (x : String × ColumnFunction) : String × ColumnFunction :=
  (x.1, { x.2 with fn := L.fn x.2.fn })

def order (o : Order) : Order := { o with fn := o.fn.map L.fn }

def ifParent (i : IfParent) : IfParent := { i with p := L.index i.p }

def head (root : Bool) (h : Head) : Head :=
  { h with order := h.order.map L.order, limit := h.limit.map (L.limit root),
           ifParent := h.ifParent.map L.ifParent }

def test (pad : Bool) (t : Test) : Test :=
  { t with p := t.p.map L.index, ps := if pad then L.list t.ps else t.ps.map L.index,
           fn := t.fn.map L.fn, value := t.value.map L.fn }

mutual
/-- A query with other references; its functions and subqueries stand in the order of their
names. -/
def query (root : Bool) : Query → Query
  | .mk h columns on where_ joins relations =>
    .mk (L.head root h) (optProjection columns) (optGroup on) (optGroup where_) (queryJoins joins)
      (queryRelations relations)
termination_by structural q => q

def optProjection : Option Projection → Option Projection
  | none => none
  | some p => some (projection p)
termination_by structural p => p

def projection : Projection → Projection
  | .mk mode add remove f sub =>
    .mk mode add remove ((sortedEntries Prod.fst f).map L.column)
      ((sortedEntries Prod.fst (namedSubs sub)).map fun x => .mk x.1 x.2)
termination_by structural p => p

def namedSubs : List NamedSub → List (String × Subquery)
  | [] => []
  | .mk name sub :: rest => (name, subquery sub) :: namedSubs rest
termination_by structural l => l

def subquery : Subquery → Subquery
  | .mk q column agg => .mk (query false q) column agg
termination_by structural s => s

def optGroup : Option Group → Option Group
  | none => none
  | some g => some (groupOf g)
termination_by structural g => g

def groupOf : Group → Group
  | .mk conn not items => .mk conn not (groupItems items)
termination_by structural g => g

def groupItems : List Item → List Item
  | [] => []
  | i :: rest => item i :: groupItems rest
termination_by structural l => l

def item : Item → Item
  | .mk pred group joined => .mk (optPredicate pred) (optGroup group) joined
termination_by structural i => i

def optPredicate : Option Predicate → Option Predicate
  | none => none
  | some p => some (predicate p)
termination_by structural p => p

def predicate : Predicate → Predicate
  | .mk t sub => .mk (L.test (pads t.op sub) t) (optSubquery sub)
termination_by structural p => p

def optSubquery : Option Subquery → Option Subquery
  | none => none
  | some s => some (subquery s)
termination_by structural s => s

def queryJoins : List Join → List Join
  | [] => []
  | .mk rel kind q left right :: rest => .mk rel kind (query false q) left right :: queryJoins rest
termination_by structural l => l

def queryRelations : List Relation → List Relation
  | [] => []
  | .mk rel q kind keys :: rest => .mk rel (query false q) kind keys :: queryRelations rest
termination_by structural l => l
end

def request (r : Request) : Request :=
  { r with
    query := L.query true r.query
    set := r.set.map L.assignment
    onDuplicate := r.onDuplicate.map L.assignment
    rows := r.rows.map fun row => row.map L.index
    optimistic := r.optimistic.map fun o => { o with p := L.index o.p } }

end Labels

/-- A visitor that writes a label at each site and takes note of the site. -/
structure Notes {σ ε : Type} (c : Visitor σ ε) (L : Labels) (note : σ → Site → σ) : Prop where
  index : ∀ p s, c.index p s = .ok (L.index p, note s (.index p))
  list : ∀ ps s, c.list ps s = .ok (L.list ps, note s (.list ps))
  limit : ∀ root l s, c.limit root l s = .ok (L.limit root l, note s (.limit root l))

namespace Notes
variable {σ ε α β : Type} {c : Visitor σ ε} {L : Labels} {note : σ → Site → σ}

theorem optional {f : α → StateT σ (Except ε) α} {g : α → α} {sites : α → List Site}
    (h : ∀ a s, f a s = .ok (g a, (sites a).foldl note s)) (o : Option α) (s : σ) :
    Visitor.optional f o s = .ok (o.map g, (o.toList.flatMap sites).foldl note s) := by
  cases o with
  | none => rfl
  | some a =>
    rw [Visitor.optional, run_map_ok (h a s)]
    simp

theorem mapM {f : α → StateT σ (Except ε) β} {g : α → β} {sites : α → List Site}
    (h : ∀ a s, f a s = .ok (g a, (sites a).foldl note s)) (l : List α) (s : σ) :
    l.mapM f s = .ok (l.map g, (l.flatMap sites).foldl note s) := by
  induction l generalizing s with
  | nil => rfl
  | cons a l ih =>
    rw [List.mapM_cons, run_bind_ok (h a s), run_bind_ok (ih _), run_pure, List.flatMap_cons,
      List.foldl_append, List.map_cons]

variable (h : Notes c L note)
include h

theorem index_sites (p : Int) (s : σ) :
    c.index p s = .ok (L.index p, [Site.index p].foldl note s) := h.index p s

theorem ints (ps : List Int) (s : σ) :
    c.ints ps s = .ok (ps.map L.index, (ps.map Site.index).foldl note s) := by
  rw [Visitor.ints, mapM h.index_sites, ← List.map_eq_flatMap]

theorem fn (f : Func) (s : σ) : c.fn f s = .ok (L.fn f, (Sites.fn f).foldl note s) := by
  rw [Visitor.fn, run_bind_ok (h.ints f.ps s), run_pure]
  rfl

theorem assignment (a : Assignment) (s : σ) :
    c.assignment a s = .ok (L.assignment a, (Sites.assignment a).foldl note s) := by
  rw [Visitor.assignment, run_bind_ok (optional h.index_sites _ _),
    run_bind_ok (optional h.index_sites _ _), run_bind_ok (optional h.index_sites _ _), run_pure]
  simp only [Sites.assignment, List.map_append, List.foldl_append, ← List.map_eq_flatMap]
  rfl

theorem column (x : String × ColumnFunction) (s : σ) :
    c.column x s = .ok (L.column x, (Sites.fn x.2.fn).foldl note s) := by
  rw [Visitor.column, run_bind_ok (h.fn _ _), run_pure]
  rfl

theorem order (o : Order) (s : σ) :
    c.order o s = .ok (L.order o, (Sites.order o).foldl note s) := by
  rw [Visitor.order, run_bind_ok (optional h.fn _ _), run_pure]
  rfl

theorem ifParent (i : IfParent) (s : σ) :
    c.ifParent i s = .ok (L.ifParent i, [Site.index i.p].foldl note s) := by
  rw [Visitor.ifParent, run_bind_ok (h.index_sites _ _), run_pure]
  rfl

theorem limit_sites (root : Bool) (l : Limit) (s : σ) :
    c.limit root l s = .ok (L.limit root l, [Site.limit root l].foldl note s) := h.limit root l s

theorem head (root : Bool) (q : Head) (s : σ) :
    c.head root q s = .ok (L.head root q, (Sites.head root q).foldl note s) := by
  rw [Visitor.head, run_bind_ok (mapM h.order _ _), run_bind_ok (optional (h.limit_sites root) _ _),
    run_bind_ok (optional h.ifParent _ _), run_pure]
  simp only [Sites.head, List.foldl_append, ← List.map_eq_flatMap]
  rfl

theorem values (pad : Bool) (ps : List Int) (s : σ) :
    c.values pad ps s = .ok (if pad then L.list ps else ps.map L.index,
      (if pad then [Site.list ps] else ps.map Site.index).foldl note s) := by
  cases pad with
  | true => exact h.list ps s
  | false => exact h.ints ps s

theorem test (pad : Bool) (t : Test) (s : σ) :
    c.test pad t s = .ok (L.test pad t, (Sites.test pad t).foldl note s) := by
  rw [Visitor.test, run_bind_ok (optional h.index_sites _ _), run_bind_ok (h.values pad _ _),
    run_bind_ok (optional h.fn _ _), run_bind_ok (optional h.fn _ _), run_pure]
  simp only [Sites.test, List.foldl_append, ← List.map_eq_flatMap]
  rfl

omit h

/-- The named subqueries, from those of each. -/
theorem named {l : List NamedSub}
    (hl : ∀ n ∈ l, ∀ s, c.subquery n.sub s =
      .ok (L.subquery n.sub, (Sites.subquery n.sub).foldl note s)) (s : σ) :
    Visitor.named (c.namedSubs l) s =
      .ok ((sortedEntries Prod.fst (L.namedSubs l)).map fun x => .mk x.1 x.2,
        ((sortedEntries Prod.fst (Sites.namedSubs l)).flatMap Prod.snd).foldl note s) := by
  have hlabels : L.namedSubs l = l.map fun n => (n.name, L.subquery n.sub) := by
    clear hl
    induction l with
    | nil => rfl
    | cons n l ih =>
      cases n
      rw [Labels.namedSubs, ih]
      rfl
  have hsites : Sites.namedSubs l = l.map fun n => (n.name, Sites.subquery n.sub) := by
    clear hl hlabels
    induction l with
    | nil => rfl
    | cons n l ih =>
      cases n
      rw [Sites.namedSubs, ih]
      rfl
  have hname (n : NamedSub) : (n.name, L.subquery n.sub).1 = n.name := rfl
  have hname' (n : NamedSub) : (n.name, Sites.subquery n.sub).1 = n.name := rfl
  rw [named_eq, hlabels, hsites, sortedEntries_map hname, sortedEntries_map hname', List.map_map,
    List.flatMap_map]
  have hsorted : ∀ n ∈ sortedEntries NamedSub.name l, n ∈ l :=
    fun n hn => (List.mem_insertionSort _).mp hn
  generalize sortedEntries NamedSub.name l = m at hsorted
  induction m generalizing s with
  | nil => rfl
  | cons n m ih =>
    have hn := hl n (hsorted n List.mem_cons_self) s
    have hnamed : c.namedSub n s =
        .ok (.mk n.name (L.subquery n.sub), (Sites.subquery n.sub).foldl note s) := run_map_ok hn
    rw [List.mapM_cons, run_bind_ok hnamed,
      run_bind_ok (ih _ fun k hk => hsorted k (List.mem_cons_of_mem _ hk)), run_pure,
      List.flatMap_cons, List.foldl_append]
    rfl

mutual
theorem query (h : Notes c L note) (root : Bool) : ∀ (q : Query) (s : σ),
    c.query root q s = .ok (L.query root q, (Sites.query root q).foldl note s)
  | .mk q columns on where_ joins relations, s => by
    rw [Visitor.query, run_bind_ok (h.optProjection columns s), run_bind_ok (h.optGroup on _),
      run_bind_ok (h.optGroup where_ _), run_bind_ok (h.queryJoins joins _),
      run_bind_ok (h.queryRelations relations _), run_bind_ok (h.head root q _), run_pure,
      Sites.query, Labels.query]
    simp only [List.foldl_append]
termination_by structural q => q

theorem optProjection (h : Notes c L note) : ∀ (p : Option Projection) (s : σ),
    c.optProjection p s = .ok (L.optProjection p, (Sites.optProjection p).foldl note s)
  | none, _ => rfl
  | some p, s => by
    rw [Visitor.optProjection, run_map_ok (h.projection p s), Labels.optProjection,
      Sites.optProjection]
termination_by structural p => p

theorem projection (h : Notes c L note) : ∀ (p : Projection) (s : σ),
    c.projection p s = .ok (L.projection p, (Sites.projection p).foldl note s)
  | .mk mode add remove f sub, s => by
    rw [Visitor.projection, run_bind_ok (mapM h.column _ s),
      run_bind_ok (named (h.namedSubs sub) _), run_pure, Labels.projection, Sites.projection, List.foldl_append]
termination_by structural p => p

theorem namedSubs (h : Notes c L note) : ∀ l : List NamedSub, ∀ n ∈ l, ∀ s, c.subquery n.sub s =
    .ok (L.subquery n.sub, (Sites.subquery n.sub).foldl note s)
  | [] => fun _ hn => absurd hn List.not_mem_nil
  | .mk _ sub :: rest => List.forall_mem_cons.mpr ⟨h.subquery sub, h.namedSubs rest⟩
termination_by structural l => l

theorem subquery (h : Notes c L note) : ∀ (x : Subquery) (s : σ),
    c.subquery x s = .ok (L.subquery x, (Sites.subquery x).foldl note s)
  | .mk q column agg, s => by
    rw [Visitor.subquery, run_bind_ok (h.query false q s), run_pure, Labels.subquery,
      Sites.subquery]
termination_by structural x => x

theorem optGroup (h : Notes c L note) : ∀ (g : Option Group) (s : σ),
    c.optGroup g s = .ok (L.optGroup g, (Sites.optGroup g).foldl note s)
  | none, _ => rfl
  | some g, s => by
    rw [Visitor.optGroup, run_map_ok (h.groupOf g s), Labels.optGroup, Sites.optGroup]
termination_by structural g => g

theorem groupOf (h : Notes c L note) : ∀ (g : Group) (s : σ),
    c.groupOf g s = .ok (L.groupOf g, (Sites.groupOf g).foldl note s)
  | .mk conn not items, s => by
    rw [Visitor.groupOf, run_bind_ok (h.groupItems items s), run_pure, Labels.groupOf,
      Sites.groupOf]
termination_by structural g => g

theorem groupItems (h : Notes c L note) : ∀ (l : List Item) (s : σ),
    c.groupItems l s = .ok (L.groupItems l, (Sites.groupItems l).foldl note s)
  | [], _ => rfl
  | i :: rest, s => by
    rw [Visitor.groupItems, run_bind_ok (h.item i s), run_bind_ok (h.groupItems rest _), run_pure,
      Labels.groupItems, Sites.groupItems, List.foldl_append]
termination_by structural l => l

theorem item (h : Notes c L note) : ∀ (i : Item) (s : σ),
    c.item i s = .ok (L.item i, (Sites.item i).foldl note s)
  | .mk pred group joined, s => by
    rw [Visitor.item, run_bind_ok (h.optPredicate pred s),
      run_bind_ok (h.optGroup group _), run_pure, Labels.item, Sites.item, List.foldl_append]
termination_by structural i => i

theorem optPredicate (h : Notes c L note) : ∀ (p : Option Predicate) (s : σ),
    c.optPredicate p s = .ok (L.optPredicate p, (Sites.optPredicate p).foldl note s)
  | none, _ => rfl
  | some p, s => by
    rw [Visitor.optPredicate, run_map_ok (h.predicate p s), Labels.optPredicate, Sites.optPredicate]
termination_by structural p => p

theorem predicate (h : Notes c L note) : ∀ (p : Predicate) (s : σ),
    c.predicate p s = .ok (L.predicate p, (Sites.predicate p).foldl note s)
  | .mk t sub, s => by
    rw [Visitor.predicate, run_bind_ok (h.test _ t s), run_bind_ok (h.optSubquery sub _), run_pure,
      Labels.predicate, Sites.predicate, List.foldl_append]
termination_by structural p => p

theorem optSubquery (h : Notes c L note) : ∀ (x : Option Subquery) (s : σ),
    c.optSubquery x s = .ok (L.optSubquery x, (Sites.optSubquery x).foldl note s)
  | none, _ => rfl
  | some x, s => by
    rw [Visitor.optSubquery, run_map_ok (h.subquery x s), Labels.optSubquery, Sites.optSubquery]
termination_by structural x => x

theorem queryJoins (h : Notes c L note) : ∀ (l : List Join) (s : σ),
    c.queryJoins l s = .ok (L.queryJoins l, (Sites.queryJoins l).foldl note s)
  | [], _ => rfl
  | .mk rel kind q left right :: rest, s => by
    rw [Visitor.queryJoins, run_bind_ok (h.query false q s), run_bind_ok (h.queryJoins rest _),
      run_pure, Labels.queryJoins, Sites.queryJoins, List.foldl_append]
termination_by structural l => l

theorem queryRelations (h : Notes c L note) : ∀ (l : List Relation) (s : σ),
    c.queryRelations l s = .ok (L.queryRelations l, (Sites.queryRelations l).foldl note s)
  | [], _ => rfl
  | .mk rel q kind keys :: rest, s => by
    rw [Visitor.queryRelations, run_bind_ok (h.query false q s),
      run_bind_ok (h.queryRelations rest _), run_pure, Labels.queryRelations, Sites.queryRelations,
      List.foldl_append]
termination_by structural l => l
end

include h

theorem optimistic (o : Optimistic) (s : σ) :
    c.optimistic o s = .ok ({ o with p := L.index o.p }, [Site.index o.p].foldl note s) := by
  rw [Visitor.optimistic, run_bind_ok (h.index_sites _ _), run_pure]

/-- A walk over a request visits its sites one after the other and changes nothing else. -/
theorem request (r : Request) (s : σ) :
    c.request r s = .ok (L.request r, (Sites.request r).foldl note s) := by
  rw [Visitor.request, run_bind_ok (h.query true r.query s), run_bind_ok (mapM h.assignment _ _),
    run_bind_ok (mapM h.assignment _ _), run_bind_ok (mapM h.ints _ _),
    run_bind_ok (optional h.optimistic _ _), run_pure]
  simp only [Sites.request, List.foldl_append, ← List.map_eq_flatMap]
  rfl

end Notes

end Orm.Engine
