import Orm.Logic.Fresh

/-! The request that a tree of builder models becomes: its joins under their result names, its
relations, and its subqueries. -/
namespace Orm.Client.Builder

open Orm.Logic

mutual
/-- A builder model: its entity, its alias (empty without one), the subqueries among its columns,
its joins, the subqueries among its conditions, and its relations. -/
inductive Core where
  | mk (entity aliasName : String) (columns : List Sub) (joins : List Joined) (conds : List Sub)
      (relations : List Related)

/-- A model used as a subquery, which is refused when it loads relations. -/
inductive Sub where
  | mk (entity aliasName : String) (columns : List Sub) (joins : List Joined) (conds : List Sub)

/-- A joined model with the subqueries among its join conditions. -/
inductive Joined where
  | mk (child : Core) (on : List Sub)

/-- A relation; the child of an `apart` one has a connection of its own. -/
inductive Related where
  | inner (many : Bool) (child : Core)
  | apart (many : Bool) (child : Core)
end

mutual
inductive Built where
  | mk (entity : String) (columns : List Built) (joins : List BuiltJoin) (conds : List Built)
      (relations : List BuiltRelation)

inductive BuiltJoin where
  | mk (rel : String) (query : Built) (on : List Built)

/-- A relation of the request, or one that is left to the connection of its child. -/
inductive BuiltRelation where
  | inner (rel : String) (many : Bool) (query : Built)
  | apart (rel : String) (many : Bool)
end

inductive BuildError where
  | joinTwice (name : String)
  | relationTwice (name : String)
deriving Repr, DecidableEq

/-- Building a request, with the join paths that are in use. -/
abbrev Building := StateT (List String) (Except BuildError)

def Core.resultName (many : Bool) : Core → String
  | .mk entity aliasName _ _ _ _ =>
    if aliasName ≠ "" then aliasName else entity ++ "_" ++ if many then "models" else "model"

def Joined.name : Joined → String
  | .mk child _ => child.resultName false

def Related.name : Related → String
  | .inner many child => child.resultName many
  | .apart many child => child.resultName many

/-- What follows the last slash of a path. -/
def lastPart (path : String) : String :=
  String.ofList (path.toList.reverse.takeWhile (· ≠ '/')).reverse

mutual
/-- Builds a model whose joins have paths that start with `under`. -/
def Core.query (under : String) : Core → Building Built
  | .mk entity _ columns joins conds relations => do
    let columns ← subqueries columns
    let joins ← queryJoins under joins
    let conds ← subqueries conds
    let relations ← queryRelations [] relations
    pure (.mk entity columns joins conds relations)

/-- Builds a subquery, a statement of its own. The request keeps none of its columns. -/
def Sub.subquery : Sub → Building Built
  | .mk entity _ columns joins conds => do
    let _ ← subqueries columns
    let joins ← queryJoins "" joins
    let conds ← subqueries conds
    pure (.mk entity [] joins conds [])

def subqueries : List Sub → Building (List Built)
  | [] => pure []
  | sub :: subs => do
    let q ← sub.subquery
    let qs ← subqueries subs
    pure (q :: qs)

def queryJoins (under : String) : List Joined → Building (List BuiltJoin)
  | [] => pure []
  | .mk child on :: joins => do
    let path := under ++ child.resultName false
    let name := lastPart path
    takeName (.joinTwice name) path
    let q ← child.query (path ++ "/")
    let on ← subqueries on
    let rest ← queryJoins under joins
    pure (.mk name q on :: rest)

def queryRelations (names : List String) : List Related → Building (List BuiltRelation)
  | [] => pure []
  | .inner many child :: relations => do
    let name := child.resultName many
    if name ∈ names then throw (.relationTwice name)
    let q ← child.query ""
    let rest ← queryRelations (name :: names) relations
    pure (.inner name many q :: rest)
  | .apart many child :: relations => do
    let name := child.resultName many
    if name ∈ names then throw (.relationTwice name)
    let rest ← queryRelations (name :: names) relations
    pure (.apart name many :: rest)
end

/-- The request of the root model. -/
def build (c : Core) : Except BuildError Built := do
  let (r, _) ← (c.query "").run []
  pure r

mutual
/-- The paths of the joins of all statements that building a model builds. -/
def Core.paths (under : String) : Core → List String
  | .mk _ _ columns joins conds relations =>
    subPaths columns ++ joinPaths under joins ++ subPaths conds ++ relationPaths relations

def Sub.paths : Sub → List String
  | .mk _ _ columns joins conds => subPaths columns ++ joinPaths "" joins ++ subPaths conds

def subPaths : List Sub → List String
  | [] => []
  | sub :: subs => sub.paths ++ subPaths subs

def joinPaths (under : String) : List Joined → List String
  | [] => []
  | .mk child on :: joins =>
    (under ++ child.resultName false) ::
      (child.paths (under ++ child.resultName false ++ "/") ++ subPaths on ++ joinPaths under joins)

def relationPaths : List Related → List String
  | [] => []
  | .inner _ child :: relations => child.paths "" ++ relationPaths relations
  | .apart _ _ :: relations => relationPaths relations
end

mutual
/-- In every model of the tree the joins have distinct result names and the relations have. -/
def Core.NamesApart : Core → Prop
  | .mk _ _ columns joins conds relations =>
    (joins.map Joined.name).Nodup ∧ (relations.map Related.name).Nodup ∧
      subsNamesApart columns ∧ joinsNamesApart joins ∧ subsNamesApart conds ∧
      relationsNamesApart relations

def Sub.NamesApart : Sub → Prop
  | .mk _ _ columns joins conds => (joins.map Joined.name).Nodup ∧
      subsNamesApart columns ∧ joinsNamesApart joins ∧ subsNamesApart conds

def subsNamesApart : List Sub → Prop
  | [] => True
  | sub :: subs => sub.NamesApart ∧ subsNamesApart subs

def joinsNamesApart : List Joined → Prop
  | [] => True
  | .mk child on :: joins => child.NamesApart ∧ subsNamesApart on ∧ joinsNamesApart joins

def relationsNamesApart : List Related → Prop
  | [] => True
  | .inner _ child :: relations => child.NamesApart ∧ relationsNamesApart relations
  | .apart _ child :: relations => child.NamesApart ∧ relationsNamesApart relations
end

mutual
/-- The request of a model when no name is used twice. -/
def Core.built : Core → Built
  | .mk entity _ columns joins conds relations =>
    .mk entity (builtSubs columns) (builtJoins joins) (builtSubs conds) (builtRelations relations)

def Sub.built : Sub → Built
  | .mk entity _ _ joins conds => .mk entity [] (builtJoins joins) (builtSubs conds) []

def builtSubs : List Sub → List Built
  | [] => []
  | sub :: subs => sub.built :: builtSubs subs

def builtJoins : List Joined → List BuiltJoin
  | [] => []
  | .mk child on :: joins =>
    .mk (lastPart (child.resultName false)) child.built (builtSubs on) :: builtJoins joins

def builtRelations : List Related → List BuiltRelation
  | [] => []
  | .inner many child :: relations =>
    .inner (child.resultName many) many child.built :: builtRelations relations
  | .apart many child :: relations =>
    .apart (child.resultName many) many :: builtRelations relations
end

/-! Building takes the paths of the tree, and nothing else can go wrong in it. -/

/-- A text that paths of one statement start with: nothing, or the path of a join and a slash. -/
def Under (under : String) : Prop := under = "" ∨ ∃ path, under = path ++ "/"

theorem lastPart_under {under : String} (hunder : Under under) (name : String) :
    lastPart (under ++ name) = lastPart name := by
  obtain rfl | ⟨path, rfl⟩ := hunder
  · rw [String.empty_append]
  · have hslash : (path ++ "/").toList.reverse = '/' :: path.toList.reverse := by simp
    have hstop : ('/' :: path.toList.reverse).takeWhile (· ≠ '/') = [] := rfl
    rw [lastPart, String.toList_append, List.reverse_append, hslash, List.takeWhile_append]
    split
    · rename_i hall
      rw [hstop, List.append_nil, lastPart, List.IsPrefix.eq_of_length
        (List.takeWhile_prefix _) hall]
    · rfl

theorem lastPart_eq_iff {name : String} : lastPart name = name ↔ '/' ∉ name.toList := by
  constructor
  · intro h hslash
    have hmem : '/' ∈ (lastPart name).toList := by rwa [h]
    rw [lastPart, String.toList_ofList, List.mem_reverse] at hmem
    simpa using List.mem_takeWhile_imp hmem
  · intro h
    have hall : ∀ c ∈ name.toList.reverse, decide (c ≠ '/') = true := by
      intro c hc
      have hne : c ≠ '/' := fun heq => h (heq ▸ List.mem_reverse.mp hc)
      exact decide_eq_true hne
    rw [lastPart, List.takeWhile_eq_self_iff.mpr hall, List.reverse_reverse, String.ofList_toList]

mutual
theorem query_takes {under : String} (hunder : Under under) :
    ∀ c : Core, c.NamesApart → Takes (c.query under) (c.paths under) c.built
  | .mk entity aliasName columns joins conds relations, h => by
    simp only [Core.NamesApart] at h
    obtain ⟨-, hnames, hcolumns, hjoins, hconds, hrelations⟩ := h
    have hpaths : (Core.mk entity aliasName columns joins conds relations).paths under =
        subPaths columns ++ (joinPaths under joins ++ (subPaths conds ++
          (relationPaths relations ++ []))) := by
      simp only [Core.paths, List.append_assoc, List.append_nil]
    rw [hpaths, Core.query, Core.built]
    refine (subqueries_takes columns hcolumns).bind ?_
    refine (queryJoins_takes hunder joins hjoins).bind ?_
    refine (subqueries_takes conds hconds).bind ?_
    refine (queryRelations_takes [] relations ?_ hrelations).bind (Takes.pure _)
    simpa using hnames

theorem subquery_takes : ∀ sub : Sub, sub.NamesApart → Takes sub.subquery sub.paths sub.built
  | .mk entity aliasName columns joins conds, h => by
    simp only [Sub.NamesApart] at h
    obtain ⟨-, hcolumns, hjoins, hconds⟩ := h
    have hpaths : (Sub.mk entity aliasName columns joins conds).paths =
        subPaths columns ++ (joinPaths "" joins ++ (subPaths conds ++ [])) := by
      simp only [Sub.paths, List.append_assoc, List.append_nil]
    rw [hpaths, Sub.subquery, Sub.built]
    refine (subqueries_takes columns hcolumns).bind ?_
    refine (queryJoins_takes (.inl rfl) joins hjoins).bind ?_
    exact (subqueries_takes conds hconds).bind (Takes.pure _)

theorem subqueries_takes :
    ∀ subs : List Sub, subsNamesApart subs → Takes (subqueries subs) (subPaths subs) (builtSubs subs)
  | [], _ => by
    simpa only [subqueries, subPaths, builtSubs] using Takes.pure _
  | sub :: subs, h => by
    simp only [subsNamesApart] at h
    have hpaths : subPaths (sub :: subs) = sub.paths ++ (subPaths subs ++ []) := by
      simp only [subPaths, List.append_nil]
    rw [hpaths, subqueries, builtSubs]
    refine (subquery_takes sub h.1).bind ?_
    exact (subqueries_takes subs h.2).bind (Takes.pure _)

theorem queryJoins_takes {under : String} (hunder : Under under) :
    ∀ joins : List Joined, joinsNamesApart joins →
      Takes (queryJoins under joins) (joinPaths under joins) (builtJoins joins)
  | [], _ => by
    simpa only [queryJoins, joinPaths, builtJoins] using Takes.pure _
  | .mk child on :: joins, h => by
    simp only [joinsNamesApart] at h
    obtain ⟨hchild, hon, hjoins⟩ := h
    have hpaths : joinPaths under (.mk child on :: joins) =
        [under ++ child.resultName false] ++
          (child.paths (under ++ child.resultName false ++ "/") ++
            (subPaths on ++ (joinPaths under joins ++ []))) := by
      simp only [joinPaths, List.singleton_append, List.append_assoc, List.append_nil]
    rw [hpaths, queryJoins, builtJoins, ← lastPart_under hunder (child.resultName false)]
    refine (Takes.takeName _ _).bind ?_
    refine (query_takes (.inr ⟨_, rfl⟩) child hchild).bind ?_
    refine (subqueries_takes on hon).bind ?_
    exact (queryJoins_takes hunder joins hjoins).bind (Takes.pure _)

theorem queryRelations_takes (names : List String) :
    ∀ relations : List Related, (relations.map Related.name ++ names).Nodup →
      relationsNamesApart relations →
      Takes (queryRelations names relations) (relationPaths relations) (builtRelations relations)
  | [], _, _ => by
    simpa only [queryRelations, relationPaths, builtRelations] using Takes.pure _
  | .inner many child :: relations, hnames, h => by
    simp only [relationsNamesApart] at h
    obtain ⟨(hname : child.resultName many ∉ names), hrest⟩ := nodup_cons_append hnames
    have hpaths : relationPaths (.inner many child :: relations) =
        child.paths "" ++ (relationPaths relations ++ []) := by
      simp only [relationPaths, List.append_nil]
    rw [hpaths, queryRelations, builtRelations, if_neg hname]
    refine (query_takes (.inl rfl) child h.1).bind ?_
    exact (queryRelations_takes _ relations hrest h.2).bind (Takes.pure _)
  | .apart many child :: relations, hnames, h => by
    simp only [relationsNamesApart] at h
    obtain ⟨(hname : child.resultName many ∉ names), hrest⟩ := nodup_cons_append hnames
    have hpaths : relationPaths (.apart many child :: relations) =
        relationPaths relations ++ [] := by
      simp only [relationPaths, List.append_nil]
    rw [hpaths, queryRelations, builtRelations, if_neg hname]
    exact (queryRelations_takes _ relations hrest h.2).bind (Takes.pure _)
end

/-! What the request carries of the tree. -/

mutual
/-- A subquery in which nothing is joined. -/
def Sub.bare : Sub → Bool
  | .mk _ _ columns joins conds => allBare columns && joins.isEmpty && allBare conds

def allBare : List Sub → Bool
  | [] => true
  | sub :: subs => sub.bare && allBare subs
end

mutual
/-- Each join and relation of the model occurs once in the request, under its own parent and
under its result name. -/
def Core.Carried : Core → Built → Prop
  | .mk _ _ columns joins conds relations, .mk _ columns' joins' conds' relations' =>
    subsCarried columns columns' ∧ joinsCarried joins joins' ∧ subsCarried conds conds' ∧
      relationsCarried relations relations'

/-- The same for a subquery, whose columns may be left out when nothing is joined in them. -/
def Sub.Carried : Sub → Built → Prop
  | .mk _ _ columns joins conds, .mk _ columns' joins' conds' relations' =>
    (subsCarried columns columns' ∨ columns' = [] ∧ allBare columns) ∧
      joinsCarried joins joins' ∧ subsCarried conds conds' ∧ relations' = []

def subsCarried : List Sub → List Built → Prop
  | [], [] => True
  | sub :: subs, q :: qs => sub.Carried q ∧ subsCarried subs qs
  | _, _ => False

def joinsCarried : List Joined → List BuiltJoin → Prop
  | [], [] => True
  | .mk child on :: joins, .mk rel q on' :: built =>
    rel = child.resultName false ∧ child.Carried q ∧ subsCarried on on' ∧ joinsCarried joins built
  | _, _ => False

def relationsCarried : List Related → List BuiltRelation → Prop
  | [], [] => True
  | .inner many child :: relations, .inner rel many' q :: built =>
    rel = child.resultName many ∧ many' = many ∧ child.Carried q ∧
      relationsCarried relations built
  | .apart many child :: relations, .apart rel many' :: built =>
    rel = child.resultName many ∧ many' = many ∧ relationsCarried relations built
  | _, _ => False
end

mutual
/-- No result name of a join holds a slash, and no subquery joins a model in its columns. -/
def Core.Plain : Core → Prop
  | .mk _ _ columns joins conds relations =>
    subsPlain columns ∧ joinsPlain joins ∧ subsPlain conds ∧ relationsPlain relations

def Sub.Plain : Sub → Prop
  | .mk _ _ columns joins conds => allBare columns = true ∧ joinsPlain joins ∧ subsPlain conds

def subsPlain : List Sub → Prop
  | [] => True
  | sub :: subs => sub.Plain ∧ subsPlain subs

def joinsPlain : List Joined → Prop
  | [] => True
  | .mk child on :: joins =>
    '/' ∉ (child.resultName false).toList ∧ child.Plain ∧ subsPlain on ∧ joinsPlain joins

def relationsPlain : List Related → Prop
  | [] => True
  | .inner _ child :: relations => child.Plain ∧ relationsPlain relations
  | .apart _ _ :: relations => relationsPlain relations
end

mutual
theorem carried_built : ∀ c : Core, c.Carried c.built ↔ c.Plain
  | .mk _ _ columns joins conds relations => by
    rw [Core.built, Core.Carried, Core.Plain, carried_builtSubs columns, carried_builtJoins joins,
      carried_builtSubs conds, carried_builtRelations relations]

theorem carried_builtSub : ∀ sub : Sub, sub.Carried sub.built ↔ sub.Plain
  | .mk _ _ columns joins conds => by
    have hcolumns : subsCarried columns [] → allBare columns = true := by
      cases columns with
      | nil => exact fun _ => rfl
      | cons sub subs => exact False.elim
    rw [Sub.built, Sub.Carried, Sub.Plain, carried_builtJoins joins, carried_builtSubs conds]
    constructor
    · rintro ⟨hcarried | ⟨-, hbare⟩, hjoins, hconds, -⟩
      · exact ⟨hcolumns hcarried, hjoins, hconds⟩
      · exact ⟨hbare, hjoins, hconds⟩
    · rintro ⟨hbare, hjoins, hconds⟩
      exact ⟨.inr ⟨rfl, hbare⟩, hjoins, hconds, rfl⟩

theorem carried_builtSubs : ∀ subs : List Sub, subsCarried subs (builtSubs subs) ↔ subsPlain subs
  | [] => Iff.rfl
  | sub :: subs => by
    rw [builtSubs, subsCarried, subsPlain, carried_builtSub sub, carried_builtSubs subs]

theorem carried_builtJoins :
    ∀ joins : List Joined, joinsCarried joins (builtJoins joins) ↔ joinsPlain joins
  | [] => Iff.rfl
  | .mk child on :: joins => by
    rw [builtJoins, joinsCarried, joinsPlain, lastPart_eq_iff, carried_built child,
      carried_builtSubs on, carried_builtJoins joins]

theorem carried_builtRelations :
    ∀ relations : List Related,
      relationsCarried relations (builtRelations relations) ↔ relationsPlain relations
  | [] => Iff.rfl
  | .inner many child :: relations => by
    rw [builtRelations, relationsCarried, relationsPlain, carried_built child,
      carried_builtRelations relations]
    simp only [true_and]
  | .apart many child :: relations => by
    rw [builtRelations, relationsCarried, relationsPlain, carried_builtRelations relations]
    simp only [true_and]
end

/-- A model with a join of the model `company` under the name of `aliasName`, and the same join
in the child of its relation. -/
def sharedJoin (aliasName : String) : Core :=
  .mk "user" "" [] [.mk (.mk "company" aliasName [] [] [] []) []] []
    [.inner true (.mk "post" "" [] [.mk (.mk "company" "" [] [] [] []) []] [] [])]

theorem sharedJoin_namesApart (aliasName : String) : (sharedJoin aliasName).NamesApart := by
  simp [sharedJoin, Core.NamesApart, subsNamesApart, joinsNamesApart, relationsNamesApart]

end Orm.Client.Builder
