import Orm.Logic.Merge
import Orm.Client.Keys
import Orm.Engine.Canonical
import Orm.Engine.Validate
import Orm.Sql.Truth

/-! A read whose root IN list exceeds the bind limit runs in parts: the parts, the merged rows and
the summed count. -/
namespace Orm.Client

open Orm.Logic
open Orm.Sql (Truth)
open Orm.Engine (Failure Request Query Group Item Predicate Test Dialect paramAt padded)

def driverLimit : Dialect → Nat
  | .sqlite => 999
  | _ => 65535

def paramValue (params : List Value) (p : Int) : Value := (paramAt params p).getD .null

/-- The values of an IN condition without a subquery. -/
def inList : Item → List Int
  | .mk (some (.mk t none)) _ _ => if t.op = .in_ then t.ps else []
  | _ => []

def rootItems (request : Request) : List Item := (request.query.where_.map Group.items).getD []

/-- The longest root IN list from position `i` on. -/
def rootInFrom : Nat → Option (Nat × List Int) → List Item → Option (Nat × List Int)
  | _, best, [] => best
  | i, best, it :: items =>
    rootInFrom (i + 1) (if (best.map fun b => b.2.length).getD 0 < (inList it).length
      then some (i, inList it) else best) items

/-- The position and the values of the longest root IN list. -/
def rootInTarget (request : Request) : Option (Nat × List Int) :=
  rootInFrom 0 none (rootItems request)

/-- An item whose condition holds other values. -/
def withValues (ps : List Int) : Item → Item
  | .mk (some (.mk t s)) g j => .mk (some (.mk { t with ps := ps } s)) g j
  | it => it

def withItems (request : Request) (items : List Item) : Request :=
  { request with query := match request.query with
    | .mk head columns on where_ joins relations =>
      .mk head columns on (where_.map fun g => .mk g.conn g.not items) joins relations }

def withRootInList (request : Request) (target : Nat) (ps : List Int) : Request :=
  withItems request ((rootItems request).modify target (withValues ps))

/-- Whether an OR stands at a condition: the condition is joined by it, or the next item is. -/
def meetsOr : List Item → Bool
  | [] => false
  | .mk (some p) g j :: rest =>
    (Item.mk (some p) g j).conn = .or || (rest.head?.map Item.conn) = some .or || meetsOr rest
  | _ :: rest => meetsOr rest

/-- The list without the values whose key an earlier one has. -/
def uniqueValues (params : List Value) (ps : List Int) : List Int :=
  keepFirst (fun p => scalarKey (paramValue params p)) [] ps

/-- One part of the list, padded to a power of two by its last value. -/
def padPart (slice : List Int) : List Int := (padded slice).getD slice

/-- The values of one part, the largest power of two that the other parameters leave room for. -/
def partSize (slots : Nat) (d : Dialect) (ps : List Int) : Nat :=
  2 ^ Nat.log 2 (driverLimit d + ps.length - slots)

/-- The parts of a request that needs `slots` bind parameters. -/
def rootInParts (request : Request) (slots : Nat) (d : Dialect) (params : List Value) :
    Except Failure (List Request) :=
  let limit := driverLimit d
  let tooLarge : Failure := .orm .irInvalid
    s!"the statement needs {slots} bind parameters but {d.name} permits {limit}"
  if slots ≤ limit then .ok []
  else if request.query.head.limit.isSome ∨ request.query.head.order ≠ [] ∨
      request.query.hasGroupBy = true ∨ request.query.where_.isNone then .error tooLarge
  else if meetsOr (rootItems request) then .error tooLarge
  else match rootInTarget request with
    | none => .error tooLarge
    | some (target, ps) =>
      if limit + ps.length ≤ slots then .error tooLarge
      else
        let unique := uniqueValues params ps
        .ok ((pieces (partSize slots d ps) unique.length unique).map fun slice =>
          withRootInList request target (padPart slice))

/-- The bind parameters of a read, which is planned with one value of a list that is split. -/
def splitReadPlan (slotsOf : Request → Nat) (request : Request) (d : Dialect)
    (params : List Value) : Nat :=
  if params.length ≤ driverLimit d then slotsOf request
  else match rootInTarget request with
    | none => slotsOf request
    | some (target, ps) =>
      let slots := slotsOf (withRootInList request target (ps.take 1)) - 1 + ps.length
      if slots ≤ driverLimit d then slotsOf request else slots

/-- The statement of a request on one state: the rows of its FROM clause, what each shows, and the
value of each condition on it. -/
structure Selection (R : Type) where
  source : List R
  output : R → Row
  /-- The conditions before and after the root items, joined by AND. -/
  before : R → List Truth
  after : R → List Truth
  item : Item → R → Truth
  equals : Option String → Value → R → Truth

section Selection
variable {R : Type} (db : Selection R) (params : List Value)

/-- The column that an item compares. -/
def itemColumn : Item → Option String
  | .mk (some p) _ _ => p.test.column
  | _ => none

/-- `column IN (values)`, the disjunction of the comparisons. -/
def Selection.among (column : Option String) (ps : List Int) (r : R) : Truth :=
  (ps.map fun p => db.equals column (paramValue params p) r).foldr Truth.or .no

def Selection.truth (it : Item) (r : R) : Truth :=
  if inList it = [] then db.item it r else db.among params (itemColumn it) (inList it) r

/-- The WHERE clause of a request on a row. -/
def Selection.chain (items : List Item) (r : R) : List (Bool × Truth) :=
  (db.before r).map (Prod.mk false) ++
    items.map (fun it => (decide (it.conn = .or), db.truth params it r)) ++
    (db.after r).map (Prod.mk false)

def Selection.selects (request : Request) (r : R) : Bool :=
  Truth.value (db.chain params (rootItems request) r) = .yes

/-- The rows that meet the WHERE clause of a request. -/
def Selection.selected (request : Request) : List Row :=
  (db.source.filter (db.selects params request)).map db.output

/-- The rows that the statement of a request returns, of kind `one` with LIMIT 1. -/
def Selection.rows (request : Request) : List Row :=
  if request.kind = .one then (db.selected params request).take 1 else db.selected params request

/-- The rows of the parts, the first one of each root key. -/
def mergeParts (refs : List Nat) (parts : List Request) : Except Failure (List Row) :=
  let rows := parts.flatMap (db.rows params)
  if rows.any fun row => (rowKey row refs).isNone then
    .error (.orm .codecDecode "split query row identity contains SQL NULL")
  else .ok (keepFirst (fun row => rowKey row refs) [] rows)

/-- The rows of `query`: those of the statement, or of its parts. -/
def queryMain (slotsOf : Request → Nat) (refs : List Nat) (request : Request) (d : Dialect) :
    Except Failure (List Row) := do
  let parts ← rootInParts request (splitReadPlan slotsOf request d params) d params
  if parts = [] then pure (db.rows params request) else mergeParts db params refs parts

/-- The count of `scalar`: that of the statement, or the sum of its parts. -/
def scalarCount (slotsOf : Request → Nat) (request : Request) (d : Dialect) :
    Except Failure Nat := do
  let parts ← rootInParts request (splitReadPlan slotsOf request d params) d params
  if parts = [] then pure (db.selected params request).length
  else pure (parts.map fun part => (db.selected params part).length).sum

/-- Whether a value of the list at `target` equals its column on the row. -/
def Selection.chosen (request : Request) (target : Nat) (r : R) (p : Int) : Bool :=
  db.equals ((rootItems request)[target]?.bind itemColumn) (paramValue params p) r = .yes

/-- Whether the WHERE clause holds on a row once the list at `target` has the value `t` there. -/
def Selection.ruled (request : Request) (target : Nat) (t : Truth) (r : R) : Bool :=
  Truth.value ((db.chain params (rootItems request) r).modify ((db.before r).length + target)
    fun x => (x.1, t)) = .yes

/-- What a row asks of a list that is cut after every `size` values: one piece is all there is if
the row is selected without the list; otherwise, if the rest of the clause lets it through, a kept
value stands for every value it equals and those that it equals are of one piece. -/
def Selection.CountedOnce (request : Request) (target : Nat) (ps : List Int) (size : Nat) (r : R) :
    Prop :=
  if db.ruled params request target .no r then (uniqueValues params ps).length ≤ size
  else db.ruled params request target .yes r = true →
    (∀ p ∈ ps, db.chosen params request target r p = true →
      ∃ q ∈ uniqueValues params ps, db.chosen params request target r q = true) ∧
    ∀ i j p q, (uniqueValues params ps)[i]? = some p → (uniqueValues params ps)[j]? = some q →
      db.chosen params request target r p = true → db.chosen params request target r q = true →
      i / size = j / size

/-- The rows of the pieces of the kept values, one statement each. -/
def Selection.pieceRows (request : Request) (target : Nat) (ps : List Int) (size : Nat) :
    List Row :=
  (pieces size (uniqueValues params ps).length (uniqueValues params ps)).flatMap fun piece =>
    db.rows params (withRootInList request target piece)

end Selection

section Chain

theorem value_eq_yes {xs : List (Bool × Truth)} :
    Truth.value xs = .yes ↔ ∃ run ∈ Orm.Sql.runsOf xs, ∀ t ∈ run, t = .yes := by
  have hconj (ts : List Truth) : Truth.conj ts = .yes ↔ ∀ t ∈ ts, t = .yes := by
    induction ts with
    | nil => simp
    | cons t ts ih => rw [Truth.conj_cons, Truth.and_eq_yes, ih, List.forall_mem_cons]
  rw [Truth.value]
  generalize Orm.Sql.runsOf xs = rs
  induction rs with
  | nil => simp
  | cons run rs ih =>
    rw [Truth.ofRuns_cons, Truth.or_eq_yes, hconj]
    simp only [ih, List.mem_cons, exists_eq_or_imp]

/-- A chain that holds still holds when more of its operands do. -/
theorem value_mono {xs ys : List (Bool × Truth)}
    (h : List.Forall₂ (fun x y => x.1 = y.1 ∧ (x.2 = .yes → y.2 = .yes)) xs ys)
    (hx : Truth.value xs = .yes) : Truth.value ys = .yes := by
  rw [value_eq_yes] at hx ⊢
  obtain ⟨run, hrun, hall⟩ := hx
  have hruns : List.Forall₂ (List.Forall₂ fun t u : Truth => t = .yes → u = .yes)
      (Orm.Sql.runsOf xs) (Orm.Sql.runsOf ys) := by
    cases h with
    | nil => exact .nil
    | cons hxy hrest => exact Orm.Sql.forall₂_runs hxy.2 hrest
  obtain ⟨i, hi, rfl⟩ := List.getElem_of_mem hrun
  have hi' := hruns.length_eq ▸ hi
  refine ⟨_, List.getElem_mem hi', fun u hu => ?_⟩
  have hpair := hruns.get hi hi'
  obtain ⟨j, hj, rfl⟩ := List.getElem_of_mem hu
  have hj' := hpair.length_eq ▸ hj
  exact hpair.get hj' hj (hall _ (List.getElem_mem hj'))

theorem forall₂_operand (xs ys : List (Bool × Truth)) (o : Bool) {t u : Truth}
    (h : t = .yes → u = .yes) :
    List.Forall₂ (fun x y => x.1 = y.1 ∧ (x.2 = .yes → y.2 = .yes)) (xs ++ (o, t) :: ys)
      (xs ++ (o, u) :: ys) := by
  have hsame (l : List (Bool × Truth)) :
      List.Forall₂ (fun x y => x.1 = y.1 ∧ (x.2 = .yes → y.2 = .yes)) l l :=
    List.forall₂_same.mpr fun _ _ => ⟨rfl, id⟩
  exact List.rel_append (hsame xs) (.cons ⟨rfl, h⟩ (hsame ys))

/-- An operand of a chain only helps it to hold. -/
theorem value_operand (xs ys : List (Bool × Truth)) (o : Bool) (t : Truth) :
    Truth.value (xs ++ (o, t) :: ys) = .yes ↔ Truth.value (xs ++ (o, .no) :: ys) = .yes ∨
      t = .yes ∧ Truth.value (xs ++ (o, .yes) :: ys) = .yes := by
  constructor
  · intro h
    by_cases ht : t = .yes
    · exact .inr ⟨ht, ht ▸ h⟩
    · exact .inl (value_mono (forall₂_operand xs ys o fun he => absurd he ht) h)
  · rintro (h | ⟨rfl, h⟩)
    · exact value_mono (forall₂_operand xs ys o fun he => by cases he) h
    · exact h

end Chain

section Parts
variable {R : Type} {db : Selection R} {params : List Value} {request : Request}
variable {target : Nat} {ps : List Int}

theorem rootInFrom_spec {i : Nat} {best : Option (Nat × List Int)} {items : List Item}
    (hbest : ∀ b, best = some b → b.2 ≠ [])
    (h : rootInFrom i best items = some (target, ps)) : ps ≠ [] ∧
      (best = some (target, ps) ∨ ∃ pre it post, items = pre ++ it :: post ∧
        target = i + pre.length ∧ inList it = ps) := by
  induction items generalizing i best with
  | nil =>
    cases h
    exact ⟨hbest _ rfl, .inl rfl⟩
  | cons it items ih =>
    rw [rootInFrom] at h
    have hnext : ∀ b, (if (best.map fun b => b.2.length).getD 0 < (inList it).length
        then some (i, inList it) else best) = some b → b.2 ≠ [] := by
      intro b hb
      split at hb
      · rename_i hlt
        cases hb
        intro hnil
        simp only at hnil
        rw [hnil] at hlt
        simp at hlt
      · exact hbest b hb
    obtain ⟨hne, hcase⟩ := ih hnext h
    refine ⟨hne, ?_⟩
    rcases hcase with hcase | ⟨pre, it', post, rfl, rfl, hin⟩
    · split at hcase
      · cases hcase
        exact .inr ⟨[], it, items, rfl, rfl, rfl⟩
      · exact .inl hcase
    · exact .inr ⟨it :: pre, it', post, rfl, by simp; omega, hin⟩

/-- The target of a request is one of its root items. -/
theorem rootInTarget_spec (h : rootInTarget request = some (target, ps)) : ps ≠ [] ∧
    ∃ pre it post, rootItems request = pre ++ it :: post ∧ target = pre.length ∧
      inList it = ps := by
  obtain ⟨hne, hcase⟩ := rootInFrom_spec (by simp) h
  rcases hcase with hcase | ⟨pre, it, post, hitems, htarget, hin⟩
  · cases hcase
  · exact ⟨hne, pre, it, post, hitems, by omega, hin⟩

theorem rootItems_withItems {items : List Item} (h : rootItems request ≠ []) :
    rootItems (withItems request items) = items := by
  obtain ⟨_, _, _, _, query, _⟩ := request
  cases query with
  | mk head columns on where_ joins relations =>
    cases where_ with
    | none => exact absurd rfl h
    | some g => rfl

theorem modify_middle {α : Type} (pre post : List α) (a : α) (f : α → α) :
    (pre ++ a :: post).modify pre.length f = pre ++ f a :: post := by
  induction pre with
  | nil => rfl
  | cons b pre ih => exact congrArg (List.cons b) ih

theorem inList_withValues {it : Item} (h : inList it ≠ []) (ps : List Int) :
    inList (withValues ps it) = ps ∧ (withValues ps it).conn = it.conn ∧
      itemColumn (withValues ps it) = itemColumn it := by
  unfold inList at h
  split at h
  · rename_i t g j
    split at h
    · rename_i hop
      refine ⟨?_, rfl, rfl⟩
      simp [withValues, inList, hop]
    · exact absurd rfl h
  · exact absurd rfl h

theorem among_eq_yes (column : Option String) (ps : List Int) (r : R) :
    db.among params column ps r = .yes ↔
      ∃ p ∈ ps, db.equals column (paramValue params p) r = .yes := by
  unfold Selection.among
  induction ps with
  | nil => simp
  | cons p ps ih =>
    rw [List.map_cons, List.foldr_cons, Truth.or_eq_yes]
    simp only [ih, List.mem_cons, exists_eq_or_imp]

variable (db params) in
/-- A row is selected whatever the list holds, or it equals a value of the list and the rest of the
clause lets it through: so for the whole list and for any other in its place. -/
theorem selects_target (h : rootInTarget request = some (target, ps)) (r : R) :
    (db.selects params request r = true ↔ db.ruled params request target .no r = true ∨
      (∃ p ∈ ps, db.chosen params request target r p = true) ∧
        db.ruled params request target .yes r = true) ∧
    ∀ qs, qs ≠ [] → (db.selects params (withRootInList request target qs) r = true ↔
      db.ruled params request target .no r = true ∨
      (∃ p ∈ qs, db.chosen params request target r p = true) ∧
        db.ruled params request target .yes r = true) := by
  obtain ⟨hne, pre, it, post, hitems, rfl, rfl⟩ := rootInTarget_spec h
  have hnil : rootItems request ≠ [] := by simp [hitems]
  have hcolumn : (rootItems request)[pre.length]?.bind itemColumn = itemColumn it := by
    simp [hitems]
  -- The chain of the clause with another operand at the place of the list.
  have hchain (items : Item) (hconn : items.conn = it.conn) :
      db.chain params (pre ++ items :: post) r =
        ((db.before r).map (Prod.mk false) ++
          pre.map fun it => (decide (it.conn = .or), db.truth params it r)) ++
        (decide (it.conn = .or), db.truth params items r) ::
        (post.map (fun it => (decide (it.conn = .or), db.truth params it r)) ++
          (db.after r).map (Prod.mk false)) := by
    simp [Selection.chain, hconn]
  have hruled (t : Truth) := show db.ruled params request pre.length t r = true ↔ _ from by
    have hlength : (db.before r).length + pre.length = ((db.before r).map (Prod.mk false) ++
        pre.map fun it => (decide (it.conn = .or), db.truth params it r)).length := by
      simp
    rw [Selection.ruled, decide_eq_true_iff, hitems, hchain it rfl, hlength, modify_middle]
  have hselects (req : Request) (it' : Item) (hreq : rootItems req = pre ++ it' :: post)
      (hconn : it'.conn = it.conn) (hin : inList it' ≠ [])
      (hcol : itemColumn it' = itemColumn it) :
      db.selects params req r = true ↔ db.ruled params request pre.length .no r = true ∨
        (∃ p ∈ inList it', db.chosen params request pre.length r p = true) ∧
          db.ruled params request pre.length .yes r = true := by
    rw [Selection.selects, decide_eq_true_iff, hreq, hchain it' hconn, value_operand,
      Selection.truth, if_neg hin, among_eq_yes, hcol, hruled, hruled]
    simp only [Selection.chosen, hcolumn, decide_eq_true_iff]
  refine ⟨hselects request it hitems rfl hne rfl, fun qs hqs => ?_⟩
  obtain ⟨hin, hconn, hcol⟩ := inList_withValues hne qs
  have hreq : rootItems (withRootInList request pre.length qs) =
      pre ++ withValues qs it :: post := by
    rw [withRootInList, rootItems_withItems hnil, hitems, modify_middle]
  have hpart := hselects _ _ hreq hconn (by rwa [hin]) hcol
  rwa [hin] at hpart

theorem mem_padPart {slice : List Int} (p : Int) : p ∈ padPart slice ↔ p ∈ slice := by
  unfold padPart
  cases h : padded slice with
  | none => rfl
  | some qs => exact Engine.mem_padded h p

variable (params) in
theorem uniqueValues_ne_nil (hps : ps ≠ []) : uniqueValues params ps ≠ [] := by
  intro hnil
  obtain ⟨p, rest, rfl⟩ := List.exists_cons_of_ne_nil hps
  simp [uniqueValues, keepFirst] at hnil

theorem uniqueValues_subset {p : Int} (h : p ∈ uniqueValues params ps) : p ∈ ps :=
  (mem_of_mem_keepFirst h).1

theorem partSize_pos (slots : Nat) (d : Dialect) (ps : List Int) : 0 < partSize slots d ps := by
  unfold partSize
  positivity

/-- The parts of a split request: the pieces of the unique values of its list, padded. -/
theorem rootInParts_spec {slots : Nat} {d : Dialect} {parts : List Request}
    (h : rootInParts request slots d params = .ok parts) (hne : parts ≠ []) :
    ∃ target ps, rootInTarget request = some (target, ps) ∧
      parts = (pieces (partSize slots d ps) (uniqueValues params ps).length
        (uniqueValues params ps)).map fun slice =>
          withRootInList request target (padPart slice) := by
  unfold rootInParts at h
  simp only at h
  split at h
  · cases h
    exact absurd rfl hne
  · split at h
    · cases h
    · split at h
      · cases h
      · split at h
        · cases h
        · rename_i target ps htarget
          split at h
          · cases h
          · cases h
            exact ⟨target, ps, htarget, rfl⟩

/-- What a part selects: the rows that the list without its padding does. -/
theorem selects_padPart (h : rootInTarget request = some (target, ps)) {slice : List Int}
    (hslice : slice ≠ []) (r : R) :
    db.selects params (withRootInList request target (padPart slice)) r =
      db.selects params (withRootInList request target slice) r := by
  have hpad : padPart slice ≠ [] := by
    obtain ⟨q, rest, rfl⟩ := List.exists_cons_of_ne_nil hslice
    exact List.ne_nil_of_mem ((mem_padPart q).mpr List.mem_cons_self)
  obtain ⟨-, hpart⟩ := selects_target db params h r
  rw [Bool.eq_iff_iff, hpart _ hpad, hpart _ hslice]
  simp only [mem_padPart]

theorem rows_of_one (h : request.kind = .one) :
    db.rows params request = (db.selected params request).take 1 := if_pos h

theorem rows_of_ne_one (h : request.kind ≠ .one) :
    db.rows params request = db.selected params request := if_neg h

theorem kind_withRootInList (request : Request) (target : Nat) (qs : List Int) :
    (withRootInList request target qs).kind = request.kind := rfl

theorem rows_padPart (h : rootInTarget request = some (target, ps)) {slice : List Int}
    (hslice : slice ≠ []) :
    db.rows params (withRootInList request target (padPart slice)) =
      db.rows params (withRootInList request target slice) := by
  have hselects := funext fun r => @selects_padPart _ db params _ _ _ h _ hslice r
  rw [Selection.rows, Selection.rows, Selection.selected, Selection.selected, hselects]
  rfl

end Parts

section Results
variable {R : Type} {db : Selection R} {params : List Value} {request : Request}
variable {target : Nat} {ps : List Int} {refs : List Nat} {slotsOf : Request → Nat} {d : Dialect}
variable {parts : List Request}

/-- Rows with key cells have different keys just when their key cells differ. -/
theorem rowKeys_nodup_iff {rows : List Row} (h : ∀ row ∈ rows, (rowKey row refs).isSome = true) :
    (rows.map fun row => rowKey row refs).Nodup ↔
      (rows.map fun row => keyCells row refs).Nodup := by
  have hcells : ∀ row ∈ rows, ∃ vs, keyCells row refs = some vs := by
    intro row hrow
    have hsome := h row hrow
    rw [rowKey, Option.isSome_map] at hsome
    exact Option.isSome_iff_exists.mp hsome
  have hmap : (rows.map fun row => rowKey row refs) =
      (rows.map fun row => keyCells row refs).map (Option.map keyOfValues) := by
    rw [List.map_map]
    rfl
  rw [hmap]
  constructor
  · intro hnodup
    exact hnodup.of_map _
  · intro hnodup
    refine hnodup.map_on fun x hx y hy hxy => ?_
    obtain ⟨row, hrow, rfl⟩ := List.mem_map.mp hx
    obtain ⟨row', hrow', rfl⟩ := List.mem_map.mp hy
    obtain ⟨vs, hvs⟩ := hcells row hrow
    obtain ⟨ws, hws⟩ := hcells row' hrow'
    rw [hvs, hws]
    exact congrArg some ((rowKey_eq_iff hvs hws).mp hxy)

theorem queryMain_split (hparts : rootInParts request (splitReadPlan slotsOf request d params) d
      params = .ok parts) (hsplit : parts ≠ []) {main : List Row}
    (h : queryMain db params slotsOf refs request d = .ok main) :
    (∀ row ∈ parts.flatMap (db.rows params), (rowKey row refs).isSome = true) ∧
      main = keepFirst (fun row => rowKey row refs) [] (parts.flatMap (db.rows params)) := by
  rw [queryMain, hparts] at h
  simp only [bind, Except.bind, if_neg hsplit, mergeParts] at h
  split at h
  · cases h
  · rename_i hany
    cases h
    refine ⟨fun row hrow => ?_, rfl⟩
    by_contra hnone
    apply hany
    rw [List.any_eq_true]
    exact ⟨row, hrow, by simpa using hnone⟩

theorem mem_selected {row : Row} {req : Request} : row ∈ db.selected params req ↔
    ∃ r ∈ db.source, db.selects params req r = true ∧ db.output r = row := by
  simp only [Selection.selected, List.mem_map, List.mem_filter, and_assoc]

/-- The rows of the parts are those of the pieces of the kept values. -/
theorem flatMap_rows (htarget : rootInTarget request = some (target, ps)) {size : Nat}
    (hsize : 0 < size) :
    ((pieces size (uniqueValues params ps).length (uniqueValues params ps)).map fun slice =>
      withRootInList request target (padPart slice)).flatMap (db.rows params) =
      db.pieceRows params request target ps size := by
  rw [Selection.pieceRows, List.flatMap_map]
  refine List.flatMap_congr fun slice hslice => ?_
  exact rows_padPart htarget (pieces_ne_nil hsize hslice)

/-- A row that a list of kept values selects is selected by the whole list. -/
theorem selects_of_kept (htarget : rootInTarget request = some (target, ps)) {qs : List Int}
    (hqs : qs ≠ []) (hsub : ∀ p ∈ qs, p ∈ uniqueValues params ps) {r : R}
    (h : db.selects params (withRootInList request target qs) r = true) :
    db.selects params request r = true := by
  obtain ⟨hwhole, hpart⟩ := selects_target db params htarget r
  rw [hpart qs hqs] at h
  rw [hwhole]
  rcases h with h | ⟨⟨p, hp, heq⟩, hrest⟩
  · exact .inl h
  · exact .inr ⟨⟨p, uniqueValues_subset (hsub p hp), heq⟩, hrest⟩

/-- Some piece of the kept values selects the rows that they do together. -/
theorem selects_pieces (htarget : rootInTarget request = some (target, ps)) {size : Nat}
    (hsize : 0 < size) (r : R) :
    (∃ piece ∈ pieces size (uniqueValues params ps).length (uniqueValues params ps),
      db.selects params (withRootInList request target piece) r = true) ↔
    db.selects params (withRootInList request target (uniqueValues params ps)) r = true := by
  have hunique := uniqueValues_ne_nil params (rootInTarget_spec htarget).1
  obtain ⟨-, hpart⟩ := selects_target db params htarget r
  have hflat := @pieces_flatten _ _ _ (uniqueValues params ps) hsize le_rfl
  rw [hpart _ hunique]
  constructor
  · rintro ⟨piece, hp, hr⟩
    rw [hpart _ (pieces_ne_nil hsize hp)] at hr
    rcases hr with hr | ⟨⟨p, hpp, heq⟩, hrest⟩
    · exact .inl hr
    · exact .inr ⟨⟨p, hflat ▸ List.mem_flatten_of_mem hp hpp, heq⟩, hrest⟩
  · rintro (hr | ⟨⟨p, hp, heq⟩, hrest⟩)
    · obtain ⟨p, hp⟩ := List.exists_mem_of_ne_nil _ hunique
      obtain ⟨piece, hpiece, -⟩ := List.mem_flatten.mp (hflat.symm ▸ hp)
      exact ⟨piece, hpiece, (hpart _ (pieces_ne_nil hsize hpiece)).mpr (.inl hr)⟩
    · obtain ⟨piece, hpiece, hpp⟩ := List.mem_flatten.mp (hflat.symm ▸ hp)
      exact ⟨piece, hpiece,
        (hpart _ (pieces_ne_nil hsize hpiece)).mpr (.inr ⟨⟨p, hpp, heq⟩, hrest⟩)⟩

theorem mem_uniqueValues_of_piece {size : Nat} (hsize : 0 < size) {piece : List Int}
    (h : piece ∈ pieces size (uniqueValues params ps).length (uniqueValues params ps)) :
    ∀ p ∈ piece, p ∈ uniqueValues params ps := by
  intro p hp
  rw [← @pieces_flatten _ _ _ (uniqueValues params ps) hsize le_rfl]
  exact List.mem_flatten_of_mem h hp

/-- The pieces of a read that is not of kind `one` return the rows of the kept values. -/
theorem mem_pieceRows (hkind : request.kind ≠ .one)
    (htarget : rootInTarget request = some (target, ps)) {size : Nat} (hsize : 0 < size)
    (row : Row) : row ∈ db.pieceRows params request target ps size ↔
      row ∈ db.rows params (withRootInList request target (uniqueValues params ps)) := by
  have hrows (qs : List Int) : db.rows params (withRootInList request target qs) =
      db.selected params (withRootInList request target qs) := rows_of_ne_one hkind
  simp only [Selection.pieceRows, hrows, List.mem_flatMap, mem_selected,
    ← selects_pieces htarget hsize]
  constructor
  · rintro ⟨piece, hp, r, hr, hsel, hrow⟩
    exact ⟨r, hr, ⟨piece, hp, hsel⟩, hrow⟩
  · rintro ⟨r, hr, ⟨piece, hp, hsel⟩, hrow⟩
    exact ⟨piece, hp, r, hr, hsel, hrow⟩

/-- The first rows of the keys are the one row of a statement just when they begin with it and all
have its key. -/
theorem keepFirst_one_iff {rows found : List Row}
    (hkeys : ∀ row ∈ found, (rowKey row refs).isSome = true) (hone : rows.length ≤ 1)
    (hnone : rows = [] → found = []) :
    (keepFirst (fun row => rowKey row refs) [] found).Perm rows ↔
      found.head? = rows.head? ∧
        ∀ row ∈ found, ∀ first ∈ rows, keyCells row refs = keyCells first refs := by
  cases rows with
  | nil => simp [hnone rfl, keepFirst]
  | cons first rest =>
    obtain rfl : rest = [] := by
      rw [List.length_cons] at hone
      exact List.length_eq_zero_iff.mp (by omega)
    rw [List.perm_singleton, keepFirst_eq_singleton_iff, List.head?_cons]
    simp only [List.mem_singleton, forall_eq]
    refine and_congr_right fun hhead => forall₂_congr fun row hrow => ?_
    have hcells (row : Row) (hrow : row ∈ found) : ∃ vs, keyCells row refs = some vs := by
      have hsome := hkeys row hrow
      rw [rowKey, Option.isSome_map] at hsome
      exact Option.isSome_iff_exists.mp hsome
    obtain ⟨vs, hvs⟩ := hcells row hrow
    obtain ⟨ws, hws⟩ := hcells first (List.mem_of_mem_head? hhead)
    rw [rowKey_eq_iff hvs hws, hvs, hws, Option.some_inj]

theorem rows_one (hkind : request.kind = .one) : (db.rows params request).length ≤ 1 := by
  rw [rows_of_one hkind, List.length_take]
  exact Nat.min_le_left _ _

/-- Where the whole statement returns no row, no piece of its list does. -/
theorem rows_none (hkind : request.kind = .one)
    (htarget : rootInTarget request = some (target, ps)) {size : Nat} (hsize : 0 < size)
    (h : db.rows params request = []) : db.pieceRows params request target ps size = [] := by
  have hselected : db.selected params request = [] := by
    rw [rows_of_one hkind, List.take_eq_nil_iff] at h
    exact h.resolve_left (by decide)
  rw [List.eq_nil_iff_forall_not_mem]
  intro row hrow
  obtain ⟨piece, hpiece, hrow⟩ := List.mem_flatMap.mp hrow
  rw [rows_of_one (kind_withRootInList request target piece ▸ hkind)] at hrow
  obtain ⟨r, hr, hsel, hout⟩ := mem_selected.mp (List.mem_of_mem_take hrow)
  have hwhole := selects_of_kept htarget (pieces_ne_nil hsize hpiece)
    (mem_uniqueValues_of_piece hsize hpiece) hsel
  have hmem : row ∈ db.selected params request := mem_selected.mpr ⟨r, hr, hwhole, hout⟩
  rw [hselected] at hmem
  cases hmem

/-- The parts that select a row are one or none, as the whole statement does or does not, just when
the row is counted once. -/
theorem countP_parts_iff (htarget : rootInTarget request = some (target, ps)) {size : Nat}
    (hsize : 0 < size) (r : R) :
    ((pieces size (uniqueValues params ps).length (uniqueValues params ps)).countP fun piece =>
      db.selects params (withRootInList request target piece) r) =
        (if db.selects params request r then 1 else 0) ↔
      db.CountedOnce params request target ps size r := by
  have hps := (rootInTarget_spec htarget).1
  have hunique := uniqueValues_ne_nil params hps
  obtain ⟨hwhole, hpart⟩ := selects_target db params htarget r
  have hflat := @pieces_flatten _ _ _ (uniqueValues params ps) hsize le_rfl
  have hcount := @countP_pieces_le_one_iff _ _ _ (uniqueValues params ps) hsize le_rfl
    (db.chosen params request target r)
  unfold Selection.CountedOnce
  by_cases halways : db.ruled params request target .no r = true
  · -- Every piece selects the row.
    have hall : ∀ piece ∈ pieces size (uniqueValues params ps).length (uniqueValues params ps),
        db.selects params (withRootInList request target piece) r = true :=
      fun piece hp => (hpart piece (pieces_ne_nil hsize hp)).mpr (.inl halways)
    have hone := @pieces_length_le_one_iff _ size _ (uniqueValues params ps) le_rfl
    have hpos : 0 < (pieces size (uniqueValues params ps).length
        (uniqueValues params ps)).length := by
      apply List.length_pos_of_ne_nil
      intro hnil
      rw [hnil] at hflat
      exact hunique hflat.symm
    rw [List.countP_eq_length.mpr hall, if_pos (hwhole.mpr (.inl halways)), if_pos halways]
    omega
  · rw [if_neg halways]
    by_cases hrest : db.ruled params request target .yes r = true
    · have hcongr : ((pieces size (uniqueValues params ps).length
          (uniqueValues params ps)).countP fun piece =>
            db.selects params (withRootInList request target piece) r) =
          (pieces size (uniqueValues params ps).length (uniqueValues params ps)).countP
            fun piece => piece.any (db.chosen params request target r) := by
        refine List.countP_congr fun piece hp => ?_
        rw [hpart piece (pieces_ne_nil hsize hp), List.any_eq_true]
        simp [halways, hrest]
      have hpos : 0 < (pieces size (uniqueValues params ps).length (uniqueValues params ps)).countP
          (fun piece => piece.any (db.chosen params request target r)) ↔
          ∃ q ∈ uniqueValues params ps, db.chosen params request target r q = true := by
        rw [List.countP_pos_iff]
        constructor
        · rintro ⟨piece, hp, hany⟩
          obtain ⟨q, hq, hc⟩ := List.any_eq_true.mp hany
          exact ⟨q, mem_uniqueValues_of_piece hsize hp q hq, hc⟩
        · rintro ⟨q, hq, hc⟩
          rw [← hflat] at hq
          obtain ⟨piece, hp, hq⟩ := List.mem_flatten.mp hq
          exact ⟨piece, hp, List.any_eq_true.mpr ⟨q, hq, hc⟩⟩
      have hsel : db.selects params request r = true ↔
          ∃ p ∈ ps, db.chosen params request target r p = true := by
        rw [hwhole]
        simp [halways, hrest]
      have hkept : (∃ q ∈ uniqueValues params ps, db.chosen params request target r q = true) →
          ∃ p ∈ ps, db.chosen params request target r p = true := by
        rintro ⟨q, hq, hc⟩
        exact ⟨q, uniqueValues_subset hq, hc⟩
      rw [hcongr, ← hcount]
      simp only [hrest, forall_true_left, ← hpos] at hkept ⊢
      split
      · rename_i hyes
        have hsome := hsel.mp hyes
        constructor
        · intro h
          exact ⟨fun _ _ _ => by omega, by omega⟩
        · rintro ⟨hcover, hle⟩
          obtain ⟨p, hp, hc⟩ := hsome
          have := hcover p hp hc
          omega
      · rename_i hno
        have hzero : ¬ 0 < (pieces size (uniqueValues params ps).length
            (uniqueValues params ps)).countP
              (fun piece => piece.any (db.chosen params request target r)) :=
          fun h => hno (hsel.mpr (hkept h))
        constructor
        · intro h
          exact ⟨fun p hp hc => absurd (hsel.mpr ⟨p, hp, hc⟩) hno, by omega⟩
        · intro _
          omega
    · have hzero : ((pieces size (uniqueValues params ps).length
          (uniqueValues params ps)).countP fun piece =>
            db.selects params (withRootInList request target piece) r) = 0 := by
        rw [List.countP_eq_zero]
        intro piece hp
        rw [hpart piece (pieces_ne_nil hsize hp)]
        simp [halways, hrest]
      have hno : ¬ db.selects params request r = true := by
        rw [hwhole]
        simp [halways, hrest]
      rw [hzero, if_neg hno]
      simp [hrest]

/-- The summed count of a split read is that of the whole statement, on every table with rows of
the given ones, just when each of these rows is counted once: by the values it equals, the places
of these in the list, and what the rest of the clause says of it. -/
theorem scalarCount_eq_iff
    (hparts : rootInParts request (splitReadPlan slotsOf request d params) d params = .ok parts)
    (hsplit : parts ≠ []) (htarget : rootInTarget request = some (target, ps)) :
    (∀ rows, rows ⊆ db.source →
      scalarCount { db with source := rows } params slotsOf request d =
        .ok (Selection.selected { db with source := rows } params request).length) ↔
      ∀ r ∈ db.source, db.CountedOnce params request target ps
        (partSize (splitReadPlan slotsOf request d params) d ps) r := by
  obtain ⟨target', ps', htarget', hpieces⟩ := rootInParts_spec hparts hsplit
  rw [htarget] at htarget'
  cases htarget'
  have hsize := partSize_pos (splitReadPlan slotsOf request d params) d ps
  have hlength (rows : List R) (req : Request) :
      (Selection.selected { db with source := rows } params req).length =
        rows.countP (db.selects params req) := by
    rw [Selection.selected, List.length_map, List.countP_eq_length_filter]
    rfl
  have hcount (rows : List R) : scalarCount { db with source := rows } params slotsOf request d =
      .ok (parts.map fun part => rows.countP (db.selects params part)).sum := by
    rw [scalarCount, hparts]
    simp only [bind, Except.bind, if_neg hsplit, hlength]
    rfl
  simp only [hcount, hlength, Except.ok.injEq]
  rw [sum_countP_eq_iff]
  refine forall₂_congr fun r _ => ?_
  rw [← countP_parts_iff htarget hsize r, hpieces, List.countP_map]
  have hcongr : ((pieces (partSize (splitReadPlan slotsOf request d params) d ps)
      (uniqueValues params ps).length (uniqueValues params ps)).countP
        ((fun part => db.selects params part r) ∘ fun slice =>
          withRootInList request target (padPart slice))) =
      (pieces (partSize (splitReadPlan slotsOf request d params) d ps)
        (uniqueValues params ps).length (uniqueValues params ps)).countP fun piece =>
          db.selects params (withRootInList request target piece) r := by
    refine List.countP_congr fun piece hp => ?_
    rw [Function.comp_apply, selects_padPart htarget (pieces_ne_nil hsize hp)]
  rw [hcongr]

end Results

section Small

def splitHead : Engine.Head where
  entity := "book"
  order := []
  groupBy := none
  limit := none
  forceIndex := ""
  lock := .none
  keyBy := ""
  flatten := false
  limitPerParent := 0
  ifParent := none
  noCascadeDelete := false

def inItem (column : String) (ps : List Int) : Item :=
  .mk (some (.mk ⟨.none, some column, .in_, none, ps, none, none, none, []⟩ none)) none none

/-- A condition with the `count` parameters from `first` on. -/
def notInItem (column : String) (first count : Nat) : Item :=
  .mk (some (.mk ⟨.and, some column, .notIn, none,
    List.map (fun i : Nat => (first + i : Int)) (List.range count), none, none, none, []⟩ none))
    none none

/-- A list of two values among conditions with 998 others: 1000 bind parameters. -/
def longRequest (kind : Engine.Kind) (column : String) : Request where
  irVersion := 1
  manifestHash := ""
  kind := kind
  load := false
  query := .mk splitHead none none (some (.mk .none false [inItem column [0, 1],
    notInItem "shop" 2 512, notInItem "shop" 514 256, notInItem "shop" 770 128,
    notInItem "shop" 898 64, notInItem "shop" 962 32, notInItem "shop" 994 4,
    notInItem "shop" 998 2])) [] []
  set := []
  onDuplicate := []
  rows := []
  optimistic := none
  agg := ""
  nParams := 1000

def itemSlots : Item → Nat
  | .mk (some p) _ _ => p.test.ps.length + p.test.p.toList.length
  | _ => 0

/-- One slot for every value of a root condition. -/
def rootSlots (request : Request) : Nat := ((rootItems request).map itemSlots).sum

/-- A book with two joined pages, of which it shows its key and the page. -/
def twoPages : Selection Nat where
  source := [1, 2]
  output page := [.number ['7'], .number (digits page)]
  before _ := []
  after _ := []
  item _ _ := .yes
  equals _ v _ := if v = .number ['7'] then .yes else .no

/-- A book with the decimal price 1.50. -/
def onePrice : Selection Nat where
  source := [7]
  output key := [.number (digits key)]
  before _ := []
  after _ := []
  item _ _ := .yes
  equals _ v _ := if v = .text ['1', '.', '5'] ∨ v = .text ['1', '.', '5', '0'] then .yes else .no

/-- Two values of the list, and the values of the other conditions. -/
def longParams (first second : Value) : List Value :=
  first :: second :: List.replicate 998 (.number ['0'])

theorem itemSlots_notInItem (column : String) (first count : Nat) :
    itemSlots (notInItem column first count) = count := by
  simp only [itemSlots, notInItem, Predicate.test, List.length_map, List.length_range,
    Option.toList_none, List.length_nil, Nat.add_zero]

theorem longRequest_slots (kind : Engine.Kind) (column : String) (v w : Value) :
    splitReadPlan rootSlots (longRequest kind column) .sqlite (longParams v w) = 1000 := by
  have htarget : rootInTarget (longRequest kind column) = some (0, [0, 1]) := rfl
  have hslots : rootSlots (withRootInList (longRequest kind column) 0 [0]) = 999 := by
    have hitems : rootItems (withRootInList (longRequest kind column) 0 [0]) =
        [inItem column [0], notInItem "shop" 2 512, notInItem "shop" 514 256,
          notInItem "shop" 770 128, notInItem "shop" 898 64, notInItem "shop" 962 32,
          notInItem "shop" 994 4, notInItem "shop" 998 2] := rfl
    have hfirst : itemSlots (inItem column [0]) = 1 := rfl
    rw [rootSlots, hitems]
    simp only [List.map_cons, List.map_nil, List.sum_cons, List.sum_nil, itemSlots_notInItem,
      hfirst, Nat.reduceAdd]
  have hlength : (longParams v w).length = 1000 := by
    simp only [longParams, List.length_cons, List.length_replicate]
  rw [splitReadPlan, hlength, htarget]
  simp only [driverLimit, List.take_succ_cons, List.take_zero, hslots]
  rfl

/-- Two books that the two values name. -/
def twoBooks : Selection Nat where
  source := [7, 8]
  output key := [.number (digits key)]
  before _ := []
  after _ := []
  item _ _ := .yes
  equals _ v key := if v = .number (digits key) then .yes else .no

def bookParams : List Value := longParams (.number ['7']) (.number ['8'])

theorem longRequest_parts (kind : Engine.Kind) : ∃ parts, rootInParts (longRequest kind "id")
    (splitReadPlan rootSlots (longRequest kind "id") .sqlite bookParams) .sqlite bookParams =
      .ok parts ∧ parts ≠ [] := by
  rw [bookParams, longRequest_slots]
  exact ⟨_, rfl, List.ne_nil_of_length_pos (by simp only [List.length_map]; decide +kernel)⟩

-- A read of kind `one` returns the first row of each part.
example : queryMain twoBooks bookParams rootSlots [0] (longRequest .one "id") .sqlite =
    .ok [[.number ['7']], [.number ['8']]] ∧
      twoBooks.rows bookParams (longRequest .one "id") = [[.number ['7']]] := by
  rw [queryMain, bookParams, longRequest_slots]
  decide +kernel

theorem scalarCount_twoBooks : scalarCount twoBooks bookParams rootSlots (longRequest .count "id")
    .sqlite = .ok (twoBooks.selected bookParams (longRequest .count "id")).length := by
  obtain ⟨parts, hparts, hne⟩ := longRequest_parts .count
  have htarget : rootInTarget (longRequest .count "id") = some (0, [0, 1]) := rfl
  refine (@scalarCount_eq_iff _ twoBooks _ _ _ _ _ _ _ hparts hne htarget).mpr ?_ [7, 8]
    (fun _ => id)
  intro r hr
  rw [bookParams, longRequest_slots]
  have hkept : uniqueValues bookParams [0, 1] = [0, 1] := by decide +kernel
  have hno : ∀ r ∈ twoBooks.source,
      twoBooks.ruled bookParams (longRequest .count "id") 0 .no r = false := by decide +kernel
  have hchosen : ∀ r ∈ twoBooks.source, ∀ p ∈ [0, 1], ∀ q ∈ [0, 1],
      twoBooks.chosen bookParams (longRequest .count "id") 0 r p = true →
      twoBooks.chosen bookParams (longRequest .count "id") 0 r q = true → p = q := by
    decide +kernel
  unfold Selection.CountedOnce
  rw [← bookParams, hkept, hno r hr]
  intro _
  refine ⟨fun p hp hc => ⟨p, hp, hc⟩, fun i j p q hi hj hp hq => ?_⟩
  obtain rfl := hchosen r hr p (List.mem_of_getElem? hi) q (List.mem_of_getElem? hj) hp hq
  have hij : i = j := by
    obtain ⟨hi', hi⟩ := List.getElem?_eq_some_iff.mp hi
    obtain ⟨hj', hj⟩ := List.getElem?_eq_some_iff.mp hj
    exact (List.Nodup.getElem_inj_iff (by decide)).mp (hi.trans hj.symm)
  rw [hij]

/-- A price that the list holds in two forms is counted twice. -/
theorem scalarCount_counts_twice :
    scalarCount onePrice (longParams (.text ['1', '.', '5']) (.text ['1', '.', '5', '0'])) rootSlots
        (longRequest .count "price") .sqlite = .ok 2 ∧
      (onePrice.selected (longParams (.text ['1', '.', '5']) (.text ['1', '.', '5', '0']))
        (longRequest .count "price")).length = 1 := by
  rw [scalarCount, longRequest_slots]
  decide +kernel

end Small

end Orm.Client
