import Orm.Engine.Sites

/-! The canonical form of a request for the plan cache: lists pad to a power of two and every
parameter reference gets a slot of its own. -/
namespace Orm.Engine

open Orm.Logic

/-- The numbers among the values of parameters: the value of an integer, and the safe integer that
a value is. -/
structure Numbers (V : Type) where
  ofInt : Int → V
  toSafe : V → Option Int
  toSafe_ofInt : ∀ n, -(2 ^ 53 - 1) ≤ n → n ≤ 2 ^ 53 - 1 → toSafe (ofInt n) = some n

def safeInteger (n : Int) : Bool := -(2 ^ 53 - 1) ≤ n && n ≤ 2 ^ 53 - 1

/-- The values of the slots so far, and the parameters that a reference named. -/
structure Slots (V : Type) where
  out : List V
  used : List Bool

/-- A walk that fails with an error, or that does not return, which is `none`. -/
abbrev Canonicalizer (V : Type) := StateT (Slots V) (Except (Option Failure))

/-- Doubles a bucket until it holds `n`. -/
def doubled : Nat → Nat → Nat → Option Nat
  | 0, _, _ => none
  | fuel + 1, bucket, n => if n ≤ bucket then some bucket else doubled fuel (2 * bucket) n

/-- The bucket of a list of `n` values. The bucket is a 32-bit integer: shifted beyond `2 ^ 30` it
is negative and then zero for ever. -/
def bucketOf (n : Nat) : Option Nat := doubled 31 1 n

/-- A list padded to its bucket by its last value. -/
def padded (ps : List Int) : Option (List Int) :=
  if ps = [] then some []
  else (bucketOf ps.length).map fun b => (List.range b).map fun j =>
    ps.getD (min j (ps.length - 1)) 0

def paramAt {V : Type} (params : List V) (p : Int) : Option V :=
  if 0 ≤ p then params[p.toNat]? else none

namespace Canonicalizer
variable {V : Type} (num : Numbers V) (params : List V)

/-- Adds a slot that holds a value. -/
def pageValue (v : V) : Canonicalizer V Int :=
  fun s => .ok (s.out.length, { s with out := s.out ++ [v] })

/-- Adds a slot that holds the value of parameter `p`. -/
def index (p : Int) : Canonicalizer V Int := fun s =>
  match paramAt params p with
  | none => .error (some (.orm .irInvalid
      s!"param index {p} out of range (n_params {params.length})"))
  | some v => .ok (s.out.length, ⟨s.out ++ [v], s.used.set p.toNat true⟩)

/-- Whether a value is an offset or a count of a page. -/
def pageCheck (count : Bool) (v : V) : Except (Option Failure) PUnit.{1} :=
  match num.toSafe v with
  | none => .error (some (.orm .codecEncode
      (if count then "page count must be a safe integer" else "page offset must be a safe integer")))
  | some n => if (if count then n ≤ 0 else n < 0) then
      .error (some (.orm .irInvalid "limit offset>=0, count>0")) else .ok ⟨⟩

/-- Renumbers a root page value that is a parameter already. -/
def pageIndex (count : Bool) (p : Int) : Canonicalizer V Int := fun s => do
  let (i, s') ← index params p s
  let _ ← (paramAt params p).elim (.ok ⟨⟩) (pageCheck num count)
  pure (i, s')

def list (ps : List Int) : Canonicalizer V (List Int) :=
  match padded ps with
  | none => throw none
  | some qs => qs.mapM (index params)

def limit : Bool → Limit → Canonicalizer V Limit
  | true, .values offset count =>
    if !safeInteger offset || !safeInteger count then
      throw (some (.orm .codecEncode "page offset and count must be safe integers"))
    else if offset < 0 ∨ count ≤ 0 then throw (some (.orm .irInvalid "limit offset>=0, count>0"))
    else do
      let i ← pageValue (num.ofInt offset)
      let j ← pageValue (num.ofInt count)
      pure (.params i j)
  | true, .params offset count => do
    let i ← pageIndex num params false offset
    let j ← pageIndex num params true count
    pure (.params i j)
  | false, .values offset count => pure (.values offset count)
  | false, .params _ _ =>
    throw (some (.orm .irInvalid "limit needs exactly offset and count"))

def visitor : Visitor (Slots V) (Option Failure) :=
  ⟨index params, list params, limit num params⟩

end Canonicalizer

/-- The parameters that no reference named. -/
def unused {V : Type} (params : List V) (used : List Bool) : List V :=
  (params.zip used).filterMap fun x => if x.2 then none else some x.1

/-- A request in canonical form, with the parameters in the order of their slots. -/
def canonicalize {V : Type} (num : Numbers V) (r : Request) (params : List V) :
    Except (Option Failure) (Request × List V) := do
  let (r', s) ← (Canonicalizer.visitor num params).request r ⟨[], params.map fun _ => false⟩
  let out := s.out ++ unused params s.used
  pure ({ r' with nParams := out.length }, out)

/-- A place of a request that takes a value: a parameter, or a value of the root page. -/
inductive Reference where
  | param (p : Int)
  | page (n : Int)
  deriving DecidableEq, Repr

def Reference.value {V : Type} (num : Numbers V) (params : List V) : Reference → Option V
  | .param p => paramAt params p
  | .page n => some (num.ofInt n)

namespace Reference

def add (x : Reference) : StateT (List Reference) (Except Empty) Int :=
  fun l => .ok (0, l ++ [x])

def limit : Bool → Limit → StateT (List Reference) (Except Empty) Limit
  | true, .values offset count => do
    let i ← add (.page offset)
    let j ← add (.page count)
    pure (.params i j)
  | true, .params offset count => do
    let i ← add (.param offset)
    let j ← add (.param count)
    pure (.params i j)
  | false, l => pure l

/-- Collects the references of a padded request and leaves zero in place of every index. -/
def visitor : Visitor (List Reference) Empty :=
  ⟨fun p => add (.param p), fun ps => ((padded ps).getD ps).mapM fun p => add (.param p), limit⟩

end Reference

/-- The references of a site, with those that a padded list repeats. -/
def Site.references : Site → List Reference
  | .index p => [.param p]
  | .list ps => ((padded ps).getD ps).map .param
  | .limit true (.values offset count) => [.page offset, .page count]
  | .limit true (.params offset count) => [.param offset, .param count]
  | .limit false _ => []

/-- The references of a request, with those that its padded lists repeat. -/
def references (r : Request) : List Reference := (Sites.request r).flatMap Site.references

/-- Zeros for indexes, for the entries of lists in their buckets, and for the root page. -/
def blank : Labels where
  index _ := 0
  list ps := ((padded ps).getD ps).map fun _ => 0
  limit root l := if root then .params 0 0 else l

/-- A request without parameter numbers, page values, and lengths of lists in their buckets. -/
def shape (r : Request) : Request := { blank.request r with nParams := 0 }

/-- The parameters that a request does not refer to. -/
def unreferenced {V : Type} (r : Request) (params : List V) : List V :=
  unused params ((List.range params.length).map fun i => decide (.param i ∈ references r))

section Padding

theorem doubled_spec {fuel b n c : Nat} (h : doubled fuel b n = some c) :
    n ≤ c ∧ doubled fuel b c = some c := by
  induction fuel generalizing b with
  | zero => cases h
  | succ fuel ih =>
    rw [doubled] at h ⊢
    by_cases hn : n ≤ b
    · rw [if_pos hn] at h
      obtain rfl := Option.some.inj h
      exact ⟨hn, if_pos le_rfl⟩
    · rw [if_neg hn] at h
      obtain ⟨hle, hself⟩ := ih h
      refine ⟨hle, ?_⟩
      rw [if_neg (by omega), hself]

variable {ps qs : List Int}

theorem padded_cons (hne : ps ≠ []) (h : padded ps = some qs) :
    bucketOf ps.length = some qs.length ∧
      qs = (List.range qs.length).map fun j => ps.getD (min j (ps.length - 1)) 0 := by
  rw [padded, if_neg hne] at h
  obtain ⟨b, hb, rfl⟩ := Option.map_eq_some_iff.mp h
  simp [hb]

/-- A list of the length of a padded list is padded. -/
theorem padded_self (h : padded ps = some qs) {l : List Int} (hl : l.length = qs.length) :
    padded l = some l := by
  by_cases hne : ps = []
  · obtain rfl : [] = qs := by simpa [padded, hne] using h
    obtain rfl := List.length_eq_zero_iff.mp hl
    rfl
  · obtain ⟨hb, -⟩ := padded_cons hne h
    obtain ⟨hle, hself⟩ := doubled_spec hb
    have hpos : 0 < ps.length := List.length_pos_of_ne_nil hne
    have hlne : l ≠ [] := by
      rintro rfl
      simp at hl
      omega
    rw [padded, if_neg hlne, hl, bucketOf, hself, Option.map_some, Option.some.injEq]
    apply List.ext_getElem (by simp [hl])
    intro i hi hi'
    rw [List.getElem_map, List.getElem_range, min_eq_left (by omega), List.getD_eq_getElem _ _ hi']

theorem mem_padded (h : padded ps = some qs) (p : Int) : p ∈ qs ↔ p ∈ ps := by
  by_cases hne : ps = []
  · obtain rfl : [] = qs := by simpa [padded, hne] using h
    rw [hne]
  · obtain ⟨hb, hqs⟩ := padded_cons hne h
    obtain ⟨hle, -⟩ := doubled_spec hb
    have hpos : 0 < ps.length := List.length_pos_of_ne_nil hne
    rw [hqs, List.mem_map]
    constructor
    · rintro ⟨j, -, rfl⟩
      rw [List.getD_eq_getElem _ _ (by omega)]
      exact List.getElem_mem _
    · intro hp
      obtain ⟨i, hi, rfl⟩ := List.getElem_of_mem hp
      refine ⟨i, List.mem_range.mpr (by omega), ?_⟩
      rw [min_eq_left (by omega), List.getD_eq_getElem _ _ hi]

end Padding

section Steps
variable {V : Type} {num : Numbers V} {params : List V}

/-- Marks the parameter of a reference. -/
def Reference.mark : Reference → List Bool → List Bool
  | .param p, used => used.set p.toNat true
  | .page _, used => used

/-- The two references of a root page. -/
def Limit.pages : Limit → Reference × Reference
  | .values offset count => (.page offset, .page count)
  | .params offset count => (.param offset, .param count)

/-- The slots after a reference whose value is `v`. -/
def Slots.push (s : Slots V) (x : Reference) (v : V) : Slots V := ⟨s.out ++ [v], x.mark s.used⟩

namespace Canonicalizer

theorem index_ok {p i : Int} {s s' : Slots V} (h : index params p s = .ok (i, s')) :
    ∃ v, paramAt params p = some v ∧ i = s.out.length ∧ s' = s.push (.param p) v := by
  unfold index at h
  cases hp : paramAt params p with
  | none => simp [hp] at h
  | some v =>
    simp only [hp, Except.ok.injEq, Prod.mk.injEq] at h
    exact ⟨v, rfl, h.1.symm, h.2.symm⟩

theorem index_run {p : Int} {v : V} (h : paramAt params p = some v) (s : Slots V) :
    index params p s = .ok (↑s.out.length, s.push (.param p) v) := by
  simp only [index, h]
  rfl

theorem pageIndex_ok {count : Bool} {p i : Int} {s s' : Slots V}
    (h : pageIndex num params count p s = .ok (i, s')) :
    ∃ v, paramAt params p = some v ∧ pageCheck num count v = .ok ⟨⟩ ∧ i = s.out.length ∧
      s' = s.push (.param p) v := by
  obtain ⟨⟨i', s''⟩, hindex, h⟩ := ok_bind.mp h
  obtain ⟨v, hv, rfl, rfl⟩ := index_ok hindex
  obtain ⟨⟨⟩, hcheck, h⟩ := ok_bind.mp h
  cases h
  exact ⟨v, hv, by simpa [hv] using hcheck, rfl, rfl⟩

theorem pageIndex_run {count : Bool} {p : Int} {v : V} (h : paramAt params p = some v)
    (hcheck : pageCheck num count v = .ok ⟨⟩) (s : Slots V) :
    pageIndex num params count p s = .ok (↑s.out.length, s.push (.param p) v) := by
  simp only [pageIndex, index_run h, h, Option.elim_some, hcheck]
  rfl

theorem pageCheck_ofInt {count : Bool} {n : Int} (hsafe : safeInteger n = true)
    (h : if count then 0 < n else 0 ≤ n) : pageCheck num count (num.ofInt n) = .ok ⟨⟩ := by
  simp only [safeInteger, Bool.and_eq_true, decide_eq_true_eq] at hsafe
  rw [pageCheck, num.toSafe_ofInt n hsafe.1 hsafe.2]
  cases count <;> simp at h ⊢ <;> omega

/-- What a root page that the walk accepts does. -/
theorem limit_root_ok {l l' : Limit} {s s' : Slots V}
    (h : limit num params true l s = .ok (l', s')) :
    ∃ v₁ v₂, l.pages.1.value num params = some v₁ ∧ l.pages.2.value num params = some v₂ ∧
      pageCheck num false v₁ = .ok ⟨⟩ ∧ pageCheck num true v₂ = .ok ⟨⟩ ∧
      l' = .params s.out.length (s.out.length + 1) ∧
      s' = (s.push l.pages.1 v₁).push l.pages.2 v₂ := by
  cases l with
  | values offset count =>
    rw [limit] at h
    split at h
    · cases h
    · rename_i hsafe
      split at h
      · cases h
      · rename_i hpos
        simp only [Bool.or_eq_true, Bool.not_eq_true', not_or, Bool.not_eq_false] at hsafe
        cases h
        refine ⟨_, _, rfl, rfl, pageCheck_ofInt hsafe.1 ?_, pageCheck_ofInt hsafe.2 ?_, ?_, rfl⟩
        · simp; omega
        · simp; omega
        · simp
  | params offset count =>
    obtain ⟨⟨i, s₁⟩, h₁, h⟩ := ok_bind.mp h
    obtain ⟨⟨j, s₂⟩, h₂, h⟩ := ok_bind.mp h
    obtain ⟨v₁, hv₁, hc₁, rfl, rfl⟩ := pageIndex_ok h₁
    obtain ⟨v₂, hv₂, hc₂, rfl, rfl⟩ := pageIndex_ok h₂
    cases h
    exact ⟨v₁, v₂, hv₁, hv₂, hc₁, hc₂, by simp [Slots.push], rfl⟩

theorem limit_ok {l l' : Limit} {s s' : Slots V}
    (h : limit num params false l s = .ok (l', s')) : l' = l ∧ s' = s := by
  cases l with
  | values offset count =>
    cases h
    exact ⟨rfl, rfl⟩
  | params offset count => cases h

theorem list_eq {ps qs : List Int} (h : padded ps = some qs) :
    list params ps = qs.mapM (index params) := by
  rw [list, h]

/-- A walk of a list, from that of an index, for visitors that walk the padded list. -/
theorem list_passes {τ υ ε₁ ε₂ : Type} {Good : Slots V → Prop} {I : Slots V → τ → υ → Prop}
    {v : Visitor τ ε₁} {u : Visitor υ ε₂}
    (hindex : ∀ p, Passes Good I (index params p) v.index (u.index p))
    (hv : ∀ l, padded l = some l → v.list l = l.mapM v.index)
    (hu : ∀ ps qs, padded ps = some qs → u.list ps = qs.mapM u.index) (ps : List Int) :
    Passes Good I (list params ps) v.list (u.list ps) := by
  unfold list
  cases hps : padded ps with
  | none =>
    intro s a s' h
    cases h
  | some qs =>
    have hlength : Holds (fun _ => True) (qs.mapM (index params)) fun l => l.length = qs.length :=
      (Holds.mapM (R := fun _ _ => True) fun _ _ _ _ _ _ _ => ⟨trivial, trivial⟩).mono
        fun l hl => hl.length_eq.symm
    have hall := (Passes.mapM qs fun p _ => hindex p).mapOf hlength (f := id) (g := id)
      (V := v.list) fun l hl => by rw [id, hv l (padded_self hps hl), id_map]
    simpa only [id_map, hu ps qs hps] using hall

end Canonicalizer

end Steps

end Orm.Engine
