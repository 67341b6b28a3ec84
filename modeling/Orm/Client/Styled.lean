import Orm.Client.Serialize

/-! Round trips of styled values through the stages `gz`, `base64` and `serialize`. -/
namespace Orm.Client

open Orm.Logic
open Orm.Engine (Failure Code Stage sortedEntries sortedEntries_congr)

section Normal
variable {F : Type}

/-- A map whose keys are exactly `0..n-1` is the list of its values; the order of other members does
not matter. -/
def listOrMap (ms : List (List Char × CodecValue F)) : CodecValue F :=
  match (List.range ms.length).mapM fun i => ms.lookup (digits i) with
  | some items => .list items
  | none => .map (sortedEntries memberName ms)

mutual

/-- A value up to the order of members and up to the identification of lists and maps. -/
def CodecValue.normal : CodecValue F → CodecValue F
  | .list items => .list (normalItems items)
  | .map members => listOrMap (normalMembers members)
  | v => v

def normalItems : List (CodecValue F) → List (CodecValue F)
  | [] => []
  | v :: vs => v.normal :: normalItems vs

def normalMembers : List (List Char × CodecValue F) → List (List Char × CodecValue F)
  | [] => []
  | (k, v) :: ms => (k, v.normal) :: normalMembers ms

end

theorem normalItems_eq (items : List (CodecValue F)) :
    normalItems items = items.map CodecValue.normal := by
  induction items with
  | nil => rfl
  | cons v items ih => rw [normalItems, ih, List.map_cons]

theorem normalMembers_eq (ms : List (List Char × CodecValue F)) :
    normalMembers ms = ms.map fun m => (m.1, m.2.normal) := by
  induction ms with
  | nil => rfl
  | cons m ms ih => rw [normalMembers, ih, List.map_cons]

/-- The keys of each map are distinct. -/
inductive CodecValue.Keyed : CodecValue F → Prop
  | null : Keyed .null
  | bool {b : Bool} : Keyed (.bool b)
  | int {i : Int} : Keyed (.int i)
  | float {x : F} : Keyed (.float x)
  | text {s : List Char} : Keyed (.text s)
  | list {items : List (CodecValue F)} (h : ∀ v ∈ items, Keyed v) : Keyed (.list items)
  | map {members : List (List Char × CodecValue F)} (hkeys : (members.map Prod.fst).Nodup)
      (hvalues : ∀ m ∈ members, Keyed m.2) : Keyed (.map members)

end Normal

section Lookup
variable {κ β : Type} [BEq κ] [LawfulBEq κ] {l l' : List (κ × β)} {k : κ} {x : β}

theorem lookup_iff (hl : (l.map Prod.fst).Nodup) : l.lookup k = some x ↔ (k, x) ∈ l := by
  constructor
  · intro h
    obtain ⟨l₁, l₂, rfl, -⟩ := List.lookup_eq_some_iff.mp h
    simp
  · intro h
    cases hget : l.lookup k with
    | none =>
      have hnone := List.lookup_eq_none_iff.mp hget _ h
      simp at hnone
    | some y =>
      obtain ⟨l₁, l₂, rfl, -⟩ := List.lookup_eq_some_iff.mp hget
      have heq := List.inj_on_of_nodup_map hl h (by simp : (k, y) ∈ l₁ ++ (k, y) :: l₂) rfl
      exact congrArg (fun p => some p.2) heq.symm

theorem lookup_perm (hl : (l.map Prod.fst).Nodup) (hperm : l.Perm l') : l.lookup k = l'.lookup k := by
  have hl' : (l'.map Prod.fst).Nodup := (hperm.map _).nodup_iff.mp hl
  refine Option.ext fun x => ?_
  rw [lookup_iff hl, lookup_iff hl', hperm.mem_iff]

/-- A function that is defined on a range gives the list of its values. -/
theorem mapM_range' {α : Type} {f : Nat → Option α} {i n : Nat} {items : List α} :
    (List.range' i n).mapM f = some items ↔
      items.length = n ∧ ∀ p ∈ items.zipIdx i, f p.2 = some p.1 := by
  induction n generalizing i items with
  | zero => cases items <;> simp
  | succ n ih =>
    rw [List.range'_succ, List.mapM_cons]
    cases items with
    | nil => simp [Option.bind_eq_some_iff]
    | cons x items =>
      rw [List.zipIdx_cons, List.forall_mem_cons, List.length_cons, Nat.add_right_cancel_iff]
      constructor
      · intro h
        obtain ⟨y, hy, h⟩ := Option.bind_eq_some_iff.mp h
        obtain ⟨ys, hys, h⟩ := Option.bind_eq_some_iff.mp h
        obtain ⟨rfl, rfl⟩ := List.cons.inj (Option.some.inj h)
        obtain ⟨hlength, hrest⟩ := ih.mp hys
        exact ⟨hlength, hy, hrest⟩
      · rintro ⟨hlength, hx, hrest⟩
        have hitems := ih.mpr ⟨hlength, hrest⟩
        dsimp only at hx
        simp [hx, hitems]

end Lookup

section Maps
variable {F : Type} {ms ms' : List (List Char × CodecValue F)}

theorem memberName_inj (hl : (ms.map Prod.fst).Nodup) :
    ∀ a ∈ ms, ∀ b ∈ ms, memberName a = memberName b → a = b := by
  intro a ha b hb hname
  exact List.inj_on_of_nodup_map hl ha hb (String.ofList_injective hname)

/-- The order of members does not matter. -/
theorem listOrMap_perm (hl : (ms.map Prod.fst).Nodup) (hperm : ms.Perm ms') :
    listOrMap ms = listOrMap ms' := by
  have hlookup : (fun i => ms.lookup (digits i)) = fun i => ms'.lookup (digits i) :=
    funext fun i => lookup_perm hl hperm
  unfold listOrMap
  rw [hperm.length_eq, sortedEntries_congr hperm (memberName_inj hl), hlookup]

/-- The members of a list, with their positions as keys. -/
def positioned (items : List (CodecValue F)) : List (List Char × CodecValue F) :=
  items.zipIdx.map fun p => (digits p.2, p.1)

theorem positioned_keys (items : List (CodecValue F)) :
    (positioned items).map Prod.fst = (List.range items.length).map digits := by
  rw [positioned, List.map_map, List.range_eq_range', ← List.zipIdx_map_snd 0 items, List.map_map]
  rfl

theorem positioned_nodup (items : List (CodecValue F)) :
    ((positioned items).map Prod.fst).Nodup := by
  rw [positioned_keys]
  exact List.nodup_range.map digits_injective

/-- Members whose keys are the positions in order are a list. -/
theorem listOrMap_positioned (items : List (CodecValue F)) :
    listOrMap (positioned items) = .list items := by
  have hlength : (positioned items).length = items.length := by simp [positioned]
  have hitems : (List.range items.length).mapM (fun i => (positioned items).lookup (digits i)) =
      some items := by
    rw [List.range_eq_range']
    refine mapM_range'.mpr ⟨rfl, fun p hp => ?_⟩
    exact (lookup_iff (positioned_nodup items)).mpr (List.mem_map.mpr ⟨p, hp, rfl⟩)
  rw [listOrMap, hlength, hitems]

/-- A map is a list when its members are those of the list, and else its sorted members. -/
theorem listOrMap_cases (hl : (ms.map Prod.fst).Nodup) :
    (∃ items, listOrMap ms = .list items ∧ (positioned items).Perm ms) ∨
      listOrMap ms = .map (sortedMembers ms) := by
  unfold listOrMap
  split
  · next items hitems =>
    rw [List.range_eq_range'] at hitems
    obtain ⟨hlength, hall⟩ := mapM_range'.mp hitems
    refine .inl ⟨items, rfl, List.Subperm.perm_of_length_le (List.subperm_of_subset ?_ ?_) ?_⟩
    · exact (positioned_nodup items).of_map _
    · intro e he
      obtain ⟨p, hp, rfl⟩ := List.mem_map.mp he
      exact (lookup_iff hl).mp (hall p hp)
    · simp [positioned, hlength]
  · exact .inr rfl

theorem weight_positioned (items : List (CodecValue F)) :
    (CodecValue.list items).weight = membersWeight (positioned items) := by
  have hfrom (i : Nat) : itemsWeight i items =
      membersWeight ((items.zipIdx i).map fun p => (digits p.2, p.1)) := by
    induction items generalizing i with
    | nil => rfl
    | cons v items ih => rw [itemsWeight, ih, List.zipIdx_cons, List.map_cons, membersWeight]
  exact hfrom 0

theorem membersWeight_perm (hperm : ms.Perm ms') : membersWeight ms = membersWeight ms' := by
  rw [membersWeight_eq, membersWeight_eq]
  exact (hperm.map _).sum_eq

theorem sortedMembers_perm (ms : List (List Char × CodecValue F)) : (sortedMembers ms).Perm ms :=
  List.perm_insertionSort _ _

/-- The weight does not see the identification of lists and maps. -/
theorem weight_listOrMap (hl : (ms.map Prod.fst).Nodup) : (listOrMap ms).weight = membersWeight ms := by
  rcases listOrMap_cases hl with ⟨items, heq, hperm⟩ | heq
  · rw [heq, weight_positioned, membersWeight_perm hperm]
  · rw [heq, CodecValue.weight, membersWeight_perm (sortedMembers_perm ms)]

/-- No key and no value is marked. -/
def UnmarkedMembers (ms : List (List Char × CodecValue F)) : Prop :=
  ∀ m ∈ ms, m.1.head? ≠ some '\uFEFF' ∧ m.2.Unmarked

theorem unmarked_map : (CodecValue.map ms).Unmarked ↔ UnmarkedMembers ms := by
  constructor
  · rintro (_ | _ | _ | _ | _ | _ | ⟨hkeys, hvalues⟩)
    exact fun m hm => ⟨hkeys m hm, hvalues m hm⟩
  · exact fun h => .map (fun m hm => (h m hm).1) fun m hm => (h m hm).2

theorem unmarked_list {items : List (CodecValue F)} :
    (CodecValue.list items).Unmarked ↔ ∀ v ∈ items, v.Unmarked := by
  constructor
  · rintro (_ | _ | _ | _ | _ | h | _)
    exact h
  · exact .list

theorem digits_unmarked (n : Nat) : (digits n).head? ≠ some '\uFEFF' := by
  intro h
  exact absurd (digits_digits n _ (List.mem_of_mem_head? h)) (by decide)

theorem unmarked_positioned {items : List (CodecValue F)} :
    (CodecValue.list items).Unmarked ↔ UnmarkedMembers (positioned items) := by
  rw [unmarked_list, UnmarkedMembers, positioned, List.forall_mem_map]
  constructor
  · exact fun h p hp => ⟨digits_unmarked _, h _ (List.fst_mem_of_mem_zipIdx hp)⟩
  · intro h v hv
    obtain ⟨i, hi, rfl⟩ := List.mem_iff_getElem.mp hv
    exact (h (items[i], i) (List.mem_zipIdx_iff_getElem?.mpr (List.getElem?_eq_getElem hi))).2

theorem unmarkedMembers_perm (hperm : ms.Perm ms') : UnmarkedMembers ms ↔ UnmarkedMembers ms' :=
  forall_congr' fun _ => imp_congr_left hperm.mem_iff

theorem unmarked_listOrMap (hl : (ms.map Prod.fst).Nodup) :
    (listOrMap ms).Unmarked ↔ UnmarkedMembers ms := by
  rcases listOrMap_cases hl with ⟨items, heq, hperm⟩ | heq
  · rw [heq, unmarked_positioned, unmarkedMembers_perm hperm]
  · rw [heq, unmarked_map, unmarkedMembers_perm (sortedMembers_perm ms)]

theorem normalMembers_keys (ms : List (List Char × CodecValue F)) :
    (normalMembers ms).map Prod.fst = ms.map Prod.fst := by
  rw [normalMembers_eq, List.map_map]
  rfl

theorem weight_normal {v : CodecValue F} (h : v.Keyed) : v.normal.weight = v.weight := by
  induction h with
  | null => rfl
  | bool => rfl
  | int => rfl
  | float => rfl
  | text => rfl
  | @list items _ ih =>
    have hfrom (i : Nat) (l : List (CodecValue F)) (hl : ∀ v ∈ l, v.normal.weight = v.weight) :
        itemsWeight i (normalItems l) = itemsWeight i l := by
      induction l generalizing i with
      | nil => rfl
      | cons v l ihl =>
        obtain ⟨hv, hl⟩ := List.forall_mem_cons.mp hl
        rw [normalItems, itemsWeight, itemsWeight, hv, ihl _ hl]
    exact hfrom 0 items ih
  | @map members hkeys _ ih =>
    have hnodup : ((normalMembers members).map Prod.fst).Nodup := by rwa [normalMembers_keys]
    rw [CodecValue.normal, weight_listOrMap hnodup, CodecValue.weight, membersWeight_eq,
      membersWeight_eq, normalMembers_eq, List.map_map]
    refine congrArg List.sum (List.map_congr_left fun m hm => ?_)
    exact congrArg (1 + m.1.length + ·) (ih m hm)

theorem unmarked_normal {v : CodecValue F} (h : v.Keyed) : v.normal.Unmarked ↔ v.Unmarked := by
  induction h with
  | null => exact Iff.rfl
  | bool => exact Iff.rfl
  | int => exact Iff.rfl
  | float => exact Iff.rfl
  | text => exact Iff.rfl
  | @list items _ ih =>
    rw [CodecValue.normal, unmarked_list, unmarked_list, normalItems_eq, List.forall_mem_map]
    exact forall₂_congr ih
  | @map members hkeys _ ih =>
    have hnodup : ((normalMembers members).map Prod.fst).Nodup := by rwa [normalMembers_keys]
    rw [CodecValue.normal, unmarked_listOrMap hnodup, unmarked_map, normalMembers_eq,
      UnmarkedMembers, List.forall_mem_map]
    exact forall₂_congr fun m hm => and_congr_right' (ih m hm)

end Maps

section Denoted
variable {F : Type} {numbers : Numbers F} {floats : FloatTexts F}

theorem CodecValue.Common.keyed {v : CodecValue F} (h : v.Common) : v.Keyed := by
  induction h with
  | null => exact .null
  | bool => exact .bool
  | int => exact .int
  | text => exact .text
  | list _ _ ih => exact .list ih
  | map _ hkeys _ _ ih => exact .map hkeys ih

theorem kept_nodup {κ α : Type} [DecidableEq κ] (l : List (κ × α)) :
    ((kept l).map Prod.fst).Nodup := by
  induction l with
  | nil => exact List.nodup_nil
  | cons e l ih =>
    rw [kept]
    split
    · exact ih
    · next hnot =>
      rw [List.map_cons, List.nodup_cons]
      refine ⟨fun hmem => hnot ?_, ih⟩
      obtain ⟨p, hp, heq⟩ := List.mem_map.mp hmem
      exact List.mem_map.mpr ⟨p, kept_subset l p hp, heq⟩

theorem kept_of_nodup {κ α : Type} [DecidableEq κ] {l : List (κ × α)} (h : (l.map Prod.fst).Nodup) :
    kept l = l := by
  induction l with
  | nil => rfl
  | cons e l ih =>
    obtain ⟨hnot, hrest⟩ := List.nodup_cons.mp h
    rw [kept, if_neg hnot, ih hrest]

theorem arrayValue_keyed {entries : List (Key × CodecValue F)} (h : ∀ e ∈ entries, e.2.Keyed) :
    (arrayValue entries).Keyed := by
  unfold arrayValue
  split
  · exact .list (List.forall_mem_map.mpr h)
  · refine .map (kept_nodup _) fun m hm => ?_
    obtain ⟨e, he, rfl⟩ := List.mem_map.mp (kept_subset _ m hm)
    exact h e he

/-- What a reader makes of a term has distinct keys. -/
theorem Term.Derives.keyed {t : Term} (h : t.Derives numbers) (chars : Bytes → List Char) :
    (t.value numbers chars).Keyed := by
  induction h with
  | null => exact .null
  | bool => exact .bool
  | float => exact .float
  | @word w _ =>
    rw [Term.value]
    cases w.key chars with
    | int i => exact .int
    | text s => exact .text
  | array _ _ _ _ _ ih =>
    rw [Term.value, PhpParser.entriesValue_eq]
    exact arrayValue_keyed (List.forall_mem_map.mpr ih)

end Denoted

section Written
variable {F : Type} {numbers : Numbers F} {floats : FloatTexts F}

theorem itemTerms_value (chars : Bytes → List Char) (items : List (CodecValue F)) :
    entriesValue numbers chars (itemTerms floats 0 items) = items.zipIdx.map fun p =>
      (.int (signedInt (chars (Utf8.encode (digits p.2)))), (p.1.term floats).value numbers chars) := by
  rw [PhpParser.entriesValue_eq, itemTerms_eq, List.map_map]
  rfl

/-- A list is written as its entries in order, so it denotes the list of what they denote. -/
theorem list_denoted (items : List (CodecValue F)) :
    (CodecValue.term floats (.list items)).value numbers Utf8.decode =
      .list (items.map fun v => (v.term floats).value numbers Utf8.decode) := by
  have hkey (n : Nat) : signedInt (Utf8.decode (Utf8.encode (digits n))) = n := by
    rw [Utf8.decode_encode, (unsignedText_digits (digits_digits n)).2, number_digits]
  have hvalues : entriesValue numbers Utf8.decode (itemTerms floats 0 items) =
      items.zipIdx.map fun p =>
        (.int (p.2 : Nat), (p.1.term floats).value numbers Utf8.decode) := by
    rw [itemTerms_value]
    exact List.map_congr_left fun p _ => by rw [hkey]
  have hsequential : sequential (entriesValue numbers Utf8.decode (itemTerms floats 0 items)) = true := by
    rw [hvalues, sequential, List.map_map, List.length_map, List.length_zipIdx, List.range_eq_range',
      ← List.zipIdx_map_snd 0 items, List.map_map]
    exact decide_eq_true rfl
  rw [CodecValue.term, Term.value, arrayValue, if_pos hsequential, hvalues, List.map_map,
    ← List.zipIdx_map_fst 0 items, List.map_map]
  simp only [List.zipIdx_map_fst]
  rfl

/-- A map is written as its members in the order of their keys. -/
theorem map_denoted (members : List (List Char × CodecValue F)) :
    (CodecValue.term floats (.map members)).value numbers Utf8.decode =
      arrayValue ((sortedMembers members).map fun m =>
        ((keyWord m.1).key Utf8.decode, (m.2.term floats).value numbers Utf8.decode)) := by
  rw [CodecValue.term, Term.value, PhpParser.entriesValue_eq, sortedEntries_terms, List.map_map,
    List.map_map]
  rfl

theorem positioned_of_keys {ms : List (List Char × CodecValue F)}
    (h : ms.map Prod.fst = (List.range ms.length).map digits) : positioned (ms.map Prod.snd) = ms := by
  have hparts (l : List (List Char × CodecValue F)) : (l.map Prod.fst).zip (l.map Prod.snd) = l := by
    have hzip := List.zip_unzip l
    rwa [List.unzip_eq_map] at hzip
  have hkeys := positioned_keys (ms.map Prod.snd)
  have hvalues : (positioned (ms.map Prod.snd)).map Prod.snd = ms.map Prod.snd := by
    rw [positioned, List.map_map]
    exact List.zipIdx_map_fst 0 _
  rw [List.length_map, ← h] at hkeys
  rw [← hparts (positioned (ms.map Prod.snd)), hkeys, hvalues, hparts]

/-- The normal form of a map from its members in the order of their keys. -/
theorem normal_sorted {members : List (List Char × CodecValue F)}
    (hkeys : (members.map Prod.fst).Nodup) : CodecValue.normal (.map members) =
      listOrMap ((sortedMembers members).map fun m => (m.1, m.2.normal)) := by
  have hnodup : ((normalMembers members).map Prod.fst).Nodup := by rwa [normalMembers_keys]
  rw [CodecValue.normal, ← normalMembers_eq]
  refine listOrMap_perm hnodup ?_
  rw [normalMembers_eq, normalMembers_eq]
  exact ((sortedMembers_perm members).map _).symm

/-- Entries that are read as a list have the positions as keys. -/
theorem keys_of_sequential {ms : List (List Char × CodecValue F)}
    {value : List Char × CodecValue F → CodecValue F}
    (h : sequential (ms.map fun m => ((keyWord m.1).key Utf8.decode, value m)) = true) :
    ms.map Prod.fst = (List.range ms.length).map digits := by
  have hkeys := congrArg (List.map Key.name) (of_decide_eq_true h)
  rw [List.map_map, List.map_map, List.map_map, List.length_map] at hkeys
  have hnames : ms.map ((Key.name ∘ Prod.fst) ∘ fun m => ((keyWord m.1).key Utf8.decode, value m)) =
      ms.map Prod.fst := List.map_congr_left fun m _ => keyWord_name m.1
  rw [← hnames, hkeys]
  rfl

/-- What the text of a value denotes is the value, up to the order of members and the identification
of lists and maps. -/
theorem normal_denoted {v : CodecValue F} (h : v.Common) :
    ((v.term floats).value numbers Utf8.decode).normal = v.normal := by
  induction h with
  | null => rfl
  | @bool b => cases b <;> rfl
  | @int i =>
    rw [CodecValue.term, Term.value, Word.key, Utf8.decode_encode, (intDigits_value i).2]
    rfl
  | @text s =>
    rw [CodecValue.term, Term.value, textWord, Word.key, Utf8.decode_encode]
    rfl
  | @list items _ _ ih =>
    rw [list_denoted, CodecValue.normal, CodecValue.normal, normalItems_eq, normalItems_eq,
      List.map_map]
    exact congrArg CodecValue.list (List.map_congr_left ih)
  | @map members _ hkeys _ _ ih =>
    have hperm := sortedMembers_perm members
    have hnodup : ((sortedMembers members).map Prod.fst).Nodup :=
      (hperm.map _).nodup_iff.mpr hkeys
    have hvalue : ∀ m ∈ sortedMembers members,
        ((m.2.term floats).value numbers Utf8.decode).normal = m.2.normal :=
      fun m hm => ih m (hperm.mem_iff.mp hm)
    rw [map_denoted, normal_sorted hkeys, arrayValue]
    split
    · next hsequential =>
      have hpositions := keys_of_sequential hsequential
      have hentries : positioned ((sortedMembers members).map fun m => m.2.normal) =
          (sortedMembers members).map fun m => (m.1, m.2.normal) := by
        have hkeys' : ((sortedMembers members).map fun m => (m.1, m.2.normal)).map Prod.fst =
            (List.range ((sortedMembers members).map fun m => (m.1, m.2.normal)).length).map
              digits := by
          rwa [List.map_map, List.length_map]
        rw [← positioned_of_keys hkeys', List.map_map]
        rfl
      rw [CodecValue.normal, normalItems_eq, ← hentries, listOrMap_positioned, List.map_map,
        List.map_map]
      exact congrArg CodecValue.list (List.map_congr_left hvalue)
    · have hnames : ((sortedMembers members).map fun m =>
          ((keyWord m.1).key Utf8.decode, (m.2.term floats).value numbers Utf8.decode)).map
            (fun e => (e.1.name, e.2)) = (sortedMembers members).map fun m =>
              (m.1, (m.2.term floats).value numbers Utf8.decode) := by
        rw [List.map_map]
        exact List.map_congr_left fun m _ => congrArg (·, _) (keyWord_name m.1)
      have hkept : (((sortedMembers members).map fun m =>
          (m.1, (m.2.term floats).value numbers Utf8.decode)).map Prod.fst).Nodup := by
        rwa [List.map_map]
      rw [hnames, kept_of_nodup hkept, CodecValue.normal, normalMembers_eq, List.map_map]
      exact congrArg listOrMap (List.map_congr_left fun m hm => congrArg (m.1, ·) (hvalue m hm))

/-- What the reader makes of the text of a value is the value exactly when nothing is marked. -/
theorem normal_read_iff {v : CodecValue F} (h : v.Common) {s : List Char}
    (hs : phpSerialize numbers floats v = .ok s) :
    ((v.term floats).value numbers stringOf).normal = v.normal ↔ v.Unmarked := by
  obtain ⟨-, hderives, -⟩ := phpSerialize_term h hs
  have hloses := hderives.loses
  have hnormal : ((v.term floats).value numbers Utf8.decode).normal = v.normal := normal_denoted h
  have hmarked : ((v.term floats).value numbers Utf8.decode).Unmarked ↔ v.Unmarked := by
    rw [← unmarked_normal (hderives.keyed _), hnormal, unmarked_normal h.keyed]
  rw [← hmarked]
  constructor
  · intro heq
    by_contra hnot
    have hlt := hloses.lt hnot
    have hweight := congrArg CodecValue.weight (heq.trans hnormal.symm)
    rw [weight_normal (hderives.keyed _), weight_normal (hderives.keyed _)] at hweight
    omega
  · intro hunmarked
    rw [hloses.eq hunmarked, hnormal]

theorem unserialize_term {v : CodecValue F} (h : v.Common) {s : List Char}
    (hs : phpSerialize numbers floats v = .ok s) :
    unserialize numbers (Utf8.encode s) = .ok ((v.term floats).value numbers stringOf) := by
  obtain ⟨hbytes, -, haccepted⟩ := phpSerialize_term h hs
  have hparse : PhpParser.parse numbers (Utf8.encode s) =
      .ok ((v.term floats).value numbers stringOf) :=
    PhpParser.parse_iff.mpr ⟨_, haccepted, hbytes, rfl⟩
  rw [unserialize, hparse]

end Written

section Framing
variable {F : Type} (numbers : Numbers F) (floats : FloatTexts F) (zlib : Zlib)

theorem latin1_ascii {s : List Char} (h : ∀ c ∈ s, c.toNat < 128) :
    (Utf8.encode s).map (fun b => Char.ofNat b.toNat) = s := by
  induction s with
  | nil => rfl
  | cons c s ih =>
    obtain ⟨hc, hs⟩ := List.forall_mem_cons.mp h
    rw [Utf8.encode_cons, Utf8.encodeChar_ascii hc, List.map_append, ih hs]
    have hbyte : (UInt8.ofNat c.toNat).toNat = c.toNat := by
      rw [UInt8.toNat_ofNat']
      omega
    rw [List.map_singleton, hbyte, Char.ofNat_toNat]
    rfl

theorem decodeBase64_encode (b : Bytes) : decodeBase64 (Utf8.encode (Base64.encode b)) = .ok b := by
  have hchars := Base64.isChar_encode b
  have hsource := latin1_ascii fun c hc => Base64.isChar_ascii (hchars c hc)
  have hall : (Base64.encode b).all Base64.IsChar = true := List.all_eq_true.mpr hchars
  simp only [decodeBase64, hsource, hall, Base64.decode_encode, decide_true, Bool.and_self, if_true]

/-- A serialized value starts with the letter of its type. -/
theorem phpSerialize_head {v : CodecValue F} {s : List Char}
    (h : phpSerialize numbers floats v = .ok s) : ∃ c, s.head? = some c ∧ c ≠ '\uFEFF' := by
  cases v with
  | null =>
    cases h
    exact ⟨'N', rfl, by decide⟩
  | bool b =>
    cases h
    exact ⟨'b', rfl, by decide⟩
  | int i =>
    rw [phpSerialize] at h
    split at h
    · cases h
      exact ⟨'i', rfl, by decide⟩
    · cases h
  | float x =>
    rw [phpSerialize] at h
    split at h
    · cases h
      exact ⟨'d', rfl, by decide⟩
    · cases h
  | text t =>
    cases h
    exact ⟨'s', rfl, by decide⟩
  | list items =>
    rw [phpSerialize] at h
    obtain ⟨parts, -, h⟩ := ok_bind.mp h
    cases h
    exact ⟨'a', rfl, by decide⟩
  | map members =>
    rw [phpSerialize] at h
    obtain ⟨parts, -, h⟩ := ok_bind.mp h
    cases h
    exact ⟨'a', rfl, by decide⟩

theorem phpCoders_framed : (phpCoders numbers floats zlib).Framed where
  inflate_deflate := zlib.inflate_deflate
  unbase64_base64 := decodeBase64_encode
  deflate_ne := zlib.deflate_ne
  write_head := by
    intro stage v s h
    simp only [phpCoders] at h
    split at h
    · exact phpSerialize_head numbers floats h
    · cases h
  base64_head := by
    intro b h
    have hchar := Base64.isChar_encode b _ (List.mem_of_mem_head? h)
    exact absurd (Base64.isChar_ascii hchar) (by decide)

end Framing

section RoundTrip
variable {F : Type} {numbers : Numbers F} {floats : FloatTexts F} {zlib : Zlib}
variable {styles : List Stage} {v : CodecValue F} {cell : Cell}

/-- A list that starts with the value stage reads what the reader makes of the written value. -/
theorem decode_serialize {rest : List Stage} (hv : v.Common)
    (h : encodeStyled (phpCoders numbers floats zlib) (.serialize :: rest) (some v) = .ok cell) :
    decode (phpCoders numbers floats zlib) (.serialize :: rest) cell =
      .ok (some ((v.term floats).value numbers stringOf)) ∧
      ∃ s, phpSerialize numbers floats v = .ok s := by
  have hframed := phpCoders_framed numbers floats zlib
  obtain ⟨htail, hhost, hcell, -, hempty, first, -, hfold⟩ :=
    encodeStyled_ok hframed (List.cons_ne_nil _ _) h
  rw [List.foldlM_cons] at hfold
  obtain ⟨mid, hmid, hfold⟩ := ok_bind.mp hfold
  rw [clientStage, map_eq_pure_bind] at hmid
  obtain ⟨s, hs, hmid⟩ := ok_bind.mp hmid
  cases hmid
  have hs : phpSerialize numbers floats v = .ok s := hs
  refine ⟨decode_of_bytes htail hhost hcell hempty ?_, s, hs⟩
  have hrest : Plain rest := htail
  rw [List.reverse_cons, decodeClient_plain hframed [.serialize] hrest hfold]
  have hread : (phpCoders numbers floats zlib).read .serialize (Utf8.encode s) =
      .ok ((v.term floats).value numbers stringOf) := unserialize_term hv hs
  rw [decodeClient, hread]
  · rfl
  · simp
  · simp

theorem string_mark (code : Code) (s : List Char) :
    string code (Utf8.encode s) = .ok (dropMark s) := by
  rw [string, if_pos (by rw [Utf8.decode_encode]), Utf8.decode_encode]
  rfl

theorem firstBytes_text (hstyles : styles.head?.any valueStage = false) {first : Bytes}
    (h : firstBytes (phpCoders numbers floats zlib) styles v = .ok first) :
    ∃ s, v = .text s ∧ first = Utf8.encode s := by
  rw [firstBytes, hstyles] at h
  cases v with
  | text s =>
    cases h
    exact ⟨s, rfl, rfl⟩
  | null => cases h
  | bool => cases h
  | int => cases h
  | float => cases h
  | list => cases h
  | map => cases h

/-- A list that starts with another stage reads a text without its leading mark. -/
theorem decode_plain {stage : Stage} {rest : List Stage} (hstage : stage = .gz ∨ stage = .base64)
    (h : encodeStyled (phpCoders numbers floats zlib) (stage :: rest) (some v) = .ok cell) :
    ∃ s, v = .text s ∧ decode (phpCoders numbers floats zlib) (stage :: rest) cell =
      .ok (some (.text (dropMark s))) := by
  have hframed := phpCoders_framed numbers floats zlib
  obtain ⟨htail, hhost, hcell, -, hempty, first, hfirst, hfold⟩ :=
    encodeStyled_ok hframed (List.cons_ne_nil _ _) h
  have hplain : Plain (stage :: rest) := List.forall_mem_cons.mpr ⟨hstage, htail⟩
  have hvalue : (stage :: rest).head?.any valueStage = false := by
    rcases hstage with rfl | rfl <;> rfl
  obtain ⟨s, rfl, rfl⟩ := firstBytes_text hvalue hfirst
  have hback := decodeClient_plain hframed [] hplain hfold
  rw [List.append_nil, decodeClient, string_mark] at hback
  exact ⟨s, rfl, decode_of_bytes htail hhost hcell hempty hback⟩

/-- Without stages a text is read as text when it is written and when it is read. -/
theorem decode_nil (h : encodeStyled (phpCoders numbers floats zlib) [] (some v) = .ok cell) :
    ∃ s, v = .text s ∧ decode (phpCoders numbers floats zlib) [] cell =
      .ok (some (.text (dropMark (dropMark s)))) := by
  obtain ⟨u, -, h⟩ := ok_bind.mp h
  obtain ⟨first, hfirst, h⟩ := ok_bind.mp h
  obtain ⟨out, hout, h⟩ := ok_bind.mp h
  obtain ⟨s, rfl, rfl⟩ := firstBytes_text rfl hfirst
  cases hout
  have hcell : Cell.text (dropMark s) = cell := by
    simpa [string_mark] using h
  subst hcell
  refine ⟨s, rfl, ?_⟩
  have hback : decodeClient (phpCoders numbers floats zlib) [] (Utf8.encode (dropMark s)) =
      .ok (.text (dropMark (dropMark s))) := by
    rw [decodeClient, string_mark]
    rfl
  have hcheck : checkStyles [] = .ok ⟨⟩ := rfl
  simp [decode, hcheck, plainBytes, hback, bind, Except.bind, Functor.map, Except.map]

theorem unmarked_text {s : List Char} :
    (CodecValue.text s : CodecValue F).Unmarked ↔ s.head? ≠ some '\uFEFF' := by
  constructor
  · rintro (_ | _ | _ | _ | h | _ | _)
    exact h
  · exact .text

/-- A text that loses a leading mark is not read back. -/
theorem text_back_iff {s t : List Char} (hle : t.length ≤ (dropMark s).length)
    (heq : s.head? ≠ some '\uFEFF' → t = s) :
    (CodecValue.text t : CodecValue F).normal = CodecValue.normal (.text s) ↔
      (CodecValue.text s : CodecValue F).Unmarked := by
  rw [unmarked_text]
  constructor
  · intro h hmark
    have hts : t = s := CodecValue.text.inj h
    have hlt := length_dropMark_lt hmark
    rw [hts] at hle
    omega
  · intro h
    rw [heq h]

/-- A value comes back from its stages, up to the order of members and the identification of lists
and maps, exactly when none of its texts and keys starts with a byte order mark. -/
theorem decode_encodeStyled_iff
    (hstyles : ∀ stage ∈ styles, stage = .gz ∨ stage = .base64 ∨ stage = .serialize) (hv : v.Common)
    (h : encodeStyled (phpCoders numbers floats zlib) styles (some v) = .ok cell) :
    (∃ w, decode (phpCoders numbers floats zlib) styles cell = .ok (some w) ∧
      w.normal = v.normal) ↔ v.Unmarked := by
  have hback {w : CodecValue F} (hw : decode (phpCoders numbers floats zlib) styles cell =
      .ok (some w)) : (∃ w, decode (phpCoders numbers floats zlib) styles cell = .ok (some w) ∧
        w.normal = v.normal) ↔ w.normal = v.normal := by
    simp [hw]
  cases styles with
  | nil =>
    obtain ⟨s, rfl, hdecode⟩ := decode_nil h
    refine (hback hdecode).trans (text_back_iff (length_dropMark_le _) fun hs => ?_)
    rw [dropMark_of_head hs, dropMark_of_head hs]
  | cons stage rest =>
    rcases hstyles stage List.mem_cons_self with hstage | hstage | rfl
    · obtain ⟨s, rfl, hdecode⟩ := decode_plain (.inl hstage) h
      exact (hback hdecode).trans (text_back_iff le_rfl dropMark_of_head)
    · obtain ⟨s, rfl, hdecode⟩ := decode_plain (.inr hstage) h
      exact (hback hdecode).trans (text_back_iff le_rfl dropMark_of_head)
    · obtain ⟨hdecode, s, hs⟩ := decode_serialize hv h
      exact (hback hdecode).trans (normal_read_iff hv hs)

theorem encodeStyled_serialize {s : List Char} (h : phpSerialize numbers floats v = .ok s) :
    encodeStyled (phpCoders numbers floats zlib) [.serialize] (some v) = .ok (.text (dropMark s)) := by
  have hstage : clientStage (phpCoders numbers floats zlib) v [] .serialize = .ok (Utf8.encode s) := by
    have hwrite : (phpCoders numbers floats zlib).write .serialize v = .ok s := h
    rw [clientStage, hwrite]
    rfl
  have hcheck : checkStyles [.serialize] = .ok ⟨⟩ := rfl
  have hfirst : firstBytes (phpCoders numbers floats zlib) [.serialize] v = .ok [] := rfl
  simp [encodeStyled, hcheck, hfirst, hstage, string_mark, bind, Except.bind, Functor.map, Except.map,
    pure, Except.pure]

end RoundTrip

section Concrete

def digitTexts : FloatTexts (Option Nat) := ⟨fun _ => [], fun _ => []⟩

/-- Streams of one stored block behind a header byte. -/
def storedZlib : Zlib where
  deflate b := 120 :: b
  inflate
    | 120 :: b => .ok b
    | _ => .error (.orm .codecDecode "gz: incorrect header check")
  inflate_deflate _ := rfl
  deflate_ne _ := List.cons_ne_nil _ _

/-- A map of a list comes back. -/
theorem decode_encodeStyled_map :
    ∃ cell, encodeStyled (phpCoders digitNumbers digitTexts storedZlib) [.serialize]
        (some (.map [(['k'], .list [.int 7, .text ['x']])])) = .ok cell ∧
      ∃ w, decode (phpCoders digitNumbers digitTexts storedZlib) [.serialize] cell = .ok (some w) ∧
        w.normal = CodecValue.normal (.map [(['k'], .list [.int 7, .text ['x']])]) := by
  refine ⟨_, encodeStyled_serialize rfl, ?_⟩
  refine (decode_encodeStyled_iff (by simp) ?_ (encodeStyled_serialize rfl)).mpr ?_
  · refine .map (by decide) (by simp) (by simp) ?_
    simp only [List.mem_singleton, forall_eq]
    refine .list (by decide) ?_
    simp only [List.mem_cons, List.not_mem_nil, or_false, forall_eq_or_imp, forall_eq]
    exact ⟨.int, .text (by decide)⟩
  · refine .map (by simp) ?_
    simp only [List.mem_singleton, forall_eq]
    refine .list ?_
    simp only [List.mem_cons, List.not_mem_nil, or_false, forall_eq_or_imp, forall_eq]
    exact ⟨.int, .text (by simp)⟩

/-- A serialized text that starts with a byte order mark is not read back. -/
theorem decode_encodeStyled_fails :
    ∃ cell, encodeStyled (phpCoders digitNumbers digitTexts storedZlib) [.serialize]
        (some (.text ['\uFEFF', 'a'])) = .ok cell ∧
      ¬ ∃ w, decode (phpCoders digitNumbers digitTexts storedZlib) [.serialize] cell =
        .ok (some w) ∧ w.normal = CodecValue.normal (.text ['\uFEFF', 'a']) := by
  have hv : CodecValue.Common (.text ['\uFEFF', 'a'] : CodecValue (Option Nat)) := .text (by decide)
  have hwrite : phpSerialize digitNumbers digitTexts (.text ['\uFEFF', 'a']) =
      .ok (phpText ['\uFEFF', 'a']) := rfl
  have hencode : encodeStyled (phpCoders digitNumbers digitTexts storedZlib) [.serialize] _ = .ok _ :=
    encodeStyled_serialize hwrite
  obtain ⟨hdecode, -⟩ := decode_serialize hv hencode
  refine ⟨_, hencode, ?_⟩
  rintro ⟨w, hw, hnormal⟩
  rw [hdecode] at hw
  obtain rfl := Option.some.inj (Except.ok.inj hw)
  have hunmarked := (normal_read_iff hv hwrite).mp hnormal
  exact unmarked_text.mp hunmarked rfl

end Concrete

end Orm.Client
