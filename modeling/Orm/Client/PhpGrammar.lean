import Orm.Client.Php

/-! The grammar of PHP serialized values, and the cells on which the reader keeps to it. -/
namespace Orm.Client

open Orm.Logic
open PhpParser (Refers DecodeFailure objectFailure parse_iff parse_refused)

section Grammar
variable {F : Type}

/-- An integer of the i64 range with an optional sign, or a string after its length in bytes. -/
inductive Word.Derives : Word → Prop
  | int {s : List Char} (htext : intText s = true) (hrange : i64 (signedInt s) = true) :
      Derives (.int (Utf8.encode s))
  | text {ds s : List Char} (hne : ds ≠ []) (hds : Digits ds)
      (hlength : number ds = (Utf8.encode s).length) : Derives (.text (Utf8.encode ds) (Utf8.encode s))

/-- The terms of the grammar; a float is written as the client reads one. -/
inductive Term.Derives (numbers : Numbers F) : Term → Prop
  | null : Derives numbers .null
  | bool {c : Char} (hc : c = '0' ∨ c = '1') : Derives numbers (.bool (Utf8.encode [c]))
  | float {raw : Bytes} (hraw : Raw 59 raw) (hmark : (Utf8.decode raw).head? ≠ some '\uFEFF')
      (hfinite : numbers.finite (numbers.ofText (Utf8.decode raw)) = true) :
      Derives numbers (.float raw)
  | word {w : Word} (hw : w.Derives) : Derives numbers (.word w)
  | array {ds : List Char} {entries : List (Word × Term)} (hne : ds ≠ []) (hds : Digits ds)
      (hcount : number ds = entries.length) (hkeys : ∀ e ∈ entries, e.1.Derives)
      (hvalues : ∀ e ∈ entries, Derives numbers e.2) :
      Derives numbers (.array (Utf8.encode ds) entries)

theorem dropMark_of_head {s : List Char} (h : s.head? ≠ some '\uFEFF') : dropMark s = s := if_neg h

theorem stringOf_encode {s : List Char} (h : s.head? ≠ some '\uFEFF') :
    stringOf (Utf8.encode s) = s := by
  rw [stringOf, Utf8.decode_encode, dropMark_of_head h]

/-- A text of signs and digits is its own text, and has no delimiter. -/
theorem raw_encode {s : List Char} {d : UInt8} (hd : d = 58 ∨ d = 59)
    (hs : ∀ c ∈ s, c = '+' ∨ c = '-' ∨ c.isDigit = true) :
    Raw d (Utf8.encode s) ∧ stringOf (Utf8.encode s) = s := by
  have hcodes : ∀ c ∈ s, c.toNat = 43 ∨ c.toNat = 45 ∨ 48 ≤ c.toNat ∧ c.toNat ≤ 57 := by
    intro c hc
    rcases hs c hc with rfl | rfl | hdigit
    · exact .inl rfl
    · exact .inr (.inl rfl)
    · exact .inr (.inr (isDigit_bounds hdigit))
  refine ⟨⟨fun hmem => ?_, s, rfl⟩, stringOf_encode fun hhead => ?_⟩
  · obtain ⟨c, hc, hbyte⟩ := List.mem_flatMap.mp hmem
    have hcode := hcodes c hc
    rw [Utf8.encodeChar_ascii (by omega), List.mem_singleton] at hbyte
    have hnat := congrArg UInt8.toNat hbyte
    have hsize : UInt8.size = 256 := rfl
    rw [UInt8.toNat_ofNat_of_lt' (by omega)] at hnat
    rcases hd with rfl | rfl
    · change 58 = c.toNat at hnat
      omega
    · change 59 = c.toNat at hnat
      omega
  · have hcode := hcodes _ (List.mem_of_head? hhead)
    revert hcode
    decide

theorem digits_signs {s : List Char} (h : Digits s) :
    ∀ c ∈ s, c = '+' ∨ c = '-' ∨ c.isDigit = true := fun c hc => .inr (.inr (h c hc))

theorem intText_signs {s : List Char} (h : intText s = true) :
    ∀ c ∈ s, c = '+' ∨ c = '-' ∨ c.isDigit = true := by
  obtain ⟨-, hds⟩ : unsignedText s ≠ [] ∧ Digits (unsignedText s) := by simpa [intText] using h
  obtain ⟨sign, b, hsign, htext⟩ := signed_text s
  intro c hc
  rw [htext] at hc
  rcases List.mem_append.mp hc with hc | hc
  · cases hsign with
    | none => cases hc
    | plus => exact .inl (List.mem_singleton.mp hc)
    | minus => exact .inr (.inl (List.mem_singleton.mp hc))
  · exact .inr (.inr (hds c hc))

theorem counts_encode {numbers : Numbers F} {ds : List Char} {n : Nat} (hne : ds ≠ [])
    (hds : Digits ds) (hn : number ds = n) (hlt : n < 2 ^ 53) :
    Counts numbers (Utf8.encode ds) n := by
  obtain ⟨hraw, htext⟩ := raw_encode (.inl rfl) (digits_signs hds)
  refine ⟨hraw, ?_⟩
  rw [htext, numbers.safe_digits ds hne hds, if_pos (hn ▸ hlt), hn]

theorem Word.Derives.accepted {numbers : Numbers F} {w : Word} (h : w.Derives)
    (hlt : w.bytes.length < 2 ^ 53) : w.Accepted numbers := by
  cases h with
  | @int s htext hrange =>
    obtain ⟨hraw, hs⟩ := raw_encode (.inr rfl) (intText_signs htext)
    exact .int hraw (by rw [hs, htext]) (by rw [hs, hrange])
  | @text ds s hne hds hlength =>
    refine .text (counts_encode hne hds hlength ?_) ⟨s, rfl⟩
    simp only [Word.bytes, List.length_cons, List.length_append] at hlt
    omega

theorem length_le_entriesBytes (entries : List (Word × Term)) :
    entries.length ≤ (entriesBytes entries).length ∧ ∀ e ∈ entries,
      e.1.bytes.length ≤ (entriesBytes entries).length ∧
        e.2.bytes.length ≤ (entriesBytes entries).length := by
  induction entries with
  | nil => simp
  | cons e entries ih =>
    have hpos : 0 < e.1.bytes.length := by
      cases e.1 <;> simp [Word.bytes]
    rw [entriesBytes]
    refine ⟨?_, fun e' he' => ?_⟩
    · have hlength := ih.1
      simp only [List.length_cons, List.length_append]
      omega
    · simp only [List.length_append]
      rcases List.mem_cons.mp he' with rfl | he'
      · omega
      · have hbytes := ih.2 e' he'
        omega

theorem Term.Derives.accepted {numbers : Numbers F} {t : Term} (h : t.Derives numbers)
    (hlt : t.bytes.length < 2 ^ 53) : t.Accepted numbers := by
  induction h with
  | null => exact .null
  | @bool c hc =>
    have hsigns : ∀ d ∈ [c], d = '+' ∨ d = '-' ∨ d.isDigit = true := by
      rcases hc with rfl | rfl <;> simp
    obtain ⟨hraw, hs⟩ := raw_encode (.inr rfl) hsigns
    refine .bool hraw ?_
    rw [hs]
    simpa using hc
  | float hraw hmark hfinite =>
    refine .float hraw ?_
    rw [stringOf, dropMark_of_head hmark, hfinite]
  | word hw => exact .word (hw.accepted hlt)
  | @array ds entries hne hds hcount hkeys _ ih =>
    obtain ⟨hlength, hbytes⟩ := length_le_entriesBytes entries
    simp only [Term.bytes, List.length_cons, List.length_append] at hlt
    refine .array (counts_encode hne hds hcount (by omega)) (fun e he => ?_) fun e he => ?_
    · exact (hkeys e he).accepted (by have := (hbytes e he).1; omega)
    · exact ih e he (by have := (hbytes e he).2; omega)

end Grammar

section Unique
variable {F : Type} {numbers : Numbers F} {r r' : Bytes}

theorem counts_unique {raw : Bytes} {n m : Nat} (h : Counts numbers raw n)
    (h' : Counts numbers raw m) : n = m := Option.some.inj (h.2.symm.trans h'.2)

/-- A word is read in one way, whatever follows. -/
theorem Word.Accepted.unique {w w' : Word} (h : w.Accepted numbers) (h' : w'.Accepted numbers)
    (heq : w.bytes ++ r = w'.bytes ++ r') : w = w' ∧ r = r' := by
  cases h with
  | @int raw hraw =>
    cases h' with
    | @int raw' hraw' =>
      simp only [Word.bytes, List.cons_append, List.append_assoc, List.nil_append, List.cons.injEq,
        true_and] at heq
      obtain ⟨rfl, rfl⟩ := append_separator_inj hraw.free hraw'.free heq
      exact ⟨rfl, rfl⟩
    | text => simp [Word.bytes] at heq
  | @text length content hlength =>
    cases h' with
    | int => simp [Word.bytes] at heq
    | @text length' content' hlength' =>
      simp only [Word.bytes, List.cons_append, List.append_assoc, List.nil_append, List.cons.injEq,
        true_and] at heq
      obtain ⟨rfl, hrest⟩ := append_separator_inj hlength.1.free hlength'.1.free heq
      have hcontent := List.append_inj (List.cons.inj hrest).2 (counts_unique hlength hlength')
      obtain ⟨rfl, htail⟩ := hcontent
      simp only [List.cons.injEq, true_and] at htail
      exact ⟨rfl, htail⟩

/-- A term is read in one way, whatever follows. -/
theorem Term.Accepted.unique {t t' : Term} (h : t.Accepted numbers) (h' : t'.Accepted numbers)
    (heq : t.bytes ++ r = t'.bytes ++ r') : t = t' ∧ r = r' := by
  induction h generalizing t' r r' with
  | null =>
    cases h' with
    | null => exact ⟨rfl, by simpa [Term.bytes] using heq⟩
    | bool => simp [Term.bytes] at heq
    | float => simp [Term.bytes] at heq
    | @word w => cases w <;> simp [Term.bytes, Word.bytes] at heq
    | array => simp [Term.bytes] at heq
  | @bool raw hraw =>
    cases h' with
    | @bool raw' hraw' =>
      simp only [Term.bytes, List.cons_append, List.append_assoc, List.nil_append, List.cons.injEq,
        true_and] at heq
      obtain ⟨rfl, rfl⟩ := append_separator_inj hraw.free hraw'.free heq
      exact ⟨rfl, rfl⟩
    | null => simp [Term.bytes] at heq
    | float => simp [Term.bytes] at heq
    | @word w => cases w <;> simp [Term.bytes, Word.bytes] at heq
    | array => simp [Term.bytes] at heq
  | @float raw hraw =>
    cases h' with
    | @float raw' hraw' =>
      simp only [Term.bytes, List.cons_append, List.append_assoc, List.nil_append, List.cons.injEq,
        true_and] at heq
      obtain ⟨rfl, rfl⟩ := append_separator_inj hraw.free hraw'.free heq
      exact ⟨rfl, rfl⟩
    | null => simp [Term.bytes] at heq
    | bool => simp [Term.bytes] at heq
    | @word w => cases w <;> simp [Term.bytes, Word.bytes] at heq
    | array => simp [Term.bytes] at heq
  | @word w hw =>
    cases h' with
    | @word w' hw' =>
      obtain ⟨rfl, rfl⟩ := hw.unique hw' heq
      exact ⟨rfl, rfl⟩
    | null => cases w <;> simp [Term.bytes, Word.bytes] at heq
    | bool => cases w <;> simp [Term.bytes, Word.bytes] at heq
    | float => cases w <;> simp [Term.bytes, Word.bytes] at heq
    | array => cases w <;> simp [Term.bytes, Word.bytes] at heq
  | @array count entries hcount hkeys hvalues ih =>
    cases h' with
    | @array count' entries' hcount' hkeys' hvalues' =>
      simp only [Term.bytes, List.cons_append, List.append_assoc, List.nil_append, List.cons.injEq,
        true_and] at heq
      obtain ⟨rfl, hrest⟩ := append_separator_inj hcount.1.free hcount'.1.free heq
      have hlength := counts_unique hcount hcount'
      have hentries : ∀ (es es' : List (Word × Term)) (s s' : Bytes), es.length = es'.length →
          (∀ e ∈ es, e ∈ entries) → (∀ e ∈ es', e ∈ entries') →
          entriesBytes es ++ s = entriesBytes es' ++ s' → es = es' ∧ s = s' := by
        intro es
        induction es with
        | nil =>
          intro es' s s' hlen _ _ hs
          obtain rfl := List.length_eq_zero_iff.mp hlen.symm
          exact ⟨rfl, hs⟩
        | cons e es ihes =>
          intro es' s s' hlen hes hes' hs
          obtain ⟨e', es', rfl⟩ := List.exists_cons_of_length_eq_add_one hlen.symm
          obtain ⟨he, hes⟩ := List.forall_mem_cons.mp hes
          obtain ⟨he', hes'⟩ := List.forall_mem_cons.mp hes'
          rw [entriesBytes, entriesBytes, List.append_assoc, List.append_assoc, List.append_assoc,
            List.append_assoc] at hs
          obtain ⟨hk, hs⟩ := (hkeys e he).unique (hkeys' e' he') hs
          obtain ⟨ht, hs⟩ := ih e he (hvalues' e' he') hs
          obtain ⟨rfl, rfl⟩ := ihes es' s s' (Nat.succ.inj hlen) hes hes' hs
          exact ⟨by rw [Prod.ext hk ht], rfl⟩
      obtain ⟨rfl, htail⟩ := hentries entries entries' _ _ hlength (fun _ he => he) (fun _ he => he)
        (List.cons.inj hrest).2
      simp only [List.cons.injEq, true_and] at htail
      exact ⟨rfl, htail⟩
    | null => simp [Term.bytes] at heq
    | bool => simp [Term.bytes] at heq
    | float => simp [Term.bytes] at heq
    | @word w => cases w <;> simp [Term.bytes, Word.bytes] at heq

end Unique

section Weight
variable {F : Type}

mutual

/-- The characters of a value's texts and keys, with one more for each member of a list or a map; a
list has its positions as keys. -/
def CodecValue.weight : CodecValue F → Nat
  | .text s => s.length
  | .list items => itemsWeight 0 items
  | .map members => membersWeight members
  | _ => 0

def itemsWeight : Nat → List (CodecValue F) → Nat
  | _, [] => 0
  | i, v :: vs => 1 + (digits i).length + v.weight + itemsWeight (i + 1) vs

def membersWeight : List (List Char × CodecValue F) → Nat
  | [] => 0
  | (k, v) :: ms => 1 + k.length + v.weight + membersWeight ms

end

/-- No text and no key starts with a byte order mark. -/
inductive CodecValue.Unmarked : CodecValue F → Prop
  | null : Unmarked .null
  | bool {b : Bool} : Unmarked (.bool b)
  | int {i : Int} : Unmarked (.int i)
  | float {x : F} : Unmarked (.float x)
  | text {s : List Char} (h : s.head? ≠ some '\uFEFF') : Unmarked (.text s)
  | list {items : List (CodecValue F)} (h : ∀ v ∈ items, Unmarked v) : Unmarked (.list items)
  | map {members : List (List Char × CodecValue F)} (hkeys : ∀ m ∈ members, m.1.head? ≠ some '\uFEFF')
      (hvalues : ∀ m ∈ members, Unmarked m.2) : Unmarked (.map members)

theorem length_dropMark_le (s : List Char) : (dropMark s).length ≤ s.length := by
  unfold dropMark
  split <;> simp

theorem length_dropMark_lt {s : List Char} (h : s.head? = some '\uFEFF') :
    (dropMark s).length < s.length := by
  rw [dropMark, if_pos h]
  cases s with
  | nil => cases h
  | cons c s => simp

def memberWeight (m : List Char × CodecValue F) : Nat := 1 + m.1.length + m.2.weight

theorem membersWeight_eq (ms : List (List Char × CodecValue F)) :
    membersWeight ms = (ms.map memberWeight).sum := by
  induction ms with
  | nil => rfl
  | cons m ms ih => rw [membersWeight, ih, List.map_cons, List.sum_cons, memberWeight]

end Weight

section Kept
variable {ε κ α : Type} [DecidableEq κ] {es : List ε} {d r : ε → κ × α} {f : κ → κ}
  {W : κ × α → Nat} {M : κ × α → Prop}

theorem kept_map_cons (e : ε) : kept ((e :: es).map d) =
    if (d e).1 ∈ es.map fun e => (d e).1 then kept (es.map d) else d e :: kept (es.map d) := by
  rw [List.map_cons, kept, List.map_map]
  rfl

theorem kept_subset (l : List (κ × α)) : ∀ p ∈ kept l, p ∈ l := by
  induction l with
  | nil => simp [kept]
  | cons e l ih =>
    intro p hp
    rw [kept] at hp
    split at hp
    · exact List.mem_cons_of_mem _ (ih p hp)
    · rcases List.mem_cons.mp hp with rfl | hp
      · exact List.mem_cons_self
      · exact List.mem_cons_of_mem _ (ih p hp)

/-- Each key is kept with some value. -/
theorem kept_keys (l : List (κ × α)) : ∀ k ∈ l.map Prod.fst, k ∈ (kept l).map Prod.fst := by
  induction l with
  | nil => simp
  | cons e l ih =>
    intro k hk
    rw [List.map_cons] at hk
    rw [kept]
    split
    · next hagain =>
      rcases List.mem_cons.mp hk with rfl | hk
      · exact ih _ hagain
      · exact ih k hk
    · rw [List.map_cons]
      rcases List.mem_cons.mp hk with rfl | hk
      · exact List.mem_cons_self
      · exact List.mem_cons_of_mem _ (ih k hk)

/-- Keys that become equal leave fewer entries, and entries that become lighter weigh less. -/
theorem kept_weight_le (hkey : ∀ e ∈ es, (r e).1 = f (d e).1) (hle : ∀ e ∈ es, W (r e) ≤ W (d e)) :
    ((kept (es.map r)).map W).sum ≤ ((kept (es.map d)).map W).sum := by
  induction es with
  | nil => exact le_rfl
  | cons e es ih =>
    obtain ⟨hke, hkes⟩ := List.forall_mem_cons.mp hkey
    obtain ⟨hwe, hwes⟩ := List.forall_mem_cons.mp hle
    have hrest := ih hkes hwes
    rw [kept_map_cons, kept_map_cons]
    split_ifs with hr hd hd
    · exact hrest
    · rw [List.map_cons, List.sum_cons]
      omega
    · -- a key that comes again is still there when all keys are changed
      obtain ⟨e', he', heq⟩ := List.mem_map.mp hd
      refine absurd (List.mem_map.mpr ⟨e', he', ?_⟩) hr
      rw [hkes e' he', hke, heq]
    · rw [List.map_cons, List.map_cons, List.sum_cons, List.sum_cons]
      omega

theorem kept_weight_lt (hkey : ∀ e ∈ es, (r e).1 = f (d e).1) (hle : ∀ e ∈ es, W (r e) ≤ W (d e))
    (hlt : ∀ e ∈ es, M (d e) → W (r e) < W (d e)) (hmarked : ∃ p ∈ kept (es.map d), M p) :
    ((kept (es.map r)).map W).sum < ((kept (es.map d)).map W).sum := by
  induction es with
  | nil => simp [kept] at hmarked
  | cons e es ih =>
    obtain ⟨hke, hkes⟩ := List.forall_mem_cons.mp hkey
    obtain ⟨hwe, hwes⟩ := List.forall_mem_cons.mp hle
    obtain ⟨hme, hmes⟩ := List.forall_mem_cons.mp hlt
    have hrest := kept_weight_le hkes hwes
    obtain ⟨p, hp, hmark⟩ := hmarked
    rw [kept_map_cons] at hp
    rw [kept_map_cons, kept_map_cons]
    split_ifs at hp ⊢ with hr hd hd
    · exact ih hkes hwes hmes ⟨p, hp, hmark⟩
    · rw [List.map_cons, List.sum_cons]
      rcases List.mem_cons.mp hp with rfl | hp
      · have := hme hmark
        omega
      · have := ih hkes hwes hmes ⟨p, hp, hmark⟩
        omega
    · obtain ⟨e', he', heq⟩ := List.mem_map.mp hd
      refine absurd (List.mem_map.mpr ⟨e', he', ?_⟩) hr
      rw [hkes e' he', hke, heq]
    · rw [List.map_cons, List.map_cons, List.sum_cons, List.sum_cons]
      rcases List.mem_cons.mp hp with rfl | hp
      · have := hme hmark
        omega
      · have := ih hkes hwes hmes ⟨p, hp, hmark⟩
        omega

/-- Entries with the same keys of which the kept ones are equal. -/
theorem kept_congr (hkey : ∀ e ∈ es, (r e).1 = (d e).1)
    (heq : ∀ e ∈ es, d e ∈ kept (es.map d) → r e = d e) : kept (es.map r) = kept (es.map d) := by
  induction es with
  | nil => rfl
  | cons e es ih =>
    obtain ⟨hke, hkes⟩ := List.forall_mem_cons.mp hkey
    have hkeys : es.map (fun e => (r e).1) = es.map fun e => (d e).1 := List.map_congr_left hkes
    rw [kept_map_cons] at heq
    rw [kept_map_cons, kept_map_cons, hkeys, hke]
    split_ifs at heq ⊢ with hd
    · exact ih hkes fun e' he' => heq e' (List.mem_cons_of_mem _ he')
    · rw [heq e List.mem_cons_self List.mem_cons_self, ih hkes fun e' he' hkept =>
        heq e' (List.mem_cons_of_mem _ he') (List.mem_cons_of_mem _ hkept)]

end Kept

section Read
variable {F : Type} {numbers : Numbers F}

/-- A key as the reader takes it. -/
def Key.dropMark : Key → Key
  | .int i => .int i
  | .text s => .text (Client.dropMark s)

theorem Word.Derives.key_eq {w : Word} (h : w.Derives) :
    w.key stringOf = (w.key Utf8.decode).dropMark := by
  cases h with
  | @int s htext hrange =>
    have hs := (raw_encode (.inr rfl) (intText_signs htext)).2
    rw [Word.key, Word.key, hs, Utf8.decode_encode, Key.dropMark]
  | text => rfl

/-- What reading loses of a value: nothing where nothing is marked. -/
structure Loses (read denoted : CodecValue F) : Prop where
  le : read.weight ≤ denoted.weight
  lt : ¬ denoted.Unmarked → read.weight < denoted.weight
  eq : denoted.Unmarked → read = denoted

theorem Loses.refl {v : CodecValue F} (h : v.Unmarked) : Loses v v :=
  ⟨le_rfl, fun hnot => absurd h hnot, fun _ => rfl⟩

theorem loses_text (s : List Char) : Loses (.text (dropMark s) : CodecValue F) (.text s) where
  le := by
    rw [CodecValue.weight, CodecValue.weight]
    exact length_dropMark_le s
  lt := by
    intro hnot
    rw [CodecValue.weight, CodecValue.weight]
    refine length_dropMark_lt ?_
    by_contra hhead
    exact hnot (.text hhead)
  eq := by
    intro h
    cases h with
    | text hhead => rw [dropMark_of_head hhead]

theorem Word.Derives.loses {w : Word} (h : w.Derives) :
    Loses (w.key stringOf).value ((w.key Utf8.decode).value : CodecValue F) := by
  rw [h.key_eq]
  cases w.key Utf8.decode with
  | int i => exact .refl .int
  | text s => exact loses_text s

section Entries
variable {ε : Type} {es : List ε} {k : ε → Key} {v w : ε → CodecValue F}

theorem map_dropMark_ints {ks : List Key} {is : List Nat} :
    ks.map Key.dropMark = is.map (fun i : Nat => Key.int i) ↔ ks = is.map fun i : Nat => Key.int i := by
  induction ks generalizing is with
  | nil => cases is <;> simp
  | cons k ks ih =>
    cases is with
    | nil => simp
    | cons i is =>
      rw [List.map_cons, List.map_cons, List.cons.injEq, List.cons.injEq, ih]
      cases k <;> simp [Key.dropMark]

theorem sequential_dropMark : sequential (es.map fun e => ((k e).dropMark, v e)) =
    sequential (es.map fun e => (k e, w e)) := by
  have hkeys : (es.map k).map Key.dropMark = (List.range es.length).map (fun i : Nat => Key.int i) ↔
      _ := map_dropMark_ints
  rw [List.map_map] at hkeys
  unfold sequential
  rw [List.map_map, List.map_map, List.length_map, List.length_map]
  exact decide_eq_decide.mpr hkeys

theorem itemsWeight_le (h : ∀ e ∈ es, Loses (v e) (w e)) (i : Nat) :
    itemsWeight i (es.map v) ≤ itemsWeight i (es.map w) ∧
      ((∃ e ∈ es, ¬ (w e).Unmarked) → itemsWeight i (es.map v) < itemsWeight i (es.map w)) := by
  induction es generalizing i with
  | nil => simp [itemsWeight]
  | cons e es ih =>
    obtain ⟨he, hes⟩ := List.forall_mem_cons.mp h
    obtain ⟨hle, hlt⟩ := ih hes (i + 1)
    have hfirst := he.le
    rw [List.map_cons, List.map_cons, itemsWeight, itemsWeight]
    refine ⟨by omega, fun ⟨e', he', hmarked⟩ => ?_⟩
    rcases List.mem_cons.mp he' with rfl | he'
    · have := he.lt hmarked
      omega
    · have := hlt ⟨e', he', hmarked⟩
      omega

theorem loses_list (h : ∀ e ∈ es, Loses (v e) (w e)) :
    Loses (.list (es.map v)) (.list (es.map w)) where
  le := (itemsWeight_le h 0).1
  lt := by
    intro hnot
    refine (itemsWeight_le h 0).2 ?_
    by_contra hall
    push Not at hall
    refine hnot (.list fun u hu => ?_)
    obtain ⟨e, he, rfl⟩ := List.mem_map.mp hu
    exact hall e he
  eq := by
    intro hunmarked
    cases hunmarked with
    | list hall =>
      rw [List.map_congr_left fun e he => (h e he).eq (hall _ (List.mem_map_of_mem he))]

theorem name_dropMark (key : Key) : key.dropMark.name = dropMark key.name := by
  cases key with
  | text s => rfl
  | int i =>
    refine (dropMark_of_head fun hhead => ?_).symm
    have hmem := List.mem_of_head? hhead
    cases i with
    | ofNat n => exact absurd (isDigit_of_mem_digits hmem) (by decide)
    | negSucc n =>
      rcases List.mem_cons.mp hmem with hminus | hmem
      · exact absurd hminus (by decide)
      · exact absurd (isDigit_of_mem_digits hmem) (by decide)

theorem loses_map (h : ∀ e ∈ es, Loses (v e) (w e)) :
    Loses (.map (kept (es.map fun e => ((k e).dropMark.name, v e))))
      (.map (kept (es.map fun e => ((k e).name, w e)))) := by
  have hkey : ∀ e ∈ es, (k e).dropMark.name = dropMark (k e).name := fun e _ => name_dropMark _
  have hle : ∀ e ∈ es, memberWeight ((k e).dropMark.name, v e) ≤ memberWeight ((k e).name, w e) := by
    intro e he
    have hvalue := (h e he).le
    have hname := length_dropMark_le (k e).name
    rw [hkey e he, memberWeight, memberWeight]
    dsimp only
    omega
  constructor
  · rw [CodecValue.weight, CodecValue.weight, membersWeight_eq, membersWeight_eq]
    exact kept_weight_le hkey hle
  · intro hnot
    rw [CodecValue.weight, CodecValue.weight, membersWeight_eq, membersWeight_eq]
    refine kept_weight_lt (M := fun m => m.1.head? = some '\uFEFF' ∨ ¬ m.2.Unmarked) hkey hle ?_ ?_
    · intro e he hmarked
      have hvalue := (h e he).le
      have hname := length_dropMark_le (k e).name
      rw [hkey e he, memberWeight, memberWeight]
      rcases hmarked with hhead | hmarked
      · have := length_dropMark_lt hhead
        dsimp only at this ⊢
        omega
      · have := (h e he).lt hmarked
        dsimp only at this ⊢
        omega
    · by_contra hall
      push Not at hall
      exact hnot (.map (fun m hm => (hall m hm).1) fun m hm => (hall m hm).2)
  · intro hunmarked
    cases hunmarked with
    | map hkeys hvalues =>
      have hnames : ∀ e ∈ es, dropMark (k e).name = (k e).name := by
        intro e he
        have hmem : (k e).name ∈ (es.map fun e => ((k e).name, w e)).map Prod.fst := by
          rw [List.map_map]
          exact List.mem_map_of_mem (f := fun e => (k e).name) he
        obtain ⟨m, hm, hname⟩ := List.mem_map.mp (kept_keys _ _ hmem)
        rw [← hname]
        exact dropMark_of_head (hkeys m hm)
      refine congrArg CodecValue.map (kept_congr (fun e he => ?_) fun e he hkept => ?_)
      · rw [hkey e he, hnames e he]
      · rw [hkey e he, hnames e he, (h e he).eq (hvalues _ hkept)]

theorem loses_array (h : ∀ e ∈ es, Loses (v e) (w e)) :
    Loses (arrayValue (es.map fun e => ((k e).dropMark, v e)))
      (arrayValue (es.map fun e => (k e, w e))) := by
  unfold arrayValue
  rw [sequential_dropMark (w := w), List.map_map, List.map_map, List.map_map, List.map_map]
  split
  · exact loses_list h
  · exact loses_map h

end Entries

theorem Term.Derives.loses {t : Term} (h : t.Derives numbers) :
    Loses (t.value numbers stringOf) (t.value numbers Utf8.decode) := by
  induction h with
  | null => exact .refl .null
  | @bool c hc =>
    have hs : stringOf (Utf8.encode [c]) = [c] := by
      rcases hc with rfl | rfl <;> exact stringOf_encode (by decide)
    rw [Term.value, Term.value, hs, Utf8.decode_encode]
    exact .refl .bool
  | float hraw hmark =>
    rw [Term.value, Term.value, stringOf, dropMark_of_head hmark]
    exact .refl .float
  | word hw => exact hw.loses
  | @array ds entries _ _ _ hkeys _ ih =>
    rw [Term.value, Term.value, PhpParser.entriesValue_eq, PhpParser.entriesValue_eq]
    have hread : (entries.map fun e => (e.1.key stringOf, e.2.value numbers stringOf)) =
        entries.map fun e => ((e.1.key Utf8.decode).dropMark, e.2.value numbers stringOf) := by
      refine List.map_congr_left fun e he => ?_
      rw [(hkeys e he).key_eq]
    rw [hread]
    exact loses_array ih

end Read

section Exact
variable {F : Type}

/-- The bytes of a cell; a byte array has fewer than `2 ^ 53` of them. -/
abbrev Uint8Array := {b : Bytes // b.length < 2 ^ 53}

/-- The reader takes the cells of the grammar, with the value that they denote, and refuses the
others. -/
structure ParseExact (numbers : Numbers F) (input : Uint8Array) : Prop where
  accepted : ∀ v, PhpParser.parse numbers input.1 = .ok v ↔
    ∃ t : Term, t.Derives numbers ∧ t.bytes = input.1 ∧ t.value numbers Utf8.decode = v
  refused : (¬ ∃ t : Term, t.Derives numbers ∧ t.bytes = input.1) →
    ∃ x, PhpParser.parse numbers input.1 = .error x ∧
      (DecodeFailure x ∧ ¬ Refers numbers input.1 ∨
        Refers numbers input.1 ∧ ∃ type, x = objectFailure type)

/-- Where the cell has the form of a value when lengths and counts may be any text that `Number`
converts, they are digits, no number has a byte order mark, and no text or key of the value has
one. -/
def WrittenPlainly (numbers : Numbers F) (input : Uint8Array) : Prop :=
  ∀ t : Term, t.Accepted numbers → t.bytes = input.1 →
    t.Derives numbers ∧ (t.value numbers Utf8.decode).Unmarked

theorem ParseExact.plain {numbers : Numbers F} {input : Uint8Array} (h : ParseExact numbers input) :
    WrittenPlainly numbers input := by
  intro t ht hbytes
  have hread : PhpParser.parse numbers input.1 = .ok (t.value numbers stringOf) :=
    parse_iff.mpr ⟨t, ht, hbytes, rfl⟩
  obtain ⟨t', hderives, hbytes', hvalue⟩ := (h.accepted _).mp hread
  have heq : t.bytes ++ [] = t'.bytes ++ [] := by rw [hbytes, hbytes']
  obtain ⟨rfl, -⟩ := ht.unique (hderives.accepted (hbytes' ▸ input.2)) heq
  refine ⟨hderives, ?_⟩
  by_contra hmarked
  have hweight := hderives.loses.lt hmarked
  rw [hvalue] at hweight
  exact lt_irrefl _ hweight

theorem WrittenPlainly.exact {numbers : Numbers F} {input : Uint8Array}
    (h : WrittenPlainly numbers input) : ParseExact numbers input where
  accepted := by
    intro v
    rw [parse_iff]
    constructor
    · rintro ⟨t, ht, hbytes, rfl⟩
      obtain ⟨hderives, hunmarked⟩ := h t ht hbytes
      exact ⟨t, hderives, hbytes, (hderives.loses.eq hunmarked).symm⟩
    · rintro ⟨t, hderives, hbytes, rfl⟩
      have ht := hderives.accepted (hbytes ▸ input.2)
      exact ⟨t, ht, hbytes, (hderives.loses.eq (h t ht hbytes).2).symm⟩
  refused := by
    intro hnone
    cases hparse : PhpParser.parse numbers input.1 with
    | ok v =>
      obtain ⟨t, ht, hbytes, -⟩ := parse_iff.mp hparse
      exact absurd ⟨t, (h t ht hbytes).1, hbytes⟩ hnone
    | error x => exact ⟨x, rfl, parse_refused hparse⟩

/-- The reader keeps to the grammar exactly on the cells that are written plainly, and always ends. -/
theorem parse_exact_iff (numbers : Numbers F) (input : Uint8Array) :
    (ParseExact numbers input ↔ WrittenPlainly numbers input) ∧
      PhpParser.parse numbers input.1 ≠ .error .fuel := by
  refine ⟨⟨ParseExact.plain, WrittenPlainly.exact⟩, fun hfuel => ?_⟩
  rcases parse_refused hfuel with ⟨⟨m, hm⟩, -⟩ | ⟨-, type, htype⟩
  · cases hm
  · cases htype

theorem Word.Derives.length_ne {length content : Bytes} (h : (Word.text length content).Derives) :
    length ≠ [] := by
  generalize hw : Word.text length content = w at h
  cases h with
  | int => cases hw
  | @text ds s hne =>
    cases hw
    cases ds with
    | nil => exact absurd rfl hne
    | cons c ds =>
      intro hnil
      have hlength := congrArg List.length hnil
      rw [Utf8.encode_cons, List.length_append, String.length_utf8EncodeChar,
        List.length_nil] at hlength
      have hpos := c.utf8Size_pos
      omega

/-- A string without a length is read, and a string of one byte order mark is read as empty. -/
theorem parse_exact_fails :
    (PhpParser.parse digitNumbers [115, 58, 58, 34, 34, 59] = .ok (.text []) ∧
      ¬ ParseExact digitNumbers ⟨[115, 58, 58, 34, 34, 59], by decide⟩) ∧
    (PhpParser.parse digitNumbers [115, 58, 51, 58, 34, 0xEF, 0xBB, 0xBF, 34, 59] = .ok (.text []) ∧
      ¬ ParseExact digitNumbers ⟨[115, 58, 51, 58, 34, 0xEF, 0xBB, 0xBF, 34, 59], by decide⟩) := by
  have hempty : (Word.text [] []).Accepted digitNumbers :=
    .text ⟨⟨by simp, [], rfl⟩, digitNumbers.safe_nil⟩ ⟨[], rfl⟩
  have hthree : Digits ['3'] := by
    intro c hc
    rw [List.mem_singleton.mp hc]
    rfl
  have hmark : (Word.text (Utf8.encode ['3']) (Utf8.encode ['\uFEFF'])).Accepted digitNumbers :=
    .text (counts_encode (by simp) hthree (by decide) (by decide)) ⟨_, rfl⟩
  refine ⟨⟨parse_iff.mpr ⟨.word (.text [] []), .word hempty, rfl, rfl⟩, fun h => ?_⟩,
    ⟨parse_iff.mpr ⟨.word (.text (Utf8.encode ['3']) (Utf8.encode ['\uFEFF'])), .word hmark, ?_, ?_⟩,
      fun h => ?_⟩⟩
  · obtain ⟨hderives, -⟩ := h.plain (.word (.text [] [])) (.word hempty) rfl
    cases hderives with
    | word hw => exact hw.length_ne rfl
  · decide
  · rw [Term.value, Word.key, stringOf, Utf8.decode_encode]
    rfl
  · obtain ⟨-, hunmarked⟩ := h.plain (.word (.text (Utf8.encode ['3']) (Utf8.encode ['\uFEFF'])))
      (.word hmark) (by decide)
    rw [Term.value, Word.key, Utf8.decode_encode] at hunmarked
    cases hunmarked with
    | text hhead => exact hhead rfl

end Exact

end Orm.Client
