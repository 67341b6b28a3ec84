import Orm.Logic.Base64
import Orm.Engine.Order
import Orm.Client.PhpGrammar

/-! The serialize stage: values written in PHP notation, kept as text or bytes, and read again. -/
namespace Orm.Client

open Orm.Logic
open Orm.Engine (Failure Stage sortedEntries sortedEntries_map)

section Model
variable {F : Type}

/-- The texts of floats: in PHP notation, and in messages. -/
structure FloatTexts (F : Type) where
  php : F → List Char
  shown : F → List Char

/-- Whether a text is digits that start with another digit than `0`. -/
def positiveText (s : List Char) : Bool := s ≠ [] ∧ Digits s ∧ s.head? ≠ some '0'

/-- Whether a text is an integer as PHP writes it. -/
def phpIntegerText : List Char → Bool
  | ['0'] => true
  | '-' :: rest => positiveText rest
  | s => positiveText s

def phpText (s : List Char) : List Char :=
  ['s', ':'] ++ digits (Utf8.encode s).length ++ [':', '"'] ++ s ++ ['"', ';']

/-- Whether a key is written as an integer. -/
def integerKey (key : List Char) : Bool := phpIntegerText key && i64 (bigInt key)

def phpKey (key : List Char) : List Char :=
  if integerKey key then ['i', ':'] ++ key ++ [';'] else phpText key

/-- The name by which members are ordered. -/
def memberName {α : Type} (m : List Char × α) : String := String.ofList m.1

variable (numbers : Numbers F) (floats : FloatTexts F)

mutual

def phpSerialize : CodecValue F → Except Failure (List Char)
  | .null => .ok ['N', ';']
  | .bool b => .ok ['b', ':', if b then '1' else '0', ';']
  | .int i =>
    if i64 i then .ok (['i', ':'] ++ intDigits i ++ [';'])
    else .error (.orm .codecEncode
      ("integer " ++ String.ofList (intDigits i) ++ " is outside the i64 range"))
  | .float x =>
    if numbers.finite x then .ok (['d', ':'] ++ floats.php x ++ [';'])
    else .error (.orm .codecEncode ("number " ++ String.ofList (floats.shown x) ++ " is not finite"))
  | .text s => .ok (phpText s)
  | .list items => do
    let parts ← serializeItems 0 items
    .ok (['a', ':'] ++ digits items.length ++ [':', '{'] ++ parts ++ ['}'])
  | .map members => do
    let parts ← (sortedEntries memberName (serializeMembers members)).mapM fun m =>
      (phpKey m.1 ++ ·) <$> m.2
    .ok (['a', ':'] ++ digits members.length ++ [':', '{'] ++ parts.flatten ++ ['}'])

/-- The entries of a list from an index on. -/
def serializeItems : Nat → List (CodecValue F) → Except Failure (List Char)
  | _, [] => .ok []
  | i, v :: vs => do
    let s ← phpSerialize v
    let rest ← serializeItems (i + 1) vs
    .ok (['i', ':'] ++ digits i ++ [';'] ++ s ++ rest)

def serializeMembers :
    List (List Char × CodecValue F) → List (List Char × Except Failure (List Char))
  | [] => []
  | (k, v) :: ms => (k, phpSerialize v) :: serializeMembers ms

end

/-- `new PhpParser(current).parse()`. -/
def unserialize (b : Bytes) : Except Failure (CodecValue F) :=
  match PhpParser.parse numbers b with
  | .ok v => .ok v
  | .error (.failure f) => .error f
  | .error .fuel => .error (.plain "")

/-- A stored base64 text, only in the form that the encoder writes. -/
def decodeBase64 (value : Bytes) : Except Failure Bytes :=
  let source := value.map fun b => Char.ofNat b.toNat
  let bytes := Base64.decode source
  if source.all Base64.IsChar && decide (Base64.encode bytes = source) then .ok bytes
  else .error (.orm .codecDecode "base64: bad input")

/-- Compression as the client uses it. -/
structure Zlib where
  deflate : Bytes → Bytes
  inflate : Bytes → Except Failure Bytes
  inflate_deflate : ∀ b, inflate (deflate b) = .ok b
  deflate_ne : ∀ b, deflate b ≠ []

/-- The codecs of the stage lists of `gz`, `base64` and `serialize`. -/
def phpCoders (zlib : Zlib) : Coders (CodecValue F) where
  asText
    | .text s => some s
    | _ => none
  ofText := .text
  write stage v :=
    if stage = .serialize then phpSerialize numbers floats v
    else .error (.orm .codecUnsupported ("style " ++ stageText stage))
  read stage b :=
    if stage = .serialize then unserialize numbers b
    else .error (.orm .codecUnsupported ("style " ++ stageText stage))
  deflate := zlib.deflate
  inflate := zlib.inflate
  base64 := Base64.encode
  unbase64 := decodeBase64

end Model

section Terms
variable {F : Type} (floats : FloatTexts F)

def textWord (s : List Char) : Word :=
  .text (Utf8.encode (digits (Utf8.encode s).length)) (Utf8.encode s)

def keyWord (key : List Char) : Word :=
  if integerKey key then .int (Utf8.encode key) else textWord key

mutual

/-- What a value is written as. -/
def CodecValue.term : CodecValue F → Term
  | .null => .null
  | .bool b => .bool (Utf8.encode [if b then '1' else '0'])
  | .int i => .word (.int (Utf8.encode (intDigits i)))
  | .float x => .float (Utf8.encode (floats.php x))
  | .text s => .word (textWord s)
  | .list items => .array (Utf8.encode (digits items.length)) (itemTerms 0 items)
  | .map members => .array (Utf8.encode (digits members.length))
      ((sortedEntries memberName (memberTerms members)).map fun m => (keyWord m.1, m.2))

def itemTerms : Nat → List (CodecValue F) → List (Word × Term)
  | _, [] => []
  | i, v :: vs => (.int (Utf8.encode (digits i)), v.term) :: itemTerms (i + 1) vs

def memberTerms : List (List Char × CodecValue F) → List (List Char × Term)
  | [] => []
  | (k, v) :: ms => (k, v.term) :: memberTerms ms

end

/-- A value without floats as the client's language holds it: the keys of a map are distinct, and
texts, lists and maps are shorter than `2 ^ 32`. -/
inductive CodecValue.Common : CodecValue F → Prop
  | null : Common .null
  | bool {b : Bool} : Common (.bool b)
  | int {i : Int} : Common (.int i)
  | text {s : List Char} (hsize : s.length < 2 ^ 32) : Common (.text s)
  | list {items : List (CodecValue F)} (hsize : items.length < 2 ^ 32) (h : ∀ v ∈ items, Common v) :
      Common (.list items)
  | map {members : List (List Char × CodecValue F)} (hsize : members.length < 2 ^ 32)
      (hkeys : (members.map Prod.fst).Nodup) (hsizes : ∀ m ∈ members, m.1.length < 2 ^ 32)
      (hvalues : ∀ m ∈ members, Common m.2) : Common (.map members)

variable {numbers : Numbers F} {floats}

theorem serializeMembers_eq (ms : List (List Char × CodecValue F)) :
    serializeMembers numbers floats ms = ms.map fun m => (m.1, phpSerialize numbers floats m.2) := by
  induction ms with
  | nil => rfl
  | cons m ms ih => rw [serializeMembers, ih, List.map_cons]

theorem memberTerms_eq (ms : List (List Char × CodecValue F)) :
    memberTerms floats ms = ms.map fun m => (m.1, m.2.term floats) := by
  induction ms with
  | nil => rfl
  | cons m ms ih => rw [memberTerms, ih, List.map_cons]

theorem itemTerms_eq (i : Nat) (items : List (CodecValue F)) :
    itemTerms floats i items =
      (items.zipIdx i).map fun p => (.int (Utf8.encode (digits p.2)), p.1.term floats) := by
  induction items generalizing i with
  | nil => rfl
  | cons v items ih => rw [itemTerms, ih, List.zipIdx_cons, List.map_cons]

/-- The members of a map in the order of their keys. -/
abbrev sortedMembers (ms : List (List Char × CodecValue F)) : List (List Char × CodecValue F) :=
  sortedEntries memberName ms

theorem sortedEntries_serialized (ms : List (List Char × CodecValue F)) :
    sortedEntries memberName (serializeMembers numbers floats ms) =
      (sortedMembers ms).map fun m => (m.1, phpSerialize numbers floats m.2) := by
  rw [serializeMembers_eq]
  exact sortedEntries_map (fun _ => rfl) ms

theorem sortedEntries_terms (ms : List (List Char × CodecValue F)) :
    sortedEntries memberName (memberTerms floats ms) =
      (sortedMembers ms).map fun m => (m.1, m.2.term floats) := by
  rw [memberTerms_eq]
  exact sortedEntries_map (fun _ => rfl) ms

end Terms

section Written
variable {F : Type} {numbers : Numbers F} {floats : FloatTexts F}

theorem encode_append (s t : List Char) : Utf8.encode (s ++ t) = Utf8.encode s ++ Utf8.encode t :=
  List.flatMap_append

theorem textWord_bytes (s : List Char) : (textWord s).bytes = Utf8.encode (phpText s) := by
  simp only [textWord, Word.bytes, phpText, encode_append]
  simp [Utf8.encode, String.utf8EncodeChar]

theorem textWord_derives (s : List Char) : (textWord s).Derives :=
  .text (digits_ne_nil _) (digits_digits _) (number_digits _)

theorem counts_digits {n : Nat} (h : n < 2 ^ 53) : Counts numbers (Utf8.encode (digits n)) n :=
  counts_encode (digits_ne_nil n) (digits_digits n) (number_digits n) h

theorem encode_length_le (s : List Char) : (Utf8.encode s).length ≤ 4 * s.length := by
  induction s with
  | nil => exact le_rfl
  | cons c s ih =>
    have hsize := c.utf8Size_le_four
    rw [Utf8.encode_cons, List.length_append, String.length_utf8EncodeChar, List.length_cons]
    omega

theorem textWord_accepted {s : List Char} (h : s.length < 2 ^ 32) : (textWord s).Accepted numbers := by
  have hle := encode_length_le s
  exact .text (counts_digits (by omega)) ⟨s, rfl⟩

theorem unsignedText_digits {s : List Char} (h : Digits s) :
    unsignedText s = s ∧ signedInt s = number s := by
  have hplus : '+' ∉ s := h.not_mem (by decide)
  have hminus : '-' ∉ s := h.not_mem (by decide)
  cases s with
  | nil => exact ⟨rfl, rfl⟩
  | cons c rest =>
    have hc : c ≠ '+' := fun hc => hplus (hc ▸ List.mem_cons_self)
    have hc' : c ≠ '-' := fun hc => hminus (hc ▸ List.mem_cons_self)
    constructor
    · unfold unsignedText
      split <;> simp_all
    · unfold signedInt bigInt
      split
      · simp_all
      · split
        · simp_all
        · rfl

theorem intText_digits {s : List Char} (hne : s ≠ []) (h : Digits s) : intText s = true := by
  rw [intText, (unsignedText_digits h).1]
  exact decide_eq_true ⟨hne, h⟩

theorem intText_minus {s : List Char} (hne : s ≠ []) (h : Digits s) : intText ('-' :: s) = true :=
  decide_eq_true ⟨hne, h⟩

theorem intDigits_value (i : Int) : intText (intDigits i) = true ∧ signedInt (intDigits i) = i := by
  cases i with
  | ofNat n =>
    refine ⟨intText_digits (digits_ne_nil n) (digits_digits n), ?_⟩
    rw [intDigits, (unsignedText_digits (digits_digits n)).2, number_digits]
    rfl
  | negSucc n =>
    refine ⟨intText_minus (digits_ne_nil _) (digits_digits _), ?_⟩
    change -(number (digits (n + 1)) : Int) = _
    rw [number_digits]
    rfl

theorem positiveText_value {s : List Char} (h : positiveText s = true) :
    s ≠ [] ∧ Digits s ∧ number s ≠ 0 ∧ digits (number s) = s := by
  obtain ⟨hne, hds, hhead⟩ : s ≠ [] ∧ Digits s ∧ s.head? ≠ some '0' := by
    simpa [positiveText] using h
  have hcanonical : Canonical s := ⟨hne, hds, fun hzero => absurd hzero hhead⟩
  refine ⟨hne, hds, fun hzero => hhead ?_, digits_number hcanonical⟩
  rw [hcanonical.number_eq_zero.mp hzero]
  rfl

theorem phpIntegerText_value {s : List Char} (h : phpIntegerText s = true) :
    intText s = true ∧ signedInt s = bigInt s ∧ intDigits (signedInt s) = s := by
  unfold phpIntegerText at h
  split at h
  · refine ⟨intText_digits (by simp) (digits_zeros 1), rfl, rfl⟩
  · next rest =>
    obtain ⟨hne, hds, hzero, hdigits⟩ := positiveText_value h
    refine ⟨intText_minus hne hds, rfl, ?_⟩
    obtain ⟨n, hn⟩ := Nat.exists_eq_succ_of_ne_zero hzero
    change intDigits (-(number rest : Int)) = _
    rw [hn] at hdigits ⊢
    change '-' :: digits (n + 1) = _
    rw [hdigits]
  · obtain ⟨hne, hds, -, hdigits⟩ := positiveText_value h
    have hvalue := (unsignedText_digits hds).2
    have hbig : bigInt s = number s := by
      unfold bigInt
      split
      · next rest =>
        exact absurd (hds '-' List.mem_cons_self) (by decide)
      · rfl
    refine ⟨intText_digits hne hds, hvalue.trans hbig.symm, ?_⟩
    rw [hvalue]
    exact hdigits

theorem keyWord_bytes (key : List Char) : (keyWord key).bytes = Utf8.encode (phpKey key) := by
  unfold keyWord phpKey
  split
  · simp only [Word.bytes, encode_append]
    simp [Utf8.encode, String.utf8EncodeChar]
  · exact textWord_bytes key

theorem keyWord_derives (key : List Char) : (keyWord key).Derives := by
  unfold keyWord
  split
  · next hkey =>
    obtain ⟨htext, hrange⟩ : phpIntegerText key = true ∧ i64 (bigInt key) = true := by
      simpa [integerKey] using hkey
    obtain ⟨hint, hvalue, -⟩ := phpIntegerText_value htext
    exact .int hint (by rw [hvalue, hrange])
  · exact textWord_derives key

theorem intWord_accepted {s : List Char} (htext : intText s = true)
    (hrange : i64 (signedInt s) = true) : (Word.int (Utf8.encode s)).Accepted numbers := by
  obtain ⟨hraw, hs⟩ := raw_encode (.inr rfl) (intText_signs htext)
  exact .int hraw (by rw [hs, htext]) (by rw [hs, hrange])

theorem keyWord_accepted {key : List Char} (h : key.length < 2 ^ 32) :
    (keyWord key).Accepted numbers := by
  unfold keyWord
  split
  · next hkey =>
    obtain ⟨htext, hrange⟩ : phpIntegerText key = true ∧ i64 (bigInt key) = true := by
      simpa [integerKey] using hkey
    obtain ⟨hint, hvalue, -⟩ := phpIntegerText_value htext
    exact intWord_accepted hint (by rw [hvalue, hrange])
  · exact textWord_accepted h

/-- A key is the name of its word. -/
theorem keyWord_name (key : List Char) : ((keyWord key).key Utf8.decode).name = key := by
  unfold keyWord
  split
  · next hkey =>
    obtain ⟨htext, -⟩ : phpIntegerText key = true ∧ i64 (bigInt key) = true := by
      simpa [integerKey] using hkey
    rw [Word.key, Utf8.decode_encode]
    exact (phpIntegerText_value htext).2.2
  · rw [textWord, Word.key, Utf8.decode_encode]
    rfl

/-- The entries of an array, written one after the other. -/
theorem entries_written {α : Type} {l : List α} {word : α → Word} {term : α → Term}
    {keys texts : α → List Char} (hkey : ∀ a ∈ l, (word a).bytes = Utf8.encode (keys a))
    (htext : ∀ a ∈ l, (term a).bytes = Utf8.encode (texts a)) :
    entriesBytes (l.map fun a => (word a, term a)) =
      Utf8.encode (l.map fun a => keys a ++ texts a).flatten := by
  induction l with
  | nil => rfl
  | cons a l ih =>
    obtain ⟨hk, hkeys⟩ := List.forall_mem_cons.mp hkey
    obtain ⟨ht, htexts⟩ := List.forall_mem_cons.mp htext
    rw [List.map_cons, entriesBytes, ih hkeys htexts, hk, ht, List.map_cons, List.flatten_cons,
      encode_append, encode_append]

theorem array_bytes (n : Nat) {entries : List (Word × Term)} {parts : List Char}
    (h : entriesBytes entries = Utf8.encode parts) :
    (Term.array (Utf8.encode (digits n)) entries).bytes =
      Utf8.encode (['a', ':'] ++ digits n ++ [':', '{'] ++ parts ++ ['}']) := by
  simp only [Term.bytes, h, encode_append]
  simp [Utf8.encode, String.utf8EncodeChar]

variable (numbers floats) in
/-- The text of a value, where it has one. -/
def serialText (v : CodecValue F) : List Char :=
  match phpSerialize numbers floats v with
  | .ok s => s
  | .error _ => []

theorem serialText_ok {v : CodecValue F} {s : List Char} (h : phpSerialize numbers floats v = .ok s) :
    phpSerialize numbers floats v = .ok (serialText numbers floats v) := by
  rw [serialText, h]

theorem serializeItems_ok {i : Nat} {items : List (CodecValue F)} {parts : List Char}
    (h : serializeItems numbers floats i items = .ok parts) :
    (∀ v ∈ items, phpSerialize numbers floats v = .ok (serialText numbers floats v)) ∧
      parts = ((items.zipIdx i).map fun p =>
        (['i', ':'] ++ digits p.2 ++ [';']) ++ serialText numbers floats p.1).flatten := by
  induction items generalizing i parts with
  | nil =>
    cases h
    exact ⟨by simp, rfl⟩
  | cons v items ih =>
    rw [serializeItems] at h
    obtain ⟨s, hs, h⟩ := ok_bind.mp h
    obtain ⟨rest, hrest, h⟩ := ok_bind.mp h
    cases h
    obtain ⟨hall, rfl⟩ := ih hrest
    have hv := serialText_ok hs
    refine ⟨List.forall_mem_cons.mpr ⟨hv, hall⟩, ?_⟩
    rw [hs] at hv
    rw [List.zipIdx_cons, List.map_cons, List.flatten_cons, ← Except.ok.inj hv]

theorem members_ok {ms : List (List Char × CodecValue F)} {parts : List (List Char)}
    (h : (ms.map fun m => (m.1, phpSerialize numbers floats m.2)).mapM
      (fun m => (phpKey m.1 ++ ·) <$> m.2) = .ok parts) :
    (∀ m ∈ ms, phpSerialize numbers floats m.2 = .ok (serialText numbers floats m.2)) ∧
      parts = ms.map fun m => phpKey m.1 ++ serialText numbers floats m.2 := by
  induction ms generalizing parts with
  | nil =>
    obtain rfl : [] = parts := by simpa [pure, Except.pure] using h
    exact ⟨by simp, rfl⟩
  | cons m ms ih =>
    rw [List.map_cons, List.mapM_cons] at h
    obtain ⟨s, hs, h⟩ := ok_bind.mp h
    obtain ⟨rest, hrest, h⟩ := ok_bind.mp h
    obtain rfl : s :: rest = parts := by simpa [pure, Except.pure] using h
    obtain ⟨hall, rfl⟩ := ih hrest
    cases hvalue : phpSerialize numbers floats m.2 with
    | error f =>
      rw [hvalue] at hs
      cases hs
    | ok t =>
      have hv := serialText_ok hvalue
      rw [hvalue] at hs
      refine ⟨List.forall_mem_cons.mpr ⟨hv, hall⟩, ?_⟩
      rw [hvalue] at hv
      rw [List.map_cons, ← Except.ok.inj hv, ← Except.ok.inj hs]

theorem index_i64 {i : Nat} (h : i < 2 ^ 32) :
    intText (digits i) = true ∧ i64 (signedInt (digits i)) = true := by
  refine ⟨intText_digits (digits_ne_nil i) (digits_digits i), ?_⟩
  rw [(unsignedText_digits (digits_digits i)).2, number_digits]
  simp only [i64, Bool.decide_and, Bool.and_eq_true, decide_eq_true_eq]
  omega

/-- The text of a value is the one of its term, which is in the grammar and which the reader takes. -/
theorem phpSerialize_term {v : CodecValue F} (hv : v.Common) {s : List Char}
    (h : phpSerialize numbers floats v = .ok s) : (v.term floats).bytes = Utf8.encode s ∧
      (v.term floats).Derives numbers ∧ (v.term floats).Accepted numbers := by
  induction hv generalizing s with
  | null =>
    cases h
    exact ⟨rfl, .null, .null⟩
  | @bool b =>
    cases h
    have hterm : (CodecValue.term floats (.bool b)).bytes =
        Utf8.encode ['b', ':', if b then '1' else '0', ';'] := by
      cases b <;> rfl
    have hderives : (CodecValue.term floats (.bool b)).Derives numbers :=
      .bool (by cases b <;> simp)
    refine ⟨hterm, hderives, hderives.accepted ?_⟩
    rw [hterm]
    cases b <;> decide
  | @int i =>
    rw [phpSerialize] at h
    split at h
    · next hrange =>
      cases h
      obtain ⟨htext, hvalue⟩ := intDigits_value i
      have hi : i64 (signedInt (intDigits i)) = true := by rw [hvalue, hrange]
      refine ⟨?_, .word (.int htext hi), .word (intWord_accepted htext hi)⟩
      simp only [CodecValue.term, Term.bytes, Word.bytes, encode_append]
      simp [Utf8.encode, String.utf8EncodeChar]
    · cases h
  | @text t hsize =>
    cases h
    exact ⟨textWord_bytes t, .word (textWord_derives t), .word (textWord_accepted hsize)⟩
  | @list items hsize _ ih =>
    rw [phpSerialize] at h
    obtain ⟨parts, hparts, h⟩ := ok_bind.mp h
    cases h
    obtain ⟨hall, rfl⟩ := serializeItems_ok hparts
    have hmem : ∀ p ∈ items.zipIdx, p.1 ∈ items := fun p hp => List.fst_mem_of_mem_zipIdx hp
    have hindex : ∀ p ∈ items.zipIdx, p.2 < 2 ^ 32 := by
      intro p hp
      have hlt := List.snd_lt_of_mem_zipIdx hp
      omega
    have hword : ∀ p ∈ items.zipIdx, (Word.int (Utf8.encode (digits p.2))).Derives ∧
        (Word.int (Utf8.encode (digits p.2))).Accepted numbers := by
      intro p hp
      obtain ⟨htext, hrange⟩ := index_i64 (hindex p hp)
      exact ⟨.int htext hrange, intWord_accepted htext hrange⟩
    have hitem := fun p hp => ih _ (hmem p hp) (hall _ (hmem p hp))
    rw [CodecValue.term, itemTerms_eq]
    refine ⟨array_bytes _ (entries_written (fun p _ => ?_) fun p hp => (hitem p hp).1), ?_, ?_⟩
    · simp only [Word.bytes, encode_append]
      simp [Utf8.encode, String.utf8EncodeChar]
    · refine .array (digits_ne_nil _) (digits_digits _) (by simp [number_digits]) ?_ ?_
      · exact List.forall_mem_map.mpr fun p hp => (hword p hp).1
      · exact List.forall_mem_map.mpr fun p hp => (hitem p hp).2.1
    · refine .array ?_ ?_ ?_
      · rw [List.length_map, List.length_zipIdx]
        exact counts_digits (by omega)
      · exact List.forall_mem_map.mpr fun p hp => (hword p hp).2
      · exact List.forall_mem_map.mpr fun p hp => (hitem p hp).2.2
  | @map members hsize hkeys hsizes _ ih =>
    rw [phpSerialize] at h
    obtain ⟨parts, hparts, h⟩ := ok_bind.mp h
    cases h
    rw [sortedEntries_serialized] at hparts
    obtain ⟨hall, rfl⟩ := members_ok hparts
    have hperm : (sortedMembers members).Perm members := List.perm_insertionSort _ _
    have hmem : ∀ m ∈ sortedMembers members, m ∈ members := fun m hm => hperm.mem_iff.mp hm
    have hmember := fun m hm => ih m (hmem m hm) (hall m hm)
    rw [CodecValue.term, sortedEntries_terms, List.map_map]
    refine ⟨array_bytes _ (entries_written (fun m _ => keyWord_bytes m.1) fun m hm => ?_), ?_, ?_⟩
    · exact (hmember m hm).1
    · refine .array (digits_ne_nil _) (digits_digits _) ?_ ?_ ?_
      · rw [number_digits, List.length_map, hperm.length_eq]
      · exact List.forall_mem_map.mpr fun m _ => keyWord_derives m.1
      · exact List.forall_mem_map.mpr fun m hm => (hmember m hm).2.1
    · refine .array ?_ ?_ ?_
      · rw [List.length_map, hperm.length_eq]
        exact counts_digits (by omega)
      · exact List.forall_mem_map.mpr fun m hm => keyWord_accepted (hsizes m (hmem m hm))
      · exact List.forall_mem_map.mpr fun m hm => (hmember m hm).2.2

end Written

end Orm.Client
