import Orm.Logic.Digits
import Orm.Logic.Runs
import Orm.Logic.Separated
import Orm.Client.Codec

/-! Packed addresses: the bytes of IPv4 and IPv6 texts. -/
namespace Orm.Client

open Orm.Logic
open Orm.Engine (Failure)

section Model

/-- The digits of a hex digit character of either case. -/
def hexDigit (c : Char) : Nat :=
  if c.isDigit then c.toNat - '0'.toNat
  else if c.isLower then c.toNat - 'a'.toNat + 10 else c.toNat - 'A'.toNat + 10

def isHexDigit (c : Char) : Bool :=
  c.isDigit || ('a' ≤ c && c ≤ 'f') || ('A' ≤ c && c ≤ 'F')

/-- `Number.parseInt(token, 16)` of a token of hex digits. -/
def parseHex (token : List Char) : Nat := token.foldl (fun n c => 16 * n + hexDigit c) 0

/-- Bytes in dotted decimals. -/
def dotted (b : Bytes) : List Char := List.intercalate ['.'] (b.map fun x => digits x.toNat)

/-- The parts between double colons. -/
def splitDouble : List Char → List (List Char)
  | [] => [[]]
  | ':' :: ':' :: rest => [] :: splitDouble rest
  | c :: rest => (splitDouble rest).modifyHead (c :: ·)

def notAddress (source : List Char) : Failure :=
  .orm .codecEncode ("ip: " ++ String.ofList (jsonText source) ++ " is not an address")

/-- The groups of one token: two of a dotted address, and one of hex digits. -/
def tokenGroups (source token : List Char) : Except Failure (List Nat) :=
  if '.' ∈ token then
    match (token.splitOn '.').map number with
    | a :: b :: c :: d :: _ => .ok [a <<< 8 ||| b, c <<< 8 ||| d]
    | _ => .error (notAddress source)
  else .ok [parseHex token]

/-- The groups of one side of the double colon. -/
def partGroups (source part : List Char) : Except Failure (List Nat) :=
  if part = [] then .ok []
  else ((part.splitOn ':').mapM (tokenGroups source)).map List.flatten

/-- Writes groups as big-endian 16-bit integers. -/
def writeGroups (groups : List Nat) : Except Failure Bytes :=
  if groups.all (· < 65536) then
    .ok (groups.flatMap fun g => [UInt8.ofNat (g >>> 8), UInt8.ofNat g])
  else .error (.plain "RangeError [ERR_OUT_OF_RANGE]")

/-- The bytes of an address. `isIP` is the version of an address text, 0 of another text. -/
def packIp (isIP : List Char → Nat) (source : List Char) : Except Failure Bytes :=
  let version := if '%' ∈ source then 0 else isIP source
  if version = 4 then .ok ((source.splitOn '.').map fun part => UInt8.ofNat (number part))
  else if version ≠ 6 then .error (notAddress source)
  else
    let halves := splitDouble source
    if 2 < halves.length then .error (notAddress source)
    else do
      let left ← partGroups source (halves.getD 0 [])
      let right ← partGroups source (halves.getD 1 [])
      let groups := if halves.length = 2 then
          left ++ List.replicate (8 - left.length - right.length) 0 ++ right
        else left
      if groups.length ≠ 8 then .error (notAddress source) else writeGroups groups

/-- Reads bytes as big-endian 16-bit integers. -/
def readGroups : Bytes → List Nat
  | high :: low :: rest => (high.toNat * 256 + low.toNat) :: readGroups rest
  | _ => []

/-- The search for the first longest run of at least two zero groups, from `index` on. -/
def zeroRuns (groups : List Nat) : Nat → Nat → Option (Nat × Nat) → Option (Nat × Nat)
  | 0, _, best => best
  | fuel + 1, index, best =>
    if groups.length ≤ index then best
    else if groups[index]? ≠ some 0 then zeroRuns groups fuel (index + 1) best
    else
      let length := ((groups.drop index).takeWhile (· = 0)).length
      zeroRuns groups fuel (index + length)
        (if bestLength best < length ∧ 2 ≤ length then some (index, length) else best)

/-- The first bytes of an IPv4-mapped address. -/
def mappedHead : Bytes := List.replicate 10 0 ++ [255, 255]

def groupText (group : Nat) : List Char := Nat.toDigits 16 group

def groupsText (groups : List Nat) : List Char := List.intercalate [':'] (groups.map groupText)

def unpackIp (value : Bytes) : Except Failure (List Char) :=
  if value.length = 4 then .ok (dotted value)
  else if value.length ≠ 16 then
    .error (.orm .codecDecode ("ip: byte length " ++ toString value.length))
  else
    let groups := readGroups value
    if value.take 12 = mappedHead then .ok ("::ffff:".toList ++ dotted (value.drop 12))
    else match zeroRuns groups groups.length 0 none with
      | none => .ok (groupsText groups)
      | some (bestStart, bestLength) => .ok (groupsText (groups.take bestStart) ++
          ':' :: ':' :: groupsText (groups.drop (bestStart + bestLength)))

end Model

section Forms

/-- A decimal of a dotted address. -/
structure Octet (p : List Char) : Prop where
  canonical : Canonical p
  small : number p < 256

/-- Four decimals and the points between them. -/
def Ipv4Text (s : List Char) : Prop :=
  (s.splitOn '.').length = 4 ∧ ∀ p ∈ s.splitOn '.', Octet p

/-- A group of one to four hex digits. -/
def Group (p : List Char) : Prop := p ≠ [] ∧ p.length ≤ 4 ∧ ∀ c ∈ p, isHexDigit c = true

/-- Tokens that stand for a number of groups; only the last one may be a dotted address. -/
inductive Tokens : List (List Char) → Nat → Prop
  | nil : Tokens [] 0
  | dotted {p : List Char} (address : Ipv4Text p) : Tokens [p] 2
  | cons {p : List Char} {ps : List (List Char)} {n : Nat} (group : Group p) (rest : Tokens ps n) :
    Tokens (p :: ps) (n + 1)

/-- The tokens of eight groups, or of fewer with a double colon for the zero groups left out. -/
inductive Ipv6Text : List Char → Prop
  | full {ps : List (List Char)} (tokens : Tokens ps 8) : Ipv6Text (List.intercalate [':'] ps)
  | short {ps qs : List (List Char)} {n : Nat} (left : ∀ p ∈ ps, Group p) (right : Tokens qs n)
    (few : ps.length + n ≤ 7) :
    Ipv6Text (List.intercalate [':'] ps ++ ':' :: ':' :: List.intercalate [':'] qs)

/-- `isIP` accepts exactly the two text forms, among the texts without a zone. -/
def TextForms (isIP : List Char → Nat) : Prop :=
  ∀ s, '%' ∉ s → (isIP s = 4 ↔ Ipv4Text s) ∧ (isIP s = 6 ↔ Ipv6Text s)

/-- The text that RFC 5952 gives the bytes of an address. -/
inductive Rfc5952 : Bytes → List Char → Prop
  | four {b : Bytes} (length : b.length = 4) : Rfc5952 b (dotted b)
  | mapped {b : Bytes} (length : b.length = 4) :
    Rfc5952 (mappedHead ++ b) ("::ffff:".toList ++ dotted b)
  | full {b : Bytes} (length : b.length = 16) (other : b.take 12 ≠ mappedHead)
    (none : ∀ i m, Stretch ((readGroups b)[·]? = some 0) i m → i + m ≤ 8 → m < 2) :
    Rfc5952 b (groupsText (readGroups b))
  | short {b : Bytes} {s n : Nat} (length : b.length = 16) (other : b.take 12 ≠ mappedHead)
    (two : 2 ≤ n) (first : FirstLongest ((readGroups b)[·]? = some 0) 8 s n) :
    Rfc5952 b (groupsText ((readGroups b).take s) ++
      ':' :: ':' :: groupsText ((readGroups b).drop (s + n)))

end Forms

section Digits
variable {b : Bytes} {source : List Char} {g : Nat} {gs : List Nat} {ps qs : List (List Char)}

theorem digitChar_hex (d : Fin 16) : isHexDigit (Nat.digitChar d) = true ∧
    hexDigit (Nat.digitChar d) = d ∧ (Nat.digitChar d).isUpper = false := by
  decide +revert

/-- The text of a group: hex digits of lower case that are read back. -/
theorem groupText_spec (g : Nat) : (∀ c ∈ groupText g, isHexDigit c = true ∧ c.isUpper = false) ∧
    parseHex (groupText g) = g := by
  induction g using Nat.strong_induction_on with
  | _ g ih =>
    unfold groupText
    by_cases hg : g < 16
    · rw [Nat.toDigits_of_lt_base hg]
      obtain ⟨hhex, hvalue, hupper⟩ := digitChar_hex ⟨g, hg⟩
      refine ⟨fun c hc => ?_, ?_⟩
      · rw [List.mem_singleton.mp hc]
        exact ⟨hhex, hupper⟩
      · exact (Nat.zero_add _).trans hvalue
    · rw [Nat.toDigits_of_base_le (by decide) (not_lt.mp hg)]
      obtain ⟨hhigh, hvalue⟩ := ih (g / 16) (by omega)
      obtain ⟨hhex, hlow, hupper⟩ := digitChar_hex ⟨g % 16, Nat.mod_lt _ (by decide)⟩
      refine ⟨fun c hc => ?_, ?_⟩
      · rcases List.mem_append.mp hc with hc | hc
        · exact hhigh c hc
        · rw [List.mem_singleton.mp hc]
          exact ⟨hhex, hupper⟩
      · unfold parseHex
        rw [List.foldl_append]
        change 16 * parseHex (groupText (g / 16)) + hexDigit (Nat.digitChar (g % 16)) = g
        rw [hvalue]
        exact (congrArg (16 * (g / 16) + ·) hlow).trans (Nat.div_add_mod g 16)

theorem group_groupText (hg : g < 65536) : Group (groupText g) :=
  ⟨Nat.toDigits_ne_nil, Nat.toDigits_length 16 g 4 (by decide) hg,
    fun c hc => ((groupText_spec g).1 c hc).1⟩

theorem Group.not_mem (h : Group p) {c : Char} (hc : isHexDigit c = false) : c ∉ p := fun hmem => by
  rw [h.2.2 c hmem] at hc
  cases hc

theorem octet_digits (x : UInt8) : Octet (digits x.toNat) :=
  ⟨canonical_digits _, by rw [number_digits]; exact x.toNat_lt⟩

theorem splitOn_dotted (h : b ≠ []) : (dotted b).splitOn '.' = b.map fun x => digits x.toNat := by
  refine List.splitOn_intercalate '.' ?_ (by simpa using h)
  intro l hl
  obtain ⟨x, _, rfl⟩ := List.mem_map.mp hl
  exact (canonical_digits _).digits.not_mem rfl

theorem not_mem_dotted {c : Char} (hc : c.isDigit = false) (hpoint : c ≠ '.') : c ∉ dotted b := by
  refine not_mem_intercalate hpoint ?_
  intro l hl
  obtain ⟨x, _, rfl⟩ := List.mem_map.mp hl
  exact (canonical_digits _).digits.not_mem hc

theorem ipv4_dotted (h : b.length = 4) : Ipv4Text (dotted b) := by
  have hne : b ≠ [] := by
    rintro rfl
    cases h
  unfold Ipv4Text
  rw [splitOn_dotted hne]
  refine ⟨by simpa using h, ?_⟩
  intro p hp
  obtain ⟨x, _, rfl⟩ := List.mem_map.mp hp
  exact octet_digits x

theorem mem_dotted (h : 1 < b.length) : '.' ∈ dotted b := by
  obtain ⟨x, y, rest, rfl⟩ : ∃ x y rest, b = x :: y :: rest := by
    match b, h with
    | x :: y :: rest, _ => exact ⟨x, y, rest, rfl⟩
  simp [dotted, List.intercalate_cons_cons]

end Digits

section Pack
variable {b : Bytes} {source : List Char} {gs : List Nat} {ps qs : List (List Char)}
  {isIP : List Char → Nat}

/-- A token that has a first character, and no colon. -/
def Solid (p : List Char) : Prop := p ≠ [] ∧ ':' ∉ p

theorem modifyHead_same {α : Type} (l : List α) : l.modifyHead (fun x => x) = l := by
  cases l <;> rfl

theorem splitDouble_append {l : List Char} (h : ':' ∉ l) (rest : List Char) :
    splitDouble (l ++ rest) = (splitDouble rest).modifyHead (l ++ ·) := by
  induction l with
  | nil => exact (modifyHead_same _).symm
  | cons c l ih =>
    rw [List.mem_cons, not_or] at h
    have hstep : splitDouble (c :: (l ++ rest)) = (splitDouble (l ++ rest)).modifyHead (c :: ·) := by
      rw [splitDouble]
      intro _ hc
      exact absurd hc.symm h.1
    rw [List.cons_append, hstep, ih h.2, List.modifyHead_modifyHead]
    rfl

/-- The join of solid tokens holds no double colon and does not end with a colon. -/
theorem splitDouble_join (h : ∀ p ∈ ps, Solid p) (rest : List Char) :
    splitDouble (List.intercalate [':'] ps ++ rest) =
      (splitDouble rest).modifyHead (List.intercalate [':'] ps ++ ·) := by
  induction ps with
  | nil => exact (modifyHead_same _).symm
  | cons p ps ih =>
    have hp := h p List.mem_cons_self
    cases ps with
    | nil => simpa using splitDouble_append hp.2 rest
    | cons q ps =>
      have hq := h q (by simp)
      have ih := ih fun q hq => h q (List.mem_cons_of_mem _ hq)
      obtain ⟨c, tail, htail⟩ : ∃ c tail, List.intercalate [':'] (q :: ps) = c :: tail ∧ c ≠ ':' := by
        obtain ⟨c, q', rfl⟩ := List.exists_cons_of_ne_nil hq.1
        have hc : c ≠ ':' := fun heq => hq.2 (heq ▸ List.mem_cons_self)
        cases ps with
        | nil => exact ⟨c, q', by simp, hc⟩
        | cons r ps => exact ⟨c, _, by rw [List.intercalate_cons_cons]; rfl, hc⟩
      have hcolon : splitDouble (':' :: (List.intercalate [':'] (q :: ps) ++ rest)) =
          (splitDouble (List.intercalate [':'] (q :: ps) ++ rest)).modifyHead (':' :: ·) := by
        rw [htail.1]
        obtain ⟨_, hc⟩ := htail
        rw [splitDouble]
        intro rest' _ heq
        exact hc (List.cons.inj heq).1
      rw [List.intercalate_cons_cons, List.append_assoc, List.append_assoc, List.singleton_append,
        splitDouble_append hp.2, hcolon, ih, List.modifyHead_modifyHead, List.modifyHead_modifyHead]
      congr 1
      funext l
      simp

theorem splitDouble_full (h : ∀ p ∈ ps, Solid p) :
    splitDouble (List.intercalate [':'] ps) = [List.intercalate [':'] ps] := by
  have hjoin := splitDouble_join h []
  simpa [splitDouble] using hjoin

theorem splitDouble_short (hp : ∀ p ∈ ps, Solid p) (hq : ∀ q ∈ qs, Solid q) :
    splitDouble (List.intercalate [':'] ps ++ ':' :: ':' :: List.intercalate [':'] qs) =
      [List.intercalate [':'] ps, List.intercalate [':'] qs] := by
  rw [splitDouble_join hp, splitDouble, splitDouble_full hq]
  simp

theorem partGroups_join (h : ∀ p ∈ ps, Solid p) {gss : List (List Nat)}
    (hgroups : ps.mapM (tokenGroups source) = .ok gss) :
    partGroups source (List.intercalate [':'] ps) = .ok gss.flatten := by
  cases ps with
  | nil =>
    cases hgroups
    rfl
  | cons p ps =>
    have hne : List.intercalate [':'] (p :: ps) ≠ [] := by
      obtain ⟨c, p', rfl⟩ := List.exists_cons_of_ne_nil (h p List.mem_cons_self).1
      cases ps with
      | nil => simp
      | cons q ps => simp [List.intercalate_cons_cons]
    unfold partGroups
    rw [if_neg hne, List.splitOn_intercalate ':' (fun l hl => (h l hl).2) (by simp), hgroups]
    rfl

theorem solid_groupTexts (h : ∀ g ∈ gs, g < 65536) : ∀ p ∈ gs.map groupText, Solid p := by
  intro p hp
  obtain ⟨g, hg, rfl⟩ := List.mem_map.mp hp
  have hgroup := group_groupText (h g hg)
  exact ⟨hgroup.1, hgroup.not_mem rfl⟩

theorem mapM_groupTexts (h : ∀ g ∈ gs, g < 65536) :
    (gs.map groupText).mapM (tokenGroups source) = .ok (gs.map ([·])) := by
  induction gs with
  | nil => rfl
  | cons g gs ih =>
    have hgroup := group_groupText (h g List.mem_cons_self)
    have htoken : tokenGroups source (groupText g) = .ok [g] := by
      unfold tokenGroups
      rw [if_neg (hgroup.not_mem rfl), (groupText_spec g).2]
    rw [List.map_cons, List.mapM_cons, htoken, ih fun g hg => h g (List.mem_cons_of_mem _ hg)]
    rfl

theorem flatten_singletons (gs : List Nat) : (gs.map ([·])).flatten = gs := by
  rw [← List.flatMap_def, List.flatMap_singleton']

theorem tokens_groupTexts (h : ∀ g ∈ gs, g < 65536) : Tokens (gs.map groupText) gs.length := by
  induction gs with
  | nil => exact .nil
  | cons g gs ih =>
    exact .cons (group_groupText (h g List.mem_cons_self))
      (ih fun g hg => h g (List.mem_cons_of_mem _ hg))

theorem readGroups_lt (b : Bytes) : ∀ g ∈ readGroups b, g < 65536 := by
  induction b using readGroups.induct with
  | case1 high low rest ih =>
    intro g hg
    rcases List.mem_cons.mp hg with rfl | hg
    · have := high.toNat_lt
      have := low.toNat_lt
      omega
    · exact ih g hg
  | case2 b hne =>
    intro g hg
    rw [readGroups] at hg
    · cases hg
    · exact hne

theorem length_readGroups (b : Bytes) : (readGroups b).length = b.length / 2 := by
  induction b using readGroups.induct with
  | case1 high low rest ih =>
    rw [readGroups, List.length_cons, ih, List.length_cons, List.length_cons]
    omega
  | case2 b hne =>
    rw [readGroups]
    · match b, hne with
      | [], _ => rfl
      | [x], _ => simp
      | x :: y :: rest, hne => exact absurd rfl (hne x y rest)
    · exact hne

/-- The bytes of the groups of bytes are the bytes. -/
theorem groups_bytes (h : b.length % 2 = 0) :
    ((readGroups b).flatMap fun g => [UInt8.ofNat (g >>> 8), UInt8.ofNat g]) = b := by
  induction b using readGroups.induct with
  | case1 high low rest ih =>
    have hlow := low.toNat_lt
    have hhigh : (high.toNat * 256 + low.toNat) >>> 8 = high.toNat := by
      rw [Nat.shiftRight_eq_div_pow]
      omega
    have hbyte : UInt8.ofNat (high.toNat * 256 + low.toNat) = low := by
      apply UInt8.toNat_inj.mp
      rw [UInt8.toNat_ofNat']
      omega
    have hrest : rest.length % 2 = 0 := by
      rw [List.length_cons, List.length_cons] at h
      omega
    rw [readGroups, List.flatMap_cons, ih hrest, hhigh, hbyte, UInt8.ofNat_toNat]
    rfl
  | case2 b hne =>
    match b, hne, h with
    | [], _, _ => rfl
    | x :: y :: rest, hne, _ => exact absurd rfl (hne x y rest)

theorem writeGroups_read (h : b.length % 2 = 0) : writeGroups (readGroups b) = .ok b := by
  unfold writeGroups
  rw [if_pos, groups_bytes h]
  rw [List.all_eq_true]
  exact fun g hg => decide_eq_true (readGroups_lt b g hg)

/-- An address of eight groups packs to them. -/
theorem packIp_full (hforms : TextForms isIP) (htokens : Tokens ps 8) (hps : ∀ p ∈ ps, Solid p)
    (hzone : '%' ∉ List.intercalate [':'] ps) {gss : List (List Nat)}
    (hgroups : ps.mapM (tokenGroups (List.intercalate [':'] ps)) = .ok gss)
    (hlength : gss.flatten.length = 8) :
    packIp isIP (List.intercalate [':'] ps) = writeGroups gss.flatten := by
  have hversion := (hforms _ hzone).2.mpr (.full htokens)
  unfold packIp
  simp only [if_neg hzone, hversion, splitDouble_full hps]
  change (partGroups _ (List.intercalate [':'] ps) >>= fun left => partGroups _ [] >>= fun _ =>
    if left.length ≠ 8 then _ else writeGroups left) = _
  rw [partGroups_join hps hgroups]
  exact if_neg (not_not.mpr hlength)

/-- An address with a double colon packs to its groups and the zero groups between them. -/
theorem packIp_short (hforms : TextForms isIP) {source : List Char}
    (hsource : source = List.intercalate [':'] ps ++ ':' :: ':' :: List.intercalate [':'] qs)
    {n : Nat} (hps : ∀ p ∈ ps, Group p) (hqs : Tokens qs n) (hfew : ps.length + n ≤ 7)
    (hright : ∀ q ∈ qs, Solid q) (hzone : '%' ∉ source) {gss hss : List (List Nat)}
    (hg : ps.mapM (tokenGroups source) = .ok gss) (hh : qs.mapM (tokenGroups source) = .ok hss)
    (hlength : gss.flatten.length + hss.flatten.length ≤ 8) :
    packIp isIP source = writeGroups (gss.flatten ++
      List.replicate (8 - gss.flatten.length - hss.flatten.length) 0 ++ hss.flatten) := by
  have hversion : isIP source = 6 := (hforms _ hzone).2.mpr (hsource ▸ .short hps hqs hfew)
  have hleft : ∀ p ∈ ps, Solid p := fun p hp => ⟨(hps p hp).1, (hps p hp).not_mem rfl⟩
  have hhalves : splitDouble source =
      [List.intercalate [':'] ps, List.intercalate [':'] qs] :=
    hsource ▸ splitDouble_short hleft hright
  unfold packIp
  simp only [if_neg hzone, hversion, hhalves]
  change (partGroups source (List.intercalate [':'] ps) >>= fun left =>
    partGroups source (List.intercalate [':'] qs) >>= fun right =>
      if (left ++ List.replicate (8 - left.length - right.length) 0 ++ right).length ≠ 8 then _
      else writeGroups (left ++ List.replicate (8 - left.length - right.length) 0 ++ right)) = _
  rw [partGroups_join hleft hg, partGroups_join hright hh]
  refine if_neg (not_not.mpr ?_)
  rw [List.length_append, List.length_append, List.length_replicate]
  omega

end Pack

section Unpack
variable {b : Bytes} {a : List Char} {gs : List Nat} {isIP : List Char → Nat}

/-- The run of zeros from an index on, and the group after it. -/
theorem zeroRun_at (index : Nat) :
    Stretch (gs[·]? = some 0) index ((gs.drop index).takeWhile (· = 0)).length ∧
      gs[index + ((gs.drop index).takeWhile (· = 0)).length]? ≠ some 0 := by
  have hdrop : ∀ k, gs[index + k]? = (gs.drop index)[k]? := fun k => List.getElem?_drop.symm
  have hjoin : (gs.drop index).takeWhile (· = 0) ++ (gs.drop index).dropWhile (· = 0) =
      gs.drop index := List.takeWhile_append_dropWhile
  constructor
  · intro j hle hlt
    obtain ⟨k, rfl⟩ := Nat.exists_eq_add_of_le hle
    have hk : k < ((gs.drop index).takeWhile (· = 0)).length := by omega
    change gs[index + k]? = some 0
    rw [hdrop, ← hjoin, List.getElem?_append_left hk, List.getElem?_eq_getElem hk]
    have hzero := List.mem_takeWhile_imp (List.getElem_mem hk)
    exact congrArg some (of_decide_eq_true hzero)
  · rw [hdrop]
    nth_rewrite 1 [← hjoin]
    rw [List.getElem?_append_right (le_refl _), Nat.sub_self, ← List.head?_eq_getElem?]
    intro hhead
    have hnot := List.head?_dropWhile_not (fun g : Nat => decide (g = 0)) (gs.drop index)
    rw [hhead] at hnot
    cases hnot

/-- The search gives the first longest run of at least two zero groups. -/
theorem zeroRuns_best {fuel index : Nat} {best : Option (Nat × Nat)}
    (hfuel : gs.length ≤ index + fuel) (hcut : Cut (gs[·]? = some 0) index)
    (hindex : index ≤ gs.length) (hbest : BestRun (gs[·]? = some 0) index best) :
    BestRun (gs[·]? = some 0) gs.length (zeroRuns gs fuel index best) := by
  induction fuel generalizing index best with
  | zero =>
    obtain rfl : index = gs.length := by omega
    exact hbest
  | succ fuel ih =>
    unfold zeroRuns
    by_cases hend : gs.length ≤ index
    · obtain rfl : index = gs.length := by omega
      rwa [if_pos hend]
    · rw [if_neg hend]
      by_cases hzero : gs[index]? = some 0
      · rw [if_neg (not_not.mpr hzero)]
        obtain ⟨hrun, hafter⟩ := @zeroRun_at gs index
        have hpos : 0 < ((gs.drop index).takeWhile (· = 0)).length := by
          by_contra hnot
          rw [Nat.eq_zero_of_not_pos hnot, Nat.add_zero] at hafter
          exact hafter hzero
        have hlength : ((gs.drop index).takeWhile (· = 0)).length ≤ gs.length - index := by
          rw [← List.length_drop]
          exact (List.takeWhile_sublist _).length_le
        exact ih (by omega) (cut_of_not hafter) (by omega) (hbest.block hcut hrun)
      · rw [if_pos hzero]
        exact ih (by omega) (cut_succ_of_not hzero) (by omega) (hbest.skip hzero)

theorem unpackIp_rfc5952 (h : b.length = 4 ∨ b.length = 16) :
    ∃ a, unpackIp b = .ok a ∧ Rfc5952 b a := by
  unfold unpackIp
  rcases h with h | h
  · rw [if_pos h]
    exact ⟨_, rfl, .four h⟩
  · rw [if_neg (by omega), if_neg (by omega)]
    by_cases hmapped : b.take 12 = mappedHead
    · simp only [if_pos hmapped]
      have hb : mappedHead ++ b.drop 12 = b := by rw [← hmapped, List.take_append_drop]
      have hrest : (b.drop 12).length = 4 := by
        rw [List.length_drop]
        omega
      have hform := Rfc5952.mapped hrest
      rw [hb] at hform
      exact ⟨_, rfl, hform⟩
    · simp only [if_neg hmapped]
      have hlength : (readGroups b).length = 8 := by rw [length_readGroups, h]
      have hbest := zeroRuns_best (by omega : (readGroups b).length ≤ 0 + (readGroups b).length)
        cut_zero (Nat.zero_le _) bestRun_zero
      rw [hlength] at hbest ⊢
      cases hruns : zeroRuns (readGroups b) 8 0 none with
      | none =>
        rw [hruns] at hbest
        exact ⟨_, rfl, .full h hmapped hbest⟩
      | some r =>
        rw [hruns] at hbest
        exact ⟨_, rfl, .short h hmapped hbest.1 hbest.2⟩

theorem not_mem_groupsText {c : Char} (hc : c.isUpper = true ∨ c = '%') : c ∉ groupsText gs := by
  have hcolon : c ≠ ':' := by
    rintro rfl
    rcases hc with hc | hc <;> cases hc
  refine not_mem_intercalate hcolon ?_
  intro l hl hmem
  obtain ⟨g, _, rfl⟩ := List.mem_map.mp hl
  obtain ⟨hhex, hlower⟩ := (groupText_spec g).1 c hmem
  rcases hc with hc | rfl
  · rw [hc] at hlower
    cases hlower
  · cases hhex

/-- A recommended text holds no upper-case letter and no zone. -/
theorem Rfc5952.not_mem (h : Rfc5952 b a) {c : Char} (hc : c.isUpper = true ∨ c = '%') : c ∉ a := by
  have hcolon : c ≠ ':' := by
    rintro rfl
    rcases hc with hc | hc <;> cases hc
  have hdotted : ∀ b, c ∉ dotted b := by
    intro b
    rcases hc with hc | rfl
    · refine not_mem_dotted ?_ ?_
      · by_contra hdigit
        rw [Bool.not_eq_false] at hdigit
        have hdigit := isDigit_bounds hdigit
        simp only [Char.isUpper, decide_eq_true_eq] at hc
        have hupper : 65 ≤ c.toNat := UInt32.le_iff_toNat_le.mp hc.1
        omega
      · rintro rfl
        cases hc
    · exact not_mem_dotted rfl (by decide)
  cases h with
  | four => exact hdotted b
  | mapped =>
    intro hmem
    rcases List.mem_append.mp hmem with hmem | hmem
    · have hletters : c = ':' ∨ c = 'f' ∨ c = ':' := by simpa using hmem
      rcases hletters with rfl | rfl | rfl
      · exact hcolon rfl
      · rcases hc with hc | hc <;> cases hc
      · exact hcolon rfl
    · exact hdotted _ hmem
  | full => exact not_mem_groupsText hc
  | short =>
    intro hmem
    simp only [List.mem_append, List.mem_cons] at hmem
    rcases hmem with hmem | hmem | hmem | hmem
    · exact not_mem_groupsText hc hmem
    · exact hcolon hmem
    · exact hcolon hmem
    · exact not_mem_groupsText hc hmem

theorem packIp_mapped (hforms : TextForms isIP) (h : b.length = 4) :
    packIp isIP ("::ffff:".toList ++ dotted b) = .ok (mappedHead ++ b) := by
  obtain ⟨w, x, y, z, rfl⟩ : ∃ w x y z, b = [w, x, y, z] := by
    match b, h with
    | [w, x, y, z], _ => exact ⟨w, x, y, z, rfl⟩
  have hfour : Ipv4Text (dotted [w, x, y, z]) := ipv4_dotted rfl
  have hgroup : Group ['f', 'f', 'f', 'f'] := by
    refine ⟨by simp, by simp, fun c hc => ?_⟩
    obtain rfl : c = 'f' := by simpa using hc
    rfl
  have hsource : "::ffff:".toList ++ dotted [w, x, y, z] = List.intercalate [':'] [] ++
      ':' :: ':' :: List.intercalate [':'] [['f', 'f', 'f', 'f'], dotted [w, x, y, z]] := by
    simp [List.intercalate_cons_cons]
  have hright : ∀ q ∈ [['f', 'f', 'f', 'f'], dotted [w, x, y, z]], Solid q := by
    intro q hq
    rcases List.mem_pair.mp hq with rfl | rfl
    · exact ⟨hgroup.1, hgroup.not_mem rfl⟩
    · exact ⟨List.ne_nil_of_mem (mem_dotted (by simp)), not_mem_dotted rfl (by decide)⟩
  have hzone : '%' ∉ "::ffff:".toList ++ dotted [w, x, y, z] :=
    (Rfc5952.mapped rfl).not_mem (.inr rfl)
  have hshift : ∀ m n : UInt8, m.toNat <<< 8 ||| n.toNat = m.toNat * 256 + n.toNat := by
    intro m n
    rw [← Nat.shiftLeft_add_eq_or_of_lt n.toNat_lt, Nat.shiftLeft_eq]
  have htokens : [['f', 'f', 'f', 'f'], dotted [w, x, y, z]].mapM
      (tokenGroups ("::ffff:".toList ++ dotted [w, x, y, z])) =
        .ok [[65535], readGroups [w, x, y, z]] := by
    have hhex : tokenGroups ("::ffff:".toList ++ dotted [w, x, y, z]) ['f', 'f', 'f', 'f'] =
        .ok [65535] := if_neg (hgroup.not_mem rfl)
    have hpoints : tokenGroups ("::ffff:".toList ++ dotted [w, x, y, z]) (dotted [w, x, y, z]) =
        .ok (readGroups [w, x, y, z]) := by
      unfold tokenGroups
      rw [if_pos (mem_dotted (by simp)), splitOn_dotted (by simp)]
      simp only [List.map_cons, List.map_nil, number_digits, hshift]
      rfl
    rw [List.mapM_cons, hhex, List.mapM_cons, hpoints]
    rfl
  have hnone : ([] : List (List Char)).mapM
      (tokenGroups ("::ffff:".toList ++ dotted [w, x, y, z])) = .ok [] := rfl
  rw [packIp_short hforms hsource (by simp) (.cons hgroup (.dotted hfour)) (by decide) hright hzone
    hnone htokens (by simp [readGroups])]
  exact writeGroups_read (b := mappedHead ++ [w, x, y, z]) (by simp [mappedHead])

/-- A recommended text packs to the bytes it is for. -/
theorem packIp_rfc5952 (hforms : TextForms isIP) (h : Rfc5952 b a) : packIp isIP a = .ok b := by
  have hzone : '%' ∉ a := h.not_mem (.inr rfl)
  cases h with
  | four hlength =>
    have hversion := (hforms _ hzone).1.mpr (ipv4_dotted hlength)
    have hne : b ≠ [] := by
      rintro rfl
      cases hlength
    unfold packIp
    simp only [if_neg hzone, hversion, splitOn_dotted hne, if_true, List.map_map]
    refine congrArg Except.ok ((List.map_congr_left fun x _ => ?_).trans (List.map_id b))
    change UInt8.ofNat (number (digits x.toNat)) = x
    rw [number_digits, UInt8.ofNat_toNat]
  | mapped hlength => exact packIp_mapped hforms hlength
  | full hlength =>
    have hsmall := readGroups_lt b
    have hgroups : (readGroups b).length = 8 := by rw [length_readGroups, hlength]
    have htokens := tokens_groupTexts hsmall
    rw [hgroups] at htokens
    have hpack := packIp_full hforms htokens (solid_groupTexts hsmall) hzone
      (mapM_groupTexts hsmall) (by rw [flatten_singletons, hgroups])
    rw [flatten_singletons, writeGroups_read (by omega)] at hpack
    exact hpack
  | @short _ s n hlength _ htwo hfirst =>
    have hsmall := readGroups_lt b
    have hgroups : (readGroups b).length = 8 := by rw [length_readGroups, hlength]
    have hwithin := hfirst.within
    have hleft : ∀ g ∈ (readGroups b).take s, g < 65536 := fun g hg =>
      hsmall g (List.mem_of_mem_take hg)
    have hright : ∀ g ∈ (readGroups b).drop (s + n), g < 65536 := fun g hg =>
      hsmall g (List.mem_of_mem_drop hg)
    have hzeros : ((readGroups b).drop s).take n = List.replicate n 0 := by
      refine List.eq_replicate_iff.mpr ⟨?_, fun g hg => ?_⟩
      · rw [List.length_take, List.length_drop]
        omega
      · obtain ⟨i, hi, rfl⟩ := List.mem_iff_getElem.mp hg
        rw [List.length_take, List.length_drop] at hi
        have hrun := hfirst.run (s + i) (Nat.le_add_right s i) (by omega)
        have hlt : s + i < (readGroups b).length := by omega
        change (readGroups b)[s + i]? = some 0 at hrun
        rw [List.getElem?_eq_getElem hlt] at hrun
        rw [List.getElem_take, List.getElem_drop]
        exact Option.some.inj hrun
    have hsplit : (readGroups b).take s ++ List.replicate n 0 ++ (readGroups b).drop (s + n) =
        readGroups b := by
      rw [← hzeros, List.append_assoc, ← List.drop_drop, List.take_append_drop,
        List.take_append_drop]
    have hlefts : ((readGroups b).take s).length = s := by
      rw [List.length_take]
      omega
    have hrights : ((readGroups b).drop (s + n)).length = 8 - (s + n) := by
      rw [List.length_drop, hgroups]
    have hpack := packIp_short hforms rfl
      (fun p hp => by
        obtain ⟨g, hg, rfl⟩ := List.mem_map.mp hp
        exact group_groupText (hleft g hg))
      (tokens_groupTexts hright)
      (by
        rw [List.length_map, hlefts, hrights]
        omega)
      (solid_groupTexts hright) hzone (mapM_groupTexts hleft) (mapM_groupTexts hright)
      (by
        rw [flatten_singletons, flatten_singletons, hlefts, hrights]
        omega)
    have hcount : 8 - s - (8 - (s + n)) = n := by omega
    rw [flatten_singletons, flatten_singletons, hlefts, hrights, hcount, hsplit,
      writeGroups_read (by omega)] at hpack
    exact hpack

theorem packIp_length (hforms : TextForms isIP) (h : packIp isIP a = .ok b) :
    b.length = 4 ∨ b.length = 16 := by
  unfold packIp at h
  by_cases hzone : '%' ∈ a
  · simp [hzone] at h
  · simp only [if_neg hzone] at h
    by_cases hfour : isIP a = 4
    · rw [if_pos hfour] at h
      have hform := (hforms a hzone).1.mp hfour
      rw [← Except.ok.inj h, List.length_map]
      exact .inl hform.1
    · rw [if_neg hfour] at h
      by_cases hsix : isIP a = 6
      · rw [if_neg (not_not.mpr hsix)] at h
        split at h
        · cases h
        · obtain ⟨left, _, h⟩ := ok_bind.mp h
          obtain ⟨right, _, h⟩ := ok_bind.mp h
          generalize (if (splitDouble a).length = 2 then
            left ++ List.replicate (8 - left.length - right.length) 0 ++ right else left) = groups at h
          split at h
          · cases h
          · next hlength =>
            unfold writeGroups at h
            split at h
            · have hpairs : ∀ groups : List Nat, (groups.flatMap fun g =>
                  [UInt8.ofNat (g >>> 8), UInt8.ofNat g]).length = 2 * groups.length := by
                intro groups
                induction groups with
                | nil => rfl
                | cons g groups ih =>
                  rw [List.flatMap_cons, List.length_append, ih, List.length_cons]
                  simp
                  omega
              rw [← Except.ok.inj h, hpairs]
              omega
            · cases h
      · rw [if_pos hsix] at h
        cases h

/-- Bytes and texts of addresses go back and forth, and the text is the one of RFC 5952. -/
structure AddressesExact (isIP : List Char → Nat) : Prop where
  unpacked : ∀ b, b.length = 4 ∨ b.length = 16 →
    ∃ a, unpackIp b = .ok a ∧ packIp isIP a = .ok b
  packed : ∀ a b, packIp isIP a = .ok b → ∃ a', unpackIp b = .ok a' ∧ Rfc5952 b a' ∧
    (∀ c ∈ a', c.isUpper = false) ∧ packIp isIP a' = .ok b ∧
    (packIp isIP a' >>= unpackIp) = .ok a'

theorem addresses_exact (isIP : List Char → Nat) (hforms : TextForms isIP) :
    AddressesExact isIP where
  unpacked := by
    intro b hb
    obtain ⟨a, hunpack, hform⟩ := unpackIp_rfc5952 hb
    exact ⟨a, hunpack, packIp_rfc5952 hforms hform⟩
  packed := by
    intro a b hpack
    obtain ⟨a', hunpack, hform⟩ := unpackIp_rfc5952 (packIp_length hforms hpack)
    have hpack' := packIp_rfc5952 hforms hform
    refine ⟨a', hunpack, hform, fun c hc => ?_, hpack', ?_⟩
    · by_contra hupper
      exact hform.not_mem (.inl (Bool.not_eq_false _ ▸ hupper)) hc
    · rw [hpack']
      exact hunpack

end Unpack

section Version

open Classical in
/-- The version of an address text by the two text forms. -/
noncomputable def textVersion (s : List Char) : Nat :=
  if Ipv4Text s then 4 else if Ipv6Text s then 6 else 0

theorem Tokens.colon {ps : List (List Char)} {n : Nat} (h : Tokens ps n) (hn : 2 < n) :
    ':' ∈ List.intercalate [':'] ps := by
  cases h with
  | nil => omega
  | dotted => omega
  | @cons p ps n _ hrest =>
    cases ps with
    | nil =>
      cases hrest
      omega
    | cons q ps => simp [List.intercalate_cons_cons]

theorem Ipv6Text.colon {s : List Char} (h : Ipv6Text s) : ':' ∈ s := by
  cases h with
  | full htokens => exact htokens.colon (by decide)
  | short => simp

theorem Ipv4Text.no_colon {s : List Char} (h : Ipv4Text s) : ':' ∉ s := by
  have hjoin : List.intercalate ['.'] (s.splitOn '.') = s := List.intercalate_splitOn '.'
  rw [← hjoin]
  exact not_mem_intercalate (by decide) fun p hp => (h.2 p hp).canonical.digits.not_mem rfl

theorem textForms_textVersion : TextForms textVersion := by
  intro s _
  unfold textVersion
  by_cases hfour : Ipv4Text s
  · have hsix : ¬ Ipv6Text s := fun h => hfour.no_colon h.colon
    simp [hfour, hsix]
  · by_cases hsix : Ipv6Text s <;> simp [hfour, hsix]

theorem addresses_exact_textVersion : TextForms textVersion ∧ AddressesExact textVersion :=
  ⟨textForms_textVersion, addresses_exact textVersion textForms_textVersion⟩

end Version

end Orm.Client
