import Orm.Logic.Holds
import Orm.Logic.Utf8
import Orm.Engine.Model

/-! The host stages of a column: the executor encrypts, writes as hex and packs a bound value, and
undoes it on a read cell. -/
namespace Orm.Client

open Orm.Logic
open Orm.Engine (Failure Stage)

abbrev Bytes := List UInt8

/-- A text as messages quote it, in JSON. -/
def jsonText (s : List Char) : List Char :=
  '"' :: s.flatMap (fun c =>
    if c = '"' then ['\\', '"']
    else if c = '\\' then ['\\', '\\']
    else if c = '\n' then ['\\', 'n']
    else if c = '\r' then ['\\', 'r']
    else if c = '\t' then ['\\', 't']
    else if c.toNat = 8 then ['\\', 'b']
    else if c.toNat = 12 then ['\\', 'f']
    else if c.toNat < 32 then
      ['\\', 'u', '0', '0'] ++ [Nat.digitChar (c.toNat / 16), Nat.digitChar (c.toNat % 16)]
    else [c]) ++ ['"']

/-- A bound value or a read cell of a column with codec stages. -/
inductive Cell where
  | null
  | text (s : List Char)
  | bytes (b : Bytes)
  deriving DecidableEq, Repr

/-- AES-256-GCM under the key that the source derives from a text. -/
structure Cipher where
  encrypt : String → (Fin 12 → UInt8) → Bytes → Bytes
  decrypt : String → Bytes → Bytes → Option Bytes
  decrypt_encrypt : ∀ key nonce b, decrypt key (List.ofFn nonce) (encrypt key nonce b) = some b
  tag : ∀ key nonce b, 16 ≤ (encrypt key nonce b).length

/-- Packed addresses. -/
structure Addresses where
  pack : List Char → Except Failure Bytes
  unpack : Bytes → Except Failure (List Char)

def stageText : Stage → String
  | .orderedJson => "ordered_json"
  | .aes => "aes"
  | .hex => "hex"
  | .gz => "gz"
  | .base64 => "base64"
  | .serialize => "serialize"
  | .yaml => "yaml"
  | .ip => "ip"

/-- `ORM-AES2` and a zero byte. -/
def envelope : Bytes := [79, 82, 77, 45, 65, 69, 83, 50, 0]

def upperHex (n : Nat) : UInt8 := UInt8.ofNat (if n < 10 then 48 + n else 55 + n)

def hexBytes (b : Bytes) : Bytes :=
  b.flatMap fun x => [upperHex (x.toNat / 16), upperHex (x.toNat % 16)]

def hexValue (c : Char) : Option Nat :=
  if '0' ≤ c ∧ c ≤ '9' then some (c.toNat - 48)
  else if 'A' ≤ c ∧ c ≤ 'F' then some (c.toNat - 55) else none

/-- The bytes of upper-case hex digits in pairs. -/
def unhex : List Char → Option Bytes
  | [] => some []
  | [_] => none
  | high :: low :: rest => do
    let h ← hexValue high
    let l ← hexValue low
    let b ← unhex rest
    pure (UInt8.ofNat (16 * h + l) :: b)

section Host
variable (cipher : Cipher) (ips : Addresses) (key : String)

def plainBytes : Cell → Bytes
  | .null => []
  | .text s => Utf8.encode s
  | .bytes b => b

def aesEncode (nonce : Fin 12 → UInt8) (b : Bytes) : Except Failure Bytes :=
  if key = "" then .error (.orm .config "secret aes not configured")
  else .ok (envelope ++ List.ofFn nonce ++ cipher.encrypt key nonce b)

def aesDecode (b : Bytes) : Except Failure Bytes :=
  if key = "" then .error (.orm .config "secret aes not configured")
  else if b.take 9 ≠ envelope then .error (.orm .codecDecode "aes: unsupported ciphertext format")
  else if b.length < 9 + 12 + 16 then .error (.orm .codecDecode "aes: truncated v2 envelope")
  else match cipher.decrypt key ((b.drop 9).take 12) (b.drop 21) with
    | none => .error (.orm .codecDecode "aes: authentication failed")
    | some plain => .ok plain

/-- One host stage, and whether its result is a text. -/
def encodeStage (nonce : Fin 12 → UInt8) (stage : Stage) (b : Bytes) :
    Except Failure (Bytes × Bool) :=
  match stage with
  | .aes => (aesEncode cipher key nonce b).map (·, false)
  | .hex => .ok (hexBytes b, true)
  | .ip => (ips.pack (Utf8.decode b)).map (·, false)
  | _ => .error (.orm .codecUnsupported ("host style " ++ stageText stage))

/-- The host stages in their order; every encryption takes the nonce of its place. -/
def encodeStages (nonce : Nat → Fin 12 → UInt8) : List Stage → Bytes × Bool →
    Except Failure (Bytes × Bool)
  | [], x => .ok x
  | stage :: stages, x => do
    let x ← encodeStage cipher ips key (nonce stages.length) stage x.1
    encodeStages nonce stages x

def hostEncode (nonce : Nat → Fin 12 → UInt8) (value : Cell) (styles : List Stage) :
    Except Failure Cell :=
  if styles = [] then .error (.orm .codecEncode "host style list is empty")
  else match styles.find? (fun s => !s.host) with
  | some stage => .error (.orm .codecUnsupported ("host style " ++ stageText stage))
  | none =>
    if value = .null then .ok .null
    else do
      let (b, isText) ← encodeStages cipher ips key nonce styles (plainBytes value, false)
      pure (if isText then .text (Utf8.decode b) else .bytes b)

/-- Undoes one stage that leaves bytes. -/
def decodeStage (stage : Stage) (b : Bytes) : Except Failure Bytes :=
  match stage with
  | .hex => match unhex (Utf8.decode b) with
    | some plain => .ok plain
    | none => .error (.orm .codecDecode "hex: odd length or non-hex input")
  | .aes => aesDecode cipher key b
  | _ => .error (.orm .codecUnsupported ("host style " ++ stageText stage))

/-- Undoes host stages from the last one; an address ends the loop, and any other cell is read as
a text. -/
def decodeStages : List Stage → Bytes → Except Failure (List Char)
  | [], b => .ok (Utf8.decode b)
  | .ip :: _, b => ips.unpack b
  | stage :: stages, b => do
    let b ← decodeStage cipher key stage b
    decodeStages stages b

def hostDecode (raw : Cell) (styles : List Stage) : Except Failure (Option (List Char)) :=
  if raw = .null then .ok none
  else some <$> decodeStages cipher ips key styles.reverse (plainBytes raw)

end Host

section Hex

def hexChar (n : Nat) : Char := Char.ofNat (if n < 10 then 48 + n else 55 + n)

def hexText (b : Bytes) : List Char :=
  b.flatMap fun x => [hexChar (x.toNat / 16), hexChar (x.toNat % 16)]

theorem encode_hexChar (n : Fin 16) : String.utf8EncodeChar (hexChar n) = [upperHex n] := by
  decide +revert

theorem hexValue_hexChar (n : Fin 16) : hexValue (hexChar n) = some n.val := by
  decide +revert

theorem hexDigits_lt (x : UInt8) : x.toNat / 16 < 16 ∧ x.toNat % 16 < 16 := by
  have := x.toNat_lt
  omega

theorem encode_hexText (b : Bytes) : Utf8.encode (hexText b) = hexBytes b := by
  induction b with
  | nil => rfl
  | cons x b ih =>
    obtain ⟨hhigh, hlow⟩ := hexDigits_lt x
    have hx : hexText (x :: b) =
        hexChar (x.toNat / 16) :: hexChar (x.toNat % 16) :: hexText b := rfl
    rw [hx, Utf8.encode_cons, Utf8.encode_cons, ih, encode_hexChar ⟨_, hhigh⟩,
      encode_hexChar ⟨_, hlow⟩]
    rfl

theorem unhex_hexText (b : Bytes) : unhex (hexText b) = some b := by
  induction b with
  | nil => rfl
  | cons x b ih =>
    obtain ⟨hhigh, hlow⟩ := hexDigits_lt x
    have hx : hexText (x :: b) =
        hexChar (x.toNat / 16) :: hexChar (x.toNat % 16) :: hexText b := rfl
    rw [hx, unhex, hexValue_hexChar ⟨_, hhigh⟩, hexValue_hexChar ⟨_, hlow⟩, ih]
    have hsum : UInt8.ofNat (16 * (x.toNat / 16) + x.toNat % 16) = x := by
      rw [Nat.div_add_mod, UInt8.ofNat_toNat]
    exact congrArg (fun y => some (y :: b)) hsum

theorem decode_hexBytes (b : Bytes) : Utf8.decode (hexBytes b) = hexText b := by
  rw [← encode_hexText, Utf8.decode_encode]

end Hex

section RoundTrip
variable (cipher : Cipher) (ips : Addresses) (key : String)

/-- Undoes stages that leave bytes, from the last one. -/
def decodeBytes : List Stage → Bytes → Except Failure Bytes
  | [], b => .ok b
  | stage :: stages, b => do
    let b ← decodeStage cipher key stage b
    decodeBytes stages b

/-- The bytes that stages were applied to, read from a cell. -/
def plaintext (styles : List Stage) (cell : Cell) : Except Failure Bytes :=
  decodeBytes cipher key styles.reverse (plainBytes cell)

variable {cipher ips key}

theorem aesDecode_encode {nonce : Fin 12 → UInt8} {b out : Bytes}
    (h : aesEncode cipher key nonce b = .ok out) : aesDecode cipher key out = .ok b := by
  unfold aesEncode at h
  split at h
  · cases h
  · rename_i hkey
    cases h
    have htag := cipher.tag key nonce b
    have htake : (envelope ++ List.ofFn nonce ++ cipher.encrypt key nonce b).take 9 = envelope := by
      rw [List.append_assoc, List.take_append_of_le_length (by simp [envelope])]
      rfl
    have hnonce : ((envelope ++ List.ofFn nonce ++ cipher.encrypt key nonce b).drop 9).take 12 =
        List.ofFn nonce := by
      rw [List.append_assoc, List.drop_append_of_le_length (by simp [envelope])]
      simp [envelope]
    have hdrop : (envelope ++ List.ofFn nonce ++ cipher.encrypt key nonce b).drop 21 =
        cipher.encrypt key nonce b := by
      rw [List.drop_append, List.drop_eq_nil_of_le (by simp [envelope])]
      simp [envelope]
    rw [aesDecode, if_neg hkey, if_neg (not_not.mpr htake), if_neg (by simp [envelope]; omega),
      hnonce, hdrop, cipher.decrypt_encrypt]

theorem decodeStage_encode {nonce : Fin 12 → UInt8} {stage : Stage} {b out : Bytes} {isText : Bool}
    (hip : stage ≠ .ip) (h : encodeStage cipher ips key nonce stage b = .ok (out, isText)) :
    decodeStage cipher key stage out = .ok b := by
  cases stage with
  | aes =>
    cases henc : aesEncode cipher key nonce b with
    | error e => simp [encodeStage, henc, Except.map] at h
    | ok out' =>
      simp only [encodeStage, henc, Except.map, Except.ok.injEq, Prod.mk.injEq] at h
      obtain ⟨rfl, -⟩ := h
      exact aesDecode_encode henc
  | hex =>
    cases h
    simp only [decodeStage, decode_hexBytes, unhex_hexText]
  | ip => exact absurd rfl hip
  | orderedJson => cases h
  | gz => cases h
  | base64 => cases h
  | serialize => cases h
  | yaml => cases h

theorem decodeBytes_append (stages stages' : List Stage) (b : Bytes) :
    decodeBytes cipher key (stages ++ stages') b =
      decodeBytes cipher key stages b >>= decodeBytes cipher key stages' := by
  induction stages generalizing b with
  | nil => rfl
  | cons stage stages ih =>
    simp only [List.cons_append, decodeBytes, bind_assoc, ih]

/-- The bytes of encoded bytes are the bytes. -/
theorem decodeBytes_encodeStages {nonce : Nat → Fin 12 → UInt8} {styles : List Stage}
    {x y : Bytes × Bool} (hip : .ip ∉ styles)
    (h : encodeStages cipher ips key nonce styles x = .ok y) :
    decodeBytes cipher key styles.reverse y.1 = .ok x.1 := by
  induction styles generalizing x with
  | nil =>
    cases h
    rfl
  | cons stage styles ih =>
    rw [List.mem_cons, not_or] at hip
    obtain ⟨z, hz, h⟩ := ok_bind.mp h
    rw [List.reverse_cons, decodeBytes_append, ih hip.2 h]
    change (decodeStage cipher key stage z.1 >>= fun b => Except.ok b) = _
    rw [decodeStage_encode (fun he => hip.1 he.symm) hz]
    rfl

/-- An encoded text is valid UTF-8: its last stage is hex. -/
theorem encodeStages_text {nonce : Nat → Fin 12 → UInt8} {styles : List Stage} {x y : Bytes × Bool}
    (h : encodeStages cipher ips key nonce styles x = .ok y)
    (hx : x.2 = true → Utf8.Valid x.1) (hy : y.2 = true) : Utf8.Valid y.1 := by
  induction styles generalizing x with
  | nil =>
    cases h
    exact hx hy
  | cons stage styles ih =>
    obtain ⟨z, hz, h⟩ := ok_bind.mp h
    refine ih h fun htext => ?_
    cases stage with
    | hex =>
      cases hz
      exact ⟨_, encode_hexText x.1⟩
    | aes =>
      cases henc : aesEncode cipher key (nonce styles.length) x.1 with
      | error e => simp [encodeStage, henc, Except.map] at hz
      | ok out =>
        simp only [encodeStage, henc, Except.map, Except.ok.injEq] at hz
        simp [← hz] at htext
    | ip =>
      cases hp : ips.pack (Utf8.decode x.1) with
      | error e => simp [encodeStage, hp, Except.map] at hz
      | ok out =>
        simp only [encodeStage, hp, Except.map, Except.ok.injEq] at hz
        simp [← hz] at htext
    | orderedJson => cases hz
    | gz => cases hz
    | base64 => cases hz
    | serialize => cases hz
    | yaml => cases hz

/-- The encoded cell of a value holds the result of its stages. -/
theorem hostEncode_ok {nonce : Nat → Fin 12 → UInt8} {styles : List Stage} {value cell : Cell}
    (h : hostEncode cipher ips key nonce value styles = .ok cell) (hvalue : value ≠ .null) :
    cell ≠ .null ∧ ∃ isText, encodeStages cipher ips key nonce styles (plainBytes value, false) =
      .ok (plainBytes cell, isText) := by
  unfold hostEncode at h
  split at h
  · cases h
  · split at h
    · cases h
    · obtain ⟨⟨out, isText⟩, hout, h⟩ := ok_bind.mp h
      cases isText with
      | false =>
        cases h
        exact ⟨by simp, false, hout⟩
      | true =>
        cases h
        have hvalid := encodeStages_text hout (by simp) rfl
        refine ⟨by simp, true, ?_⟩
        rw [hout]
        simp [plainBytes, (Utf8.encode_decode_iff out).mpr hvalid]

theorem plaintext_hostEncode {nonce : Nat → Fin 12 → UInt8} {styles : List Stage}
    {value cell : Cell} (hip : .ip ∉ styles)
    (h : hostEncode cipher ips key nonce value styles = .ok cell) (hvalue : value ≠ .null) :
    plaintext cipher key styles cell = .ok (plainBytes value) := by
  obtain ⟨-, isText, hout⟩ := hostEncode_ok h hvalue
  exact decodeBytes_encodeStages hip hout

variable (cipher ips key) in
/-- Stages before an address leave bytes. -/
theorem decodeStages_append (stages stages' : List Stage) (hip : .ip ∉ stages) (b : Bytes) :
    decodeStages cipher ips key (stages ++ stages') b =
      decodeBytes cipher key stages b >>= decodeStages cipher ips key stages' := by
  induction stages generalizing b with
  | nil => rfl
  | cons stage stages ih =>
    rw [List.mem_cons, not_or] at hip
    have hstep : decodeStages cipher ips key (stage :: (stages ++ stages')) b =
        (decodeStage cipher key stage b >>= decodeStages cipher ips key (stages ++ stages')) := by
      cases stage <;> first | rfl | exact absurd rfl hip.1
    rw [List.cons_append, hstep, decodeBytes, bind_assoc]
    congr 1
    funext b'
    exact ih hip.2 b'

/-- A read cell without an address stage is the text of its bytes. -/
theorem hostDecode_eq {styles : List Stage} {cell : Cell} (hip : .ip ∉ styles)
    (hcell : cell ≠ .null) :
    hostDecode cipher ips key cell styles =
      (fun b => some (Utf8.decode b)) <$> plaintext cipher key styles cell := by
  have hstages := decodeStages_append cipher ips key
    styles.reverse [] (by simpa using hip) (plainBytes cell)
  rw [List.append_nil] at hstages
  rw [hostDecode, if_neg hcell, hstages, plaintext]
  cases decodeBytes cipher key styles.reverse (plainBytes cell) <;> rfl

/-- A read cell whose first host stage is an address is the address of its bytes. -/
theorem hostDecode_address {styles : List Stage} {cell : Cell} (hip : .ip ∉ styles)
    (hcell : cell ≠ .null) :
    hostDecode cipher ips key cell (.ip :: styles) =
      plaintext cipher key styles cell >>= fun b => some <$> ips.unpack b := by
  have hstages := decodeStages_append cipher ips key
    styles.reverse [.ip] (by simpa using hip) (plainBytes cell)
  rw [hostDecode, if_neg hcell, List.reverse_cons, hstages, plaintext]
  cases decodeBytes cipher key styles.reverse (plainBytes cell) <;> rfl

end RoundTrip

/-- A cipher that appends a tag of zeros. -/
def zeroTag : Cipher where
  encrypt _ _ b := b ++ List.replicate 16 0
  decrypt _ _ c := some (c.take (c.length - 16))
  decrypt_encrypt := by simp
  tag := by simp

def noAddresses : Addresses where
  pack _ := .error (.orm .codecEncode "ip")
  unpack _ := .error (.orm .codecDecode "ip")

end Orm.Client
