import Mathlib

/-! UTF-8 with a decoder that replaces each malformed sequence. -/
namespace Orm.Logic.Utf8

/-- The UTF-8 bytes of a text. -/
def encode (s : List Char) : List UInt8 := s.flatMap String.utf8EncodeChar

/-- The bytes that may follow a lead byte of a sequence of three or four bytes. -/
def follows (lead second : UInt8) : Bool :=
  let low : UInt8 := if lead = 0xE0 then 0xA0 else if lead = 0xF0 then 0x90 else 0x80
  let high : UInt8 := if lead = 0xED then 0x9F else if lead = 0xF4 then 0x8F else 0xBF
  low ≤ second && second ≤ high

/-- The length of the malformed sequence that one replacement character stands for: a byte, or the
longest start of a well-formed sequence. -/
def malformed : List UInt8 → Nat
  | lead :: second :: rest =>
    if 0xE0 ≤ lead && lead ≤ 0xF4 && follows lead second then
      match rest with
      | third :: _ => if 0xF0 ≤ lead && 0x80 ≤ third && third ≤ 0xBF then 3 else 2
      | [] => 2
    else 1
  | _ => 1

/-- Decodes at most `fuel` sequences. -/
def decodeFrom : Nat → List UInt8 → List Char
  | _, [] => []
  | 0, _ => []
  | fuel + 1, byte :: rest =>
    match (byte :: rest).toByteArray.utf8DecodeChar? 0 with
    | some c => c :: decodeFrom fuel ((byte :: rest).drop c.utf8Size)
    | none => '�' :: decodeFrom fuel ((byte :: rest).drop (malformed (byte :: rest)))

/-- The text of UTF-8 bytes, with a replacement character for each malformed sequence. -/
def decode (bytes : List UInt8) : List Char := decodeFrom bytes.length bytes

/-- Whether bytes are the UTF-8 bytes of a text. -/
def Valid (bytes : List UInt8) : Prop := ∃ s, encode s = bytes

theorem encode_cons (c : Char) (s : List Char) :
    encode (c :: s) = String.utf8EncodeChar c ++ encode s := rfl

theorem encodeChar_ascii {c : Char} (h : c.toNat < 128) :
    String.utf8EncodeChar c = [UInt8.ofNat c.toNat] := by
  have hle : c.toNat ≤ 127 := Nat.le_of_lt_succ h
  simp [String.utf8EncodeChar, hle]

theorem decodeChar_encode (c : Char) (bytes : List UInt8) :
    (String.utf8EncodeChar c ++ bytes).toByteArray.utf8DecodeChar? 0 = some c := by
  rw [List.toByteArray_append]
  exact ByteArray.utf8DecodeChar?_utf8EncodeChar_append

theorem decodeFrom_encode (s : List Char) {fuel : Nat} (h : (encode s).length ≤ fuel) :
    decodeFrom fuel (encode s) = s := by
  induction s generalizing fuel with
  | nil => cases fuel <;> rfl
  | cons c s ih =>
    have hsize : (String.utf8EncodeChar c).length = c.utf8Size := String.length_utf8EncodeChar c
    have hpos : 0 < c.utf8Size := c.utf8Size_pos
    rw [encode_cons, List.length_append] at h
    obtain ⟨byte, rest, hbytes⟩ : ∃ byte rest, encode (c :: s) = byte :: rest := by
      cases henc : encode (c :: s) with
      | nil =>
        have hlength := congrArg List.length henc
        rw [encode_cons, List.length_append, List.length_nil] at hlength
        omega
      | cons byte rest => exact ⟨byte, rest, rfl⟩
    obtain ⟨fuel, rfl⟩ : ∃ n, fuel = n + 1 := ⟨fuel - 1, by omega⟩
    rw [hbytes, decodeFrom, ← hbytes, encode_cons, decodeChar_encode]
    simp only [← hsize, List.drop_left]
    rw [ih (by omega)]

theorem decode_encode (s : List Char) : decode (encode s) = s := decodeFrom_encode s le_rfl

/-- Decoding keeps the bytes of a text and of nothing else. -/
theorem encode_decode_iff (bytes : List UInt8) : encode (decode bytes) = bytes ↔ Valid bytes := by
  constructor
  · intro h
    exact ⟨_, h⟩
  · rintro ⟨s, rfl⟩
    rw [decode_encode]

theorem encode_injective : Function.Injective encode := by
  intro s t h
  rw [← decode_encode s, h, decode_encode]

/-- A decoded character stands for its own bytes. -/
theorem decodeChar_some {bytes : List UInt8} {c : Char}
    (h : bytes.toByteArray.utf8DecodeChar? 0 = some c) :
    ∃ rest, bytes = String.utf8EncodeChar c ++ rest := by
  obtain ⟨rest, hrest⟩ := ByteArray.exists_of_utf8DecodeChar?_eq_some h
  have hlist := congrArg (fun b : ByteArray => b.data.toList) hrest
  exact ⟨rest.data.toList, by simpa using hlist⟩

/-- Only a text that has the replacement character itself, and bytes that are no text, are decoded
with one. -/
theorem valid_of_not_mem {bytes : List UInt8} (h : '\uFFFD' ∉ decode bytes) : Valid bytes := by
  have hfuel (fuel : Nat) (b : List UInt8) (hb : b.length ≤ fuel)
      (hnot : '\uFFFD' ∉ decodeFrom fuel b) : Valid b := by
    induction fuel generalizing b with
    | zero =>
      obtain rfl := List.length_eq_zero_iff.mp (Nat.le_zero.mp hb)
      exact ⟨[], rfl⟩
    | succ fuel ih =>
      cases b with
      | nil => exact ⟨[], rfl⟩
      | cons byte rest =>
        rw [decodeFrom] at hnot
        split at hnot
        · next c hc =>
          obtain ⟨tail, htail⟩ := decodeChar_some hc
          have hsize : (String.utf8EncodeChar c).length = c.utf8Size := String.length_utf8EncodeChar c
          have hpos : 0 < c.utf8Size := c.utf8Size_pos
          have hlength := congrArg List.length htail
          rw [List.length_append, hsize] at hlength
          rw [htail, ← hsize, List.drop_left] at hnot
          obtain ⟨s, rfl⟩ := ih tail (by omega) fun hmem => hnot (List.mem_cons_of_mem _ hmem)
          exact ⟨c :: s, by rw [htail, encode_cons]⟩
        · exact absurd List.mem_cons_self hnot
  exact hfuel _ bytes le_rfl h

end Orm.Logic.Utf8
