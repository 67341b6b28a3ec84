import Orm.Client.Codec
import Orm.Engine.Predicate

/-! The codec stages that the client runs: a styled value becomes a cell, and a cell a styled
value. -/
namespace Orm.Client

open Orm.Logic
open Orm.Engine (Failure Stage Planner Code sqlStart)

/-- The codecs of a client, with the payload of a styled value as their input. -/
structure Coders (V : Type) where
  asText : V → Option (List Char)
  ofText : List Char → V
  /-- `serialize`, `yaml` and `ordered_json` write a text. -/
  write : Stage → V → Except Failure (List Char)
  read : Stage → Bytes → Except Failure V
  deflate : Bytes → Bytes
  inflate : Bytes → Except Failure Bytes
  base64 : Bytes → List Char
  unbase64 : Bytes → Except Failure Bytes

/-- The stages after the first one can be undone, and no output starts with a byte order mark. -/
structure Coders.Framed {V : Type} (coders : Coders V) : Prop where
  inflate_deflate : ∀ b, coders.inflate (coders.deflate b) = .ok b
  unbase64_base64 : ∀ b, coders.unbase64 (Utf8.encode (coders.base64 b)) = .ok b
  deflate_ne : ∀ b, coders.deflate b ≠ []
  write_head : ∀ {stage v s}, coders.write stage v = .ok s → ∃ c, s.head? = some c ∧ c ≠ '\uFEFF'
  base64_head : ∀ b, (coders.base64 b).head? ≠ some '\uFEFF'

/-- The text of UTF-8 bytes without a byte order mark, as a fatal `TextDecoder` reads it. -/
def string (code : Code) (b : Bytes) : Except Failure (List Char) :=
  if Utf8.encode (Utf8.decode b) = b then
    .ok (if (Utf8.decode b).head? = some '\uFEFF' then (Utf8.decode b).tail else Utf8.decode b)
  else .error (.orm code "invalid UTF-8")

/-- The stages that take the payload as a value. -/
def valueStage : Stage → Bool
  | .serialize | .yaml | .orderedJson => true
  | _ => false

section Client
variable {V : Type} (codecs : Coders V)

/-- The styles after the first one are `gz` and `base64`, and no style is a host stage. -/
def checkStyles (styles : List Stage) : Except Failure PUnit.{1} :=
  match styles.find? Stage.host, styles.tail.find? valueStage with
  | some stage, _ => .error (.orm .codecUnsupported ("style " ++ stageText stage))
  | none, some stage =>
    .error (.orm .codecUnsupported (stageText stage ++ " must be the first style"))
  | none, none => .ok ⟨⟩

def clientStage (v : V) (b : Bytes) (stage : Stage) : Except Failure Bytes :=
  match stage with
  | .serialize | .yaml | .orderedJson => Utf8.encode <$> codecs.write stage v
  | .base64 => .ok (Utf8.encode (codecs.base64 b))
  | .gz => .ok (codecs.deflate b)
  | _ => .error (.orm .codecUnsupported ("style " ++ stageText stage))

/-- The bytes before the first stage: a first `gz` or `base64` takes the payload as text. -/
def firstBytes (styles : List Stage) (v : V) : Except Failure Bytes :=
  if styles.head?.any valueStage then .ok []
  else match codecs.asText v with
    | some s => .ok (Utf8.encode s)
    | none => .error (.orm .codecEncode "the first stage takes a string value")

def encodeStyled (styles : List Stage) (state : Option V) : Except Failure Cell := do
  checkStyles styles
  match state with
  | none => pure .null
  | some v => do
    let first ← firstBytes codecs styles v
    let out ← styles.foldlM (clientStage codecs v) first
    if styles.getLast? = some .gz then pure (.bytes out)
    else .text <$> string .codecEncode out

/-- Undoes client stages from the last one. -/
def decodeClient : List Stage → Bytes → Except Failure V
  | [], b => codecs.ofText <$> string .codecDecode b
  | .gz :: stages, b => do
    let b ← codecs.inflate b
    decodeClient stages b
  | .base64 :: stages, b => do
    let b ← codecs.unbase64 b
    decodeClient stages b
  | stage :: stages, b => do
    let v ← codecs.read stage b
    match stages with
    | [] => pure v
    | next :: _ => .error (.orm .codecDecode ("style " ++ stageText next ++ " after a decoded value"))

def decode (styles : List Stage) (raw : Cell) : Except Failure (Option V) := do
  checkStyles styles
  if raw = .null then pure none
  else if plainBytes raw = [] ∧ styles ≠ [] ∧ styles.getLast? ≠ some .base64 then
    .error (.orm .codecDecode "styled cell is empty")
  else some <$> decodeClient codecs styles.reverse (plainBytes raw)

end Client

section Lemmas
variable {V : Type}

/-- Stages that take and leave bytes. -/
def Plain (stages : List Stage) : Prop := ∀ stage ∈ stages, stage = .gz ∨ stage = .base64

theorem checkStyles_ok {styles : List Stage} {u : PUnit.{1}} (h : checkStyles styles = .ok u) :
    Plain styles.tail ∧ ∀ stage ∈ styles, stage.host = false := by
  unfold checkStyles at h
  split at h
  · cases h
  · cases h
  · rename_i hhost hvalue
    rw [List.find?_eq_none] at hhost hvalue
    have hall : ∀ stage ∈ styles, stage.host = false := by
      intro stage hstage
      simpa using hhost stage hstage
    refine ⟨fun stage hstage => ?_, hall⟩
    have hh := hall stage (List.mem_of_mem_tail hstage)
    have hv := hvalue stage hstage
    cases stage <;> simp_all [Stage.host, valueStage]

theorem string_encode {code : Code} {s : List Char} (h : s.head? ≠ some '\uFEFF') :
    string code (Utf8.encode s) = .ok s := by
  rw [string, if_pos (by rw [Utf8.decode_encode]), Utf8.decode_encode, if_neg h]

/-- Undoing plain stages gives the bytes before them. -/
theorem decodeClient_plain {coders : Coders V} (hc : coders.Framed) {v : V} {rest : List Stage}
    {b out : Bytes} (back : List Stage) (hrest : Plain rest)
    (h : rest.foldlM (clientStage coders v) b = .ok out) :
    decodeClient coders (rest.reverse ++ back) out = decodeClient coders back b := by
  induction rest generalizing b back with
  | nil =>
    cases h
    rfl
  | cons stage rest ih =>
    rw [List.foldlM_cons] at h
    obtain ⟨mid, hmid, h⟩ := ok_bind.mp h
    have hplain := ih (stage :: back) (fun st hst => hrest st (List.mem_cons_of_mem _ hst)) h
    rw [List.reverse_cons, List.append_assoc, List.singleton_append, hplain]
    rcases hrest stage List.mem_cons_self with rfl | rfl
    · cases hmid
      rw [decodeClient, hc.inflate_deflate]
      rfl
    · cases hmid
      rw [decodeClient, hc.unbase64_base64]
      rfl

/-- The cell of a styled value holds what the stages of the client make of it. -/
theorem encodeStyled_ok {coders : Coders V} (hc : coders.Framed) {v : V} {styles : List Stage}
    {cell : Cell} (hstyles : styles ≠ []) (h : encodeStyled coders styles (some v) = .ok cell) :
    Plain styles.tail ∧ (∀ stage ∈ styles, stage.host = false) ∧ cell ≠ .null ∧
      (styles.getLast? ≠ some .gz → ∃ s, cell = .text s) ∧
      (plainBytes cell = [] → styles.getLast? = some .base64) ∧
      ∃ first, firstBytes coders styles v = .ok first ∧
        styles.foldlM (clientStage coders v) first = .ok (plainBytes cell) := by
  obtain ⟨u, hcheck, h⟩ := ok_bind.mp h
  obtain ⟨htail, hhost⟩ := checkStyles_ok hcheck
  obtain ⟨first, hfirst, h⟩ := ok_bind.mp h
  obtain ⟨out, hout, h⟩ := ok_bind.mp h
  refine ⟨htail, hhost, ?_⟩
  -- The last stage decides the form of the output.
  obtain ⟨init, last, rfl⟩ : ∃ init last, styles = init ++ [last] :=
    ⟨_, _, (List.dropLast_append_getLast hstyles).symm⟩
  have hlast := hhost last (by simp)
  have hfold := hout
  rw [List.foldlM_append] at hfold
  obtain ⟨mid, -, hfold⟩ := ok_bind.mp hfold
  rw [List.foldlM_cons] at hfold
  obtain ⟨out', hstage, hfold⟩ := ok_bind.mp hfold
  cases hfold
  by_cases hgz : last = .gz
  · subst hgz
    rw [if_pos (by simp)] at h
    cases h
    cases hstage
    refine ⟨by simp, by simp, fun hnil => ?_, first, hfirst, hout⟩
    exact absurd hnil (hc.deflate_ne mid)
  · rw [if_neg (by simpa using hgz)] at h
    obtain ⟨s, hs, hempty⟩ : ∃ s, Utf8.encode s = out ∧ s.head? ≠ some '\uFEFF' ∧
        (s = [] → last = .base64) := by
      cases last with
      | base64 =>
        cases hstage
        exact ⟨_, rfl, hc.base64_head mid, fun _ => rfl⟩
      | gz => exact absurd rfl hgz
      | aes => cases hlast
      | hex => cases hlast
      | ip => cases hlast
      | serialize | yaml | orderedJson =>
        simp only [clientStage, map_eq_pure_bind] at hstage
        obtain ⟨s, hs, hstage⟩ := ok_bind.mp hstage
        cases hstage
        obtain ⟨c, hhead, hne⟩ := hc.write_head hs
        refine ⟨s, rfl, by simp [hhead, hne], fun hnil => ?_⟩
        simp [hnil] at hhead
    subst hs
    rw [string_encode hempty.1] at h
    cases h
    refine ⟨by simp, fun _ => ⟨s, rfl⟩, fun hnil => ?_, first, hfirst, hout⟩
    have hs : s = [] := Utf8.encode_injective hnil
    simp [hempty.2 hs]

theorem decode_of_bytes {coders : Coders V} {v : V} {styles : List Stage} {cell : Cell}
    (htail : Plain styles.tail)
    (hhost : ∀ stage ∈ styles, stage.host = false) (hcell : cell ≠ .null)
    (hempty : plainBytes cell = [] → styles.getLast? = some .base64)
    (h : decodeClient coders styles.reverse (plainBytes cell) = .ok v) :
    decode coders styles cell = .ok (some v) := by
  have hcheck : checkStyles styles = .ok ⟨⟩ := by
    have hfind : styles.find? Stage.host = none := by
      rw [List.find?_eq_none]
      intro stage hstage
      simp [hhost stage hstage]
    have hvalue : styles.tail.find? valueStage = none := by
      rw [List.find?_eq_none]
      intro stage hstage
      rcases htail stage hstage with rfl | rfl <;> simp [valueStage]
    rw [checkStyles, hfind, hvalue]
  have hnot : ¬ (plainBytes cell = [] ∧ styles ≠ [] ∧ styles.getLast? ≠ some .base64) :=
    fun hall => hall.2.2 (hempty hall.1)
  rw [decode, hcheck]
  simp only [bind, Except.bind, if_neg hcell, if_neg hnot, h]
  rfl

end Lemmas

end Orm.Client
