import Orm.Logic.Utf8
import Orm.Logic.Holds
import Orm.Engine.Dialect
import Orm.Client.Stages

/-! The bounded reads of a catalog session: rows are converted as they arrive, under a budget of rows
and bytes, and SQLite reads a statement again when a text may have lost its bytes. -/
namespace Orm.Client

open Orm.Logic
open Orm.Engine (Dialect)

section Model
variable {σ ρ : Type}

/-- Gives the rows of a statement to a sink, which may stop it. -/
def scanRows (row : σ → ρ → σ × Bool) : σ → List ρ → σ
  | s, [] => s
  | s, r :: rest =>
    match row s r with
    | (s', true) => scanRows row s' rest
    | (s', false) => s'

/-- A value that a driver delivers: a text, bytes, or another value. -/
inductive Delivered (α : Type) where
  | text (s : List Char)
  | bytes (b : Bytes)
  | other (x : α)
  deriving DecidableEq

/-- Why a read fails: a value that does not convert, a value without a column, or the budget. -/
inductive ReadError (E : Type) where
  | convert (e : E)
  | noColumn (index : Nat)
  | limit (message : String)
  deriving DecidableEq

variable {α C T E : Type}

structure Collected (C T : Type) where
  columns : List C
  rows : List (List T)
  past : Bool
  deriving DecidableEq

/-- The variables of a read. -/
structure Collecting (T E : Type) where
  rows : List (List T)
  past : Bool
  bytes : Nat
  overflow : Option String
  failure : Option (ReadError E)
  lossy : Bool

def columnAt (columns : List C) (index : Nat) : Except (ReadError E) C :=
  match columns[index]? with
  | some column => .ok column
  | none => .error (.noColumn index)

/-- The cells of a row from an index on, with their size. -/
def convertCells (convert : Delivered α → C → Nat → Except E (T × Nat)) (columns : List C) :
    Nat → List (Delivered α) → Except (ReadError E) (List T × Nat)
  | _, [] => .ok ([], 0)
  | index, value :: values => do
    let column ← columnAt columns index
    let converted ← (convert value column index).mapError .convert
    let rest ← convertCells convert columns (index + 1) values
    .ok (converted.1 :: rest.1, converted.2 + rest.2)

variable (maxRows maxBytes : Nat) (convert : Delivered α → C → Nat → Except E (T × Nat))
  (keep : Option Nat) (columns : List C)

def deliver (s : Collecting T E) (values : List (Delivered α)) : Collecting T E × Bool :=
  if keep.any (· ≤ s.rows.length) then ({ s with past := true }, false)
  else if maxRows ≤ s.rows.length then
    ({ s with overflow := some s!"result has more than {maxRows} rows" }, false)
  else
    match convertCells convert columns 0 values with
    | .error e => ({ s with failure := some e }, false)
    | .ok (cells, size) =>
      if maxBytes < s.bytes + size then
        ({ s with overflow := some s!"result has more than {maxBytes} bytes of values" }, false)
      else ({ s with rows := s.rows ++ [cells], bytes := s.bytes + size }, true)

/-- Whether a text may have lost its bytes. -/
def lossyValue : Delivered α → Bool
  | .text s => '�' ∈ s
  | _ => false

/-- The sink of the first read. -/
def firstRow (dialect : Dialect) (s : Collecting T E) (values : List (Delivered α)) :
    Collecting T E × Bool :=
  if dialect = .sqlite ∧ values.any lossyValue then ({ s with lossy := true }, false)
  else deliver maxRows maxBytes convert keep columns s values

/-- The cells of a row of the second read, which has a storage class before each value. -/
def sqliteStoredCells : List (Delivered α) → List (Delivered α)
  | .text ['t', 'e', 'x', 't'] :: .bytes b :: rest =>
    (if Utf8.encode (Utf8.decode b) = b then .text (Utf8.decode b) else .bytes b) ::
      sqliteStoredCells rest
  | _ :: value :: rest => value :: sqliteStoredCells rest
  | _ => []

/-- `Session.collect` on the rows that the statement streams and on those that its second form
would. -/
def collect (dialect : Dialect) (first second : List (List (Delivered α))) :
    Except (ReadError E) (Collected C T) :=
  let s := scanRows (firstRow maxRows maxBytes convert keep columns dialect)
    ⟨[], false, 0, none, none, false⟩ first
  let s := if s.lossy then
      scanRows (fun s values => deliver maxRows maxBytes convert keep columns s
        (sqliteStoredCells values)) { s with rows := [], past := false, bytes := 0 } second
    else s
  match s.failure, s.overflow with
  | some e, _ => .error e
  | none, some message => .error (.limit message)
  | none, none => .ok ⟨columns, s.rows, s.past⟩

end Model

section Answers
variable {α : Type}

/-- The encoding in which a SQLite database stores its texts. -/
inductive Encoding where
  | utf8 | utf16le | utf16be
  deriving DecidableEq

/-- The 16-bit units of stored bytes. -/
def units16 (big : Bool) : Bytes → List Nat
  | a :: b :: rest =>
    (if big then a.toNat * 256 + b.toNat else b.toNat * 256 + a.toNat) :: units16 big rest
  | _ => []

/-- The code points of units as SQLite reads them: a surrogate takes the next unit along. -/
def points16 : List Nat → List Nat
  | c :: c2 :: rest =>
    if 0xd800 ≤ c ∧ c < 0xe000 then
      (c2 % 0x400 + c % 0x40 * 0x400 + (c % 0x400 / 0x40 + 1) * 0x10000) :: points16 rest
    else c :: points16 (c2 :: rest)
  | [c] => [c]
  | [] => []

def writeUtf8 (c : Nat) : Bytes :=
  if c < 0x80 then [.ofNat c]
  else if c < 0x800 then [.ofNat (0xc0 + c / 0x40), .ofNat (0x80 + c % 0x40)]
  else if c < 0x10000 then
    [.ofNat (0xe0 + c / 0x1000), .ofNat (0x80 + c / 0x40 % 0x40), .ofNat (0x80 + c % 0x40)]
  else [.ofNat (0xf0 + c / 0x40000), .ofNat (0x80 + c / 0x1000 % 0x40),
    .ofNat (0x80 + c / 0x40 % 0x40), .ofNat (0x80 + c % 0x40)]

/-- The UTF-8 bytes in which SQLite gives a text to its reader. -/
def Encoding.given : Encoding → Bytes → Bytes
  | .utf8, b => b
  | .utf16le, b => (points16 (units16 false b)).flatMap writeUtf8
  | .utf16be, b => (points16 (units16 true b)).flatMap writeUtf8

/-- A SQLite value with its storage class; a text as its stored bytes. -/
inductive Stored (α : Type) where
  | text (b : Bytes)
  | blob (b : Bytes)
  | null (x : α)
  | integer (x : α)
  | real (x : α)

/-- The value as the driver decodes it. -/
def Stored.decoded (encoding : Encoding) : Stored α → Delivered α
  | .text b => .text (Utf8.decode (encoding.given b))
  | .blob b => .bytes b
  | .null x | .integer x | .real x => .other x

/-- What the second read selects for a value: the cast of a text to BLOB keeps its stored bytes. -/
def Stored.selected : Stored α → List (Delivered α)
  | .text b => [.text "text".toList, .bytes b]
  | .blob b => [.text "blob".toList, .bytes b]
  | .null x => [.text "null".toList, .other x]
  | .integer x => [.text "integer".toList, .other x]
  | .real x => [.text "real".toList, .other x]

open Classical in
/-- The cell of a value: a text is its text when it has one, and else its bytes. -/
noncomputable def Stored.cell (encoding : Encoding) : Stored α → Delivered α
  | .text b => if Utf8.Valid (encoding.given b) then .text (Utf8.decode (encoding.given b))
      else .bytes b
  | .blob b => .bytes b
  | .null x | .integer x | .real x => .other x

/-- The result of a statement; the second read of a SQLite statement has the same rows in the same
order. -/
inductive Answer (α : Type) where
  | mysql (rows : List (List (Delivered α)))
  | postgres (rows : List (List (Delivered α)))
  | sqlite (encoding : Encoding) (rows : List (List (Stored α)))

def Answer.dialect : Answer α → Dialect
  | .mysql _ => .mysql
  | .postgres _ => .postgres
  | .sqlite .. => .sqlite

def Answer.first : Answer α → List (List (Delivered α))
  | .mysql rows | .postgres rows => rows
  | .sqlite encoding rows => rows.map fun row => row.map (Stored.decoded encoding)

def Answer.second : Answer α → List (List (Delivered α))
  | .mysql _ | .postgres _ => []
  | .sqlite _ rows => rows.map fun row => row.flatMap Stored.selected

/-- The cells of the result. -/
noncomputable def Answer.cells : Answer α → List (List (Delivered α))
  | .mysql rows | .postgres rows => rows
  | .sqlite encoding rows => rows.map fun row => row.map (Stored.cell encoding)

/-- The database stores its texts in UTF-8, or it is none of SQLite. -/
def Answer.Utf8 : Answer α → Prop
  | .mysql _ | .postgres _ => True
  | .sqlite encoding _ => encoding = .utf8

end Answers

section Deliver
variable {α C T E : Type} {maxRows maxBytes : Nat}
  {convert : Delivered α → C → Nat → Except E (T × Nat)} {keep : Option Nat} {columns : List C}
  {s : Collecting T E}

/-- A read that has neither failed nor stopped. -/
structure Collecting.Open (s : Collecting T E) : Prop where
  past : s.past = false
  overflow : s.overflow = none
  failure : s.failure = none

/-- What a read ends with. -/
def Collecting.finish (columns : List C) (s : Collecting T E) :
    Except (ReadError E) (Collected C T) :=
  match s.failure, s.overflow with
  | some e, _ => .error e
  | none, some message => .error (.limit message)
  | none, none => .ok ⟨columns, s.rows, s.past⟩

/-- The rows that a read needs. -/
def needed {ρ : Type} (keep : Option Nat) (rows : List ρ) : List ρ :=
  match keep with
  | none => rows
  | some k => rows.take k

theorem needed_cons {ρ : Type} {n : Nat} (h : keep.any (· ≤ n) = false) (row : ρ) (rows : List ρ) :
    needed (keep.map (· - n)) (row :: rows) = row :: needed (keep.map (· - (n + 1))) rows := by
  cases keep with
  | none => rfl
  | some k =>
    have hlt : n < k := by simpa using h
    obtain ⟨m, hm⟩ : ∃ m, k - n = m + 1 := ⟨k - n - 1, by omega⟩
    have hm' : k - (n + 1) = m := by omega
    simp only [Option.map_some, needed, hm, hm', List.take_succ_cons]

/-- What a read ends with after one more row. -/
theorem finish_cons (hs : s.Open) (values : List (Delivered α)) (rows : List (List (Delivered α))) :
    (scanRows (deliver maxRows maxBytes convert keep columns) s (values :: rows)).finish columns =
      if keep.any (· ≤ s.rows.length) then .ok ⟨columns, s.rows, true⟩
      else if maxRows ≤ s.rows.length then
        .error (.limit s!"result has more than {maxRows} rows")
      else convertCells convert columns 0 values >>= fun converted =>
        if maxBytes < s.bytes + converted.2 then
          .error (.limit s!"result has more than {maxBytes} bytes of values")
        else (scanRows (deliver maxRows maxBytes convert keep columns)
          { s with rows := s.rows ++ [converted.1], bytes := s.bytes + converted.2 }
          rows).finish columns := by
  rw [scanRows, deliver]
  split_ifs with hkeep hfull
  · simp only [Collecting.finish, hs.failure, hs.overflow]
  · simp only [Collecting.finish, hs.failure]
  · cases convertCells convert columns 0 values with
    | error e => rfl
    | ok converted =>
      by_cases hsize : maxBytes < s.bytes + converted.2
      · simp only [bind, Except.bind, if_pos hsize, Collecting.finish, hs.failure]
      · simp only [bind, Except.bind, if_neg hsize]

/-- A read from a state on gives the rows that it still needs, when they convert and fit. -/
theorem finish_scan_iff {rows : List (List (Delivered α))} {out : Collected C T} (hs : s.Open)
    (hkeep : ∀ k, keep = some k → s.rows.length ≤ k ∧ k ≤ maxRows)
    (hrows : s.rows.length ≤ maxRows) (hbytes : s.bytes ≤ maxBytes) :
    (scanRows (deliver maxRows maxBytes convert keep columns) s rows).finish columns = .ok out ↔
      ∃ cells, (needed (keep.map (· - s.rows.length)) rows).mapM (convertCells convert columns 0) =
          .ok cells ∧
        s.bytes + (cells.map Prod.snd).sum ≤ maxBytes ∧
        (keep = none → s.rows.length + rows.length ≤ maxRows) ∧
        out = ⟨columns, s.rows ++ cells.map Prod.fst,
          keep.any (· < s.rows.length + rows.length)⟩ := by
  induction rows generalizing s with
  | nil =>
    have hfinish : s.finish columns = .ok ⟨columns, s.rows, false⟩ := by
      rw [Collecting.finish, hs.failure, hs.overflow, hs.past]
    have hany : keep.any (· < s.rows.length + ([] : List (List (Delivered α))).length) = false := by
      cases hk : keep with
      | none => rfl
      | some k =>
        have := hkeep k hk
        simp only [Option.any_some, List.length_nil, decide_eq_false_iff_not]
        omega
    have hneeded : needed (keep.map (· - s.rows.length)) ([] : List (List (Delivered α))) = [] := by
      cases keep <;> simp [needed]
    rw [scanRows, hfinish, hneeded, hany]
    simp only [List.mapM_nil, pure, Except.pure, Except.ok.injEq, List.length_nil, Nat.add_zero]
    constructor
    · rintro rfl
      exact ⟨[], rfl, by simpa using hbytes, fun _ => hrows, by simp⟩
    · rintro ⟨cells, rfl, -, -, rfl⟩
      simp
  | cons values rows ih =>
    rw [finish_cons hs]
    split_ifs with hany hfull
    · -- the row after the kept ones ends the read
      obtain ⟨k, rfl, hk⟩ : ∃ k, keep = some k ∧ k ≤ s.rows.length := by
        simpa [Option.any_eq_true] using hany
      obtain ⟨hle, -⟩ := hkeep k rfl
      have hzero : k - s.rows.length = 0 := by omega
      have hpast : k < s.rows.length + (values :: rows).length := by
        rw [List.length_cons]
        omega
      simp only [Option.map_some, hzero, needed, List.take_zero, List.mapM_nil, pure, Except.pure,
        Except.ok.injEq, Option.any_some, hpast, decide_true]
      constructor
      · rintro rfl
        exact ⟨[], rfl, by simpa using hbytes, by simp, by simp⟩
      · rintro ⟨cells, rfl, -, -, rfl⟩
        simp
    · -- only a read without a number of rows to keep comes to the limit
      refine iff_of_false (by simp) ?_
      rintro ⟨cells, -, -, hlimit, -⟩
      cases hk : keep with
      | none =>
        have := hlimit hk
        rw [List.length_cons] at this
        omega
      | some k =>
        have hlt : s.rows.length < k := by simpa [hk] using hany
        have := (hkeep k hk).2
        omega
    · rw [needed_cons (Bool.eq_false_iff.mpr hany), List.mapM_cons]
      cases hconvert : convertCells convert columns 0 values with
      | error e =>
        refine iff_of_false (by simp [bind, Except.bind]) ?_
        rintro ⟨cells, hcells, -⟩
        cases hcells
      | ok converted =>
        simp only [bind, Except.bind]
        by_cases hsize : maxBytes < s.bytes + converted.2
        · rw [if_pos hsize]
          refine iff_of_false (by simp) ?_
          rintro ⟨all, hall, hle, -⟩
          obtain ⟨rest, -, hall⟩ := ok_bind.mp hall
          cases hall
          rw [List.map_cons, List.sum_cons] at hle
          omega
        · have hnext : Collecting.Open
              { s with rows := s.rows ++ [converted.1], bytes := s.bytes + converted.2 } :=
            ⟨hs.past, hs.overflow, hs.failure⟩
          have hlength : (s.rows ++ [converted.1]).length = s.rows.length + 1 := List.length_append
          have hkeep' : ∀ k, keep = some k → (s.rows ++ [converted.1]).length ≤ k ∧ k ≤ maxRows := by
            intro k hk
            have hlt : s.rows.length < k := by simpa [hk] using hany
            rw [hlength]
            exact ⟨hlt, (hkeep k hk).2⟩
          rw [if_neg hsize, ih hnext hkeep' (by dsimp only; omega) (by dsimp only; omega)]
          have hcount : s.rows.length + 1 + rows.length =
              s.rows.length + (values :: rows).length := by
            rw [List.length_cons]
            omega
          have hbudget (n : Nat) : s.bytes + converted.2 + n = s.bytes + (converted.2 + n) :=
            Nat.add_assoc _ _ _
          simp only [hlength, hcount, List.append_assoc, List.singleton_append, hbudget]
          constructor
          · rintro ⟨cells, hcells, hle, hlimit, rfl⟩
            exact ⟨converted :: cells, by rw [hcells]; rfl, hle, hlimit, rfl⟩
          · rintro ⟨all, hall, hle, hlimit, rfl⟩
            obtain ⟨rest, hrest, hall⟩ := ok_bind.mp hall
            cases hall
            exact ⟨rest, hrest, hle, hlimit, rfl⟩

end Deliver

section Second
variable {α C T E : Type} {maxRows maxBytes : Nat}
  {convert : Delivered α → C → Nat → Except E (T × Nat)} {keep : Option Nat} {columns : List C}

/-- A value whose text has no replacement character is its cell. -/
theorem decoded_eq {encoding : Encoding} {x : Stored α}
    (h : lossyValue (x.decoded encoding) = false) : x.decoded encoding = x.cell encoding := by
  cases x with
  | text b =>
    have hvalid : Utf8.Valid (encoding.given b) := Utf8.valid_of_not_mem (of_decide_eq_false h)
    rw [Stored.decoded, Stored.cell, if_pos hvalid]
  | blob b => rfl
  | null x => rfl
  | integer x => rfl
  | real x => rfl

theorem storedCells_selected (row : List (Stored α)) :
    sqliteStoredCells (row.flatMap Stored.selected) = row.map (Stored.cell .utf8) := by
  induction row with
  | nil => rfl
  | cons x row ih =>
    rw [List.flatMap_cons, List.map_cons, ← ih]
    cases x with
    | text b =>
      simp only [Stored.cell, Encoding.given, ← Utf8.encode_decode_iff]
      rfl
    | blob b => rfl
    | null x => rfl
    | integer x => rfl
    | real x => rfl

theorem scanRows_map {σ ρ τ : Type} (row : σ → τ → σ × Bool) (f : ρ → τ) (s : σ) (rows : List ρ) :
    scanRows (fun s r => row s (f r)) s rows = scanRows row s (rows.map f) := by
  induction rows generalizing s with
  | nil => rfl
  | cons r rows ih =>
    rw [List.map_cons, scanRows, scanRows]
    split
    · exact ih _
    · rfl

/-- Delivering does not see whether the first read was lossy. -/
theorem deliver_mark (s : Collecting T E) (b : Bool) (values : List (Delivered α)) :
    deliver maxRows maxBytes convert keep columns { s with lossy := b } values =
      ({ (deliver maxRows maxBytes convert keep columns s values).1 with lossy := b },
        (deliver maxRows maxBytes convert keep columns s values).2) := by
  unfold deliver
  dsimp only
  split_ifs
  · rfl
  · rfl
  · split
    · rfl
    · split_ifs <;> rfl

theorem deliver_lossy {s s' : Collecting T E} {values : List (Delivered α)} {more : Bool}
    (h : deliver maxRows maxBytes convert keep columns s values = (s', more)) :
    s'.lossy = s.lossy := by
  have hmark : deliver maxRows maxBytes convert keep columns s values = _ :=
    deliver_mark s s.lossy values
  rw [h] at hmark
  exact congrArg (fun p => p.1.lossy) hmark

theorem scan_mark (rows : List (List (Delivered α))) (s : Collecting T E) (b : Bool) :
    scanRows (deliver maxRows maxBytes convert keep columns) { s with lossy := b } rows =
      { scanRows (deliver maxRows maxBytes convert keep columns) s rows with lossy := b } := by
  induction rows generalizing s with
  | nil => rfl
  | cons values rows ih =>
    rw [scanRows, scanRows, deliver_mark]
    cases deliver maxRows maxBytes convert keep columns s values with
    | mk s' more =>
      cases more with
      | true => exact ih s'
      | false => rfl

/-- A row after which a read goes on leaves it open. -/
theorem deliver_open {s s' : Collecting T E} {values : List (Delivered α)} (hs : s.Open)
    (h : deliver maxRows maxBytes convert keep columns s values = (s', true)) : s'.Open := by
  unfold deliver at h
  split_ifs at h
  · cases h
  · cases h
  · split at h
    · cases h
    · split_ifs at h
      · cases h
      · cases h
        exact ⟨hs.past, hs.overflow, hs.failure⟩

/-- A row of the first read with a text that may have lost its bytes, which the read comes to: the
rows before it are kept, convert and fit. -/
def Reaches (maxRows maxBytes : Nat) (convert : Delivered α → C → Nat → Except E (T × Nat))
    (keep : Option Nat) (columns : List C) (answer : Answer α) (n bytes i : Nat) : Prop :=
  (∃ row, answer.first[i]? = some row ∧ row.any lossyValue = true) ∧
    (∀ k, keep = some k → n + i ≤ k) ∧ n + i ≤ maxRows ∧
    ∃ cells, (answer.cells.take i).mapM (convertCells convert columns 0) = .ok cells ∧
      bytes + (cells.map Prod.snd).sum ≤ maxBytes

/-- A row after which a read goes on has converted and fits. -/
theorem deliver_true {s s' : Collecting T E} {values : List (Delivered α)}
    (h : deliver maxRows maxBytes convert keep columns s values = (s', true)) :
    ∃ converted, convertCells convert columns 0 values = .ok converted ∧
      s'.bytes = s.bytes + converted.2 ∧ s'.rows.length = s.rows.length + 1 ∧
      (∀ k, keep = some k → s'.rows.length ≤ k) ∧ s'.rows.length ≤ maxRows ∧
      s'.bytes ≤ maxBytes := by
  unfold deliver at h
  split_ifs at h with hany hfull
  · cases h
  · cases h
  · split at h
    · cases h
    · rename_i cells size hconvert
      split_ifs at h with hsize
      · cases h
      · cases h
        have hlength : (s.rows ++ [cells]).length = s.rows.length + 1 := List.length_append
        refine ⟨(cells, size), hconvert, rfl, hlength, ?_, ?_, Nat.not_lt.mp hsize⟩
        · rintro k rfl
          have hlt : s.rows.length < k := by simpa using hany
          exact hlength ▸ hlt
        · rw [hlength]
          omega

/-- The first read of SQLite stops at a text that may have lost its bytes, with nothing decided, or
it is the read of the cells. -/
theorem scan_first {encoding : Encoding} (rows : List (List (Stored α))) {s : Collecting T E}
    (hs : s.Open) (hlossy : s.lossy = false) (hkeep : ∀ k, keep = some k → s.rows.length ≤ k)
    (hrows : s.rows.length ≤ maxRows) (hbytes : s.bytes ≤ maxBytes) {t : Collecting T E}
    (ht : scanRows (firstRow maxRows maxBytes convert keep columns .sqlite) s
      (rows.map fun row => row.map (Stored.decoded encoding)) = t) :
    (t.lossy = true ∧ t.overflow = none ∧ t.failure = none ∧
        ∃ i, Reaches maxRows maxBytes convert keep columns (.sqlite encoding rows)
          s.rows.length s.bytes i) ∨
      (t.lossy = false ∧ t = scanRows (deliver maxRows maxBytes convert keep columns) s
        (rows.map fun row => row.map (Stored.cell encoding))) := by
  induction rows generalizing s with
  | nil =>
    cases ht
    exact .inr ⟨hlossy, rfl⟩
  | cons row rows ih =>
    rw [List.map_cons, scanRows, firstRow] at ht
    by_cases hrow : (row.map (Stored.decoded encoding)).any lossyValue = true
    · rw [if_pos ⟨rfl, hrow⟩] at ht
      cases ht
      refine .inl ⟨rfl, hs.overflow, hs.failure, 0, ⟨_, rfl, hrow⟩, hkeep, hrows, [], rfl, ?_⟩
      simpa using hbytes
    · have hcells : row.map (Stored.decoded encoding) = row.map (Stored.cell encoding) := by
        refine List.map_congr_left fun x hx => decoded_eq ?_
        by_contra hx'
        exact hrow (List.any_eq_true.mpr ⟨_, List.mem_map_of_mem hx, by simpa using hx'⟩)
      rw [if_neg (fun h => hrow h.2), hcells] at ht
      rw [List.map_cons, scanRows]
      cases hdeliver : deliver maxRows maxBytes convert keep columns s
          (row.map (Stored.cell encoding)) with
      | mk s' more =>
        rw [hdeliver] at ht
        have hlossy' := (deliver_lossy hdeliver).trans hlossy
        cases more with
        | true =>
          obtain ⟨converted, hconvert, hbytes', hs', hkept, hroom, hfit⟩ := deliver_true hdeliver
          rcases ih (deliver_open hs hdeliver) hlossy' hkept hroom hfit ht with
            ⟨hlossy, hoverflow, hfailure, i, hreach, hk, hn, cells, hcells', hsum⟩ | hcell
          · refine .inl ⟨hlossy, hoverflow, hfailure, i + 1, hreach, ?_, ?_, converted :: cells,
              ?_, ?_⟩
            · intro k hkeep'
              have := hk k hkeep'
              omega
            · omega
            · change ((row.map (Stored.cell encoding)) ::
                (Answer.sqlite encoding rows).cells.take i).mapM _ = _
              rw [List.mapM_cons, hconvert, hcells']
              rfl
            · rw [List.map_cons, List.sum_cons]
              omega
          · exact .inr hcell
        | false =>
          cases ht
          exact .inr ⟨hlossy', rfl⟩

theorem scan_other {dialect : Dialect} (hdialect : dialect ≠ .sqlite)
    (rows : List (List (Delivered α))) (s : Collecting T E) :
    scanRows (firstRow maxRows maxBytes convert keep columns dialect) s rows =
      scanRows (deliver maxRows maxBytes convert keep columns) s rows := by
  have hrow : firstRow maxRows maxBytes convert keep columns dialect =
      deliver maxRows maxBytes convert keep columns (E := E) := by
    funext s values
    exact if_neg fun h => hdialect h.1
  rw [hrow]

/-- Whatever is read first, the answer is that of one read of the cells. -/
theorem collect_eq (answer : Answer α)
    (hread : answer.Utf8 ∨ ∀ i, ¬ Reaches maxRows maxBytes convert keep columns answer 0 0 i) :
    collect maxRows maxBytes convert keep columns answer.dialect answer.first answer.second =
      (scanRows (deliver maxRows maxBytes convert keep columns) ⟨[], false, 0, none, none, false⟩
        answer.cells).finish columns := by
  have hopen : Collecting.Open (⟨[], false, 0, none, none, false⟩ : Collecting T E) := ⟨rfl, rfl, rfl⟩
  have hother {dialect : Dialect} (hdialect : dialect ≠ .sqlite) (rows second) :
      collect maxRows maxBytes convert keep columns dialect rows second =
        (scanRows (deliver maxRows maxBytes convert keep columns) ⟨[], false, 0, none, none, false⟩
          rows).finish columns := by
    have hlossy : (scanRows (deliver maxRows maxBytes convert keep columns)
        (⟨[], false, 0, none, none, false⟩ : Collecting T E) rows).lossy = false :=
      congrArg Collecting.lossy (scan_mark rows ⟨[], false, 0, none, none, false⟩ false)
    rw [collect, scan_other hdialect, hlossy, if_neg (by simp)]
    rfl
  cases answer with
  | mysql rows => exact hother (by simp [Answer.dialect]) _ _
  | postgres rows => exact hother (by simp [Answer.dialect]) _ _
  | sqlite encoding rows =>
    rw [collect]
    generalize ht : scanRows (firstRow maxRows maxBytes convert keep columns
      (Answer.sqlite encoding rows).dialect) ⟨[], false, 0, none, none, false⟩
      (Answer.sqlite encoding rows).first = t
    rcases scan_first rows hopen rfl (fun k _ => Nat.zero_le k) (Nat.zero_le _) (Nat.zero_le _) ht
      with ⟨hlossy, hoverflow, hfailure, i, hreach⟩ | ⟨hlossy, heq⟩
    · -- nothing of the first read is left but its mark
      obtain rfl : encoding = .utf8 := by
        rcases hread with hutf8 | hnone
        · exact hutf8
        · exact absurd hreach (hnone i)
      have hcells : (Answer.sqlite .utf8 rows).second.map sqliteStoredCells =
          (Answer.sqlite .utf8 rows).cells := by
        rw [Answer.second, List.map_map]
        exact List.map_congr_left fun row _ => storedCells_selected row
      have hagain : scanRows (deliver maxRows maxBytes convert keep columns)
          (⟨[], false, 0, none, none, true⟩ : Collecting T E) (Answer.sqlite .utf8 rows).cells = _ :=
        scan_mark _ ⟨[], false, 0, none, none, false⟩ true
      simp only [hlossy, hoverflow, hfailure, if_true]
      rw [scanRows_map (deliver maxRows maxBytes convert keep columns) sqliteStoredCells, hcells,
        hagain]
      rfl
    · simp only [hlossy, Bool.false_eq_true, if_false]
      rw [heq]
      rfl

/-- Cells as bytes, for values that have bytes. -/
def bytesCell (value : Delivered Unit) (_ : Unit) (_ : Nat) : Except Unit (Bytes × Nat) :=
  match value with
  | .text s => .ok (Utf8.encode s, (Utf8.encode s).length)
  | .bytes b => .ok (b, b.length)
  | .other () => .error ()

/-- Cells as they are. -/
def sameCell (value : Delivered Unit) (_ : Unit) (_ : Nat) : Except Unit (Delivered Unit × Nat) :=
  .ok (value, 1)

end Second

end Orm.Client
