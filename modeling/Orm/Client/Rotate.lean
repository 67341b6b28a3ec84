import Orm.Client.Codec

/-! Rotation of the AES key version of a table: the keyring, one row, and the loop over the rows
that are not at the current version. -/
namespace Orm.Client

open Orm.Logic
open Orm.Engine (Failure Stage Entity Field)

structure AesColumn where
  name : String
  styles : List Stage
  deriving DecidableEq, Repr

/-- The AES columns of an entity; rotation keeps the encryption and hex stages of a column. -/
def aesColumns (ent : Entity) : List AesColumn :=
  (ent.fields.filter fun col => decide (.aes ∈ col.stages)).map fun col =>
    ⟨col.name, col.stages.filter fun s => s = .aes ∨ s = .hex⟩

def AesUtils.spec (ent : Entity) : Except Failure (List AesColumn) :=
  if ent.aesVersion = "" ∨ aesColumns ent = [] then
    .error (.orm .config ("entity " ++ ent.name ++ " has no AES columns with a key version"))
  else .ok (aesColumns ent)

/-- The keys of stored AES values, by version. -/
structure AesKeyring where
  keys : List (Int × String)
  currentVersion : Int
  positive : 1 ≤ currentVersion
  declared : (keys.lookup currentVersion).isSome = true
  valid : ∀ entry ∈ keys, 1 ≤ entry.1 ∧ entry.1 ≤ 9007199254740991 ∧ entry.2 ≠ ""

def AesKeyring.key (ring : AesKeyring) (version : Int) : Except Failure String :=
  match ring.keys.lookup version with
  | some key => .ok key
  | none => .error (.orm .config ("AES version " ++ toString version ++ " is not declared"))

def storedVersion (version : Int) : Except Failure Int :=
  if version < 1 ∨ 2147483647 < version then
    .error (.orm .codecDecode
      ("aes version " ++ toString version ++ " is not a positive 32-bit integer"))
  else .ok version

/-- A stored row: the version column, the columns with codec stages, and the other columns. -/
structure StoredRow (D : Type) where
  data : D
  version : Int
  cells : String → Cell

/-- A table during rotation, and the number of rotated rows. -/
structure Rotation (D : Type) where
  rows : List (StoredRow D)
  rotated : Nat

section Rotate
variable {D K : Type} [LinearOrder K]
variable (cipher : Cipher) (ips : Addresses) (ring : AesKeyring) (keyOf : StoredRow D → K)
variable (nonce : StoredRow D → AesColumn → Nat → Fin 12 → UInt8) (columns : List AesColumn)

def readText : Option (List Char) → Cell
  | none => .null
  | some s => .text s

/-- The host stages of an ordinary read of one cell, with the key of the stored version. -/
def readCell (row : StoredRow D) (field : Field) : Except Failure (Option (List Char)) :=
  if row.cells field.name = .null then .ok none
  else do
    let version ← storedVersion row.version
    let key ← ring.key version
    hostDecode cipher ips key (row.cells field.name) (field.stages.filter Stage.host)

/-- Re-encrypts one cell that is not NULL. -/
def rotateCell (row : StoredRow D) (column : AesColumn) : Except Failure Cell := do
  let version ← storedVersion row.version
  let oldKey ← ring.key version
  let newKey ← ring.key ring.currentVersion
  let value ← hostDecode cipher ips oldKey (row.cells column.name) column.styles
  hostEncode cipher ips newKey (nonce row column) (readText value) column.styles

/-- One column of `rotateRow`: a NULL value is left, and no version is read for it. -/
def rotateColumn (row out : StoredRow D) (column : AesColumn) : Except Failure (StoredRow D) :=
  if row.cells column.name = .null then .ok out
  else do
    let cell ← rotateCell cipher ips ring nonce row column
    pure { out with cells := Function.update out.cells column.name cell,
                    version := ring.currentVersion }

def rotateRow (row : StoredRow D) : Except Failure (StoredRow D) :=
  columns.foldlM (rotateColumn cipher ips ring nonce row) row

/-- The rows that are not at the current version, in key order and at most 1000 of them. -/
def selectPending (rows : List (StoredRow D)) : List (StoredRow D) :=
  ((rows.filter fun row => row.version ≠ ring.currentVersion).insertionSort
    fun a b => keyOf a ≤ keyOf b).take 1000

/-- The `WHERE` of the update: the keys and the stored version of the read row. -/
def names (before row : StoredRow D) : Bool :=
  keyOf row = keyOf before ∧ row.version = before.version

/-- The `SET` of the update: the AES columns and the version. -/
def written (after row : StoredRow D) : StoredRow D :=
  { row with
    version := ring.currentVersion
    cells := fun name => if name ∈ columns.map AesColumn.name then after.cells name
      else row.cells name }

def updateRow (table : String) (s : Rotation D) (before : StoredRow D) :
    Except Failure (Rotation D) := do
  let after ← rotateRow cipher ips ring nonce columns before
  if s.rows.countP (names keyOf before) = 1 then
    .ok ⟨s.rows.map fun row =>
        if names keyOf before row then written ring columns after row else row, s.rotated + 1⟩
  else .error (.orm .deadlock ("aes rotation of " ++ table ++ " changed " ++
    toString (s.rows.countP (names keyOf before)) ++ " rows"))

/-- The loop of `rotate`, with a bound on its turns. -/
def rotateFrom (table : String) : Nat → Rotation D → Option (Except Failure (Rotation D))
  | 0, _ => none
  | turns + 1, s =>
    if selectPending ring keyOf s.rows = [] then some (.ok s)
    else
      match (selectPending ring keyOf s.rows).foldlM
          (updateRow cipher ips ring keyOf nonce columns table) s with
      | .error e => some (.error e)
      | .ok s => rotateFrom table turns s

def pendingCount (rows : List (StoredRow D)) : Nat :=
  rows.countP fun row => row.version ≠ ring.currentVersion

/-- `rotate`: every turn of its loop rotates a row or ends it. -/
def AesUtils.rotate (ent : Entity) (rows : List (StoredRow D)) :
    Option (Except Failure (Rotation D)) :=
  match AesUtils.spec ent with
  | .error e => some (.error e)
  | .ok columns =>
    rotateFrom cipher ips ring keyOf nonce columns ent.table (pendingCount ring rows + 1) ⟨rows, 0⟩

end Rotate

section Row
variable {D K : Type} [LinearOrder K]
variable {cipher : Cipher} {ips : Addresses} {ring : AesKeyring}
variable {nonce : StoredRow D → AesColumn → Nat → Fin 12 → UInt8} {columns : List AesColumn}

theorem aesColumns_styles {ent : Entity} {column : AesColumn} (h : column ∈ aesColumns ent) :
    .ip ∉ column.styles := by
  intro hip
  simp only [aesColumns, List.mem_map] at h
  obtain ⟨col, -, rfl⟩ := h
  simp at hip

theorem aesColumns_nodup {ent : Entity} (h : (ent.fields.map Field.name).Nodup) :
    ((aesColumns ent).map AesColumn.name).Nodup := by
  have hsub : ((aesColumns ent).map AesColumn.name).Sublist (ent.fields.map Field.name) := by
    rw [aesColumns, List.map_map]
    exact List.Sublist.map Field.name List.filter_sublist
  exact hsub.nodup h

/-- The cell that rotation stores for a column of a row. -/
def RotatedCell (cipher : Cipher) (ips : Addresses) (ring : AesKeyring)
    (nonce : StoredRow D → AesColumn → Nat → Fin 12 → UInt8) (row : StoredRow D)
    (column : AesColumn) (cell : Cell) : Prop :=
  (row.cells column.name = .null ∧ cell = .null) ∨
    (row.cells column.name ≠ .null ∧ rotateCell cipher ips ring nonce row column = .ok cell)

theorem rotateColumns_spec {row out after : StoredRow D}
    (hnodup : (columns.map AesColumn.name).Nodup)
    (hout : ∀ column ∈ columns, out.cells column.name = row.cells column.name)
    (h : columns.foldlM (rotateColumn cipher ips ring nonce row) out = .ok after) :
    (∀ column ∈ columns, RotatedCell cipher ips ring nonce row column (after.cells column.name)) ∧
      ∀ name, name ∉ columns.map AesColumn.name → after.cells name = out.cells name := by
  induction columns generalizing out with
  | nil =>
    cases h
    exact ⟨by simp, fun _ _ => rfl⟩
  | cons column columns ih =>
    rw [List.map_cons, List.nodup_cons] at hnodup
    rw [List.foldlM_cons] at h
    obtain ⟨mid, hmid, h⟩ := ok_bind.mp h
    -- The first column changes its own cell only, and the other columns do not touch it again.
    have hstep : RotatedCell cipher ips ring nonce row column (mid.cells column.name) ∧
        ∀ name, name ≠ column.name → mid.cells name = out.cells name := by
      unfold rotateColumn at hmid
      split at hmid
      · rename_i hnull
        cases hmid
        exact ⟨.inl ⟨hnull, by rw [hout column List.mem_cons_self, hnull]⟩, fun _ _ => rfl⟩
      · rename_i hcell
        obtain ⟨cell, hrot, hmid⟩ := ok_bind.mp hmid
        cases hmid
        refine ⟨.inr ⟨hcell, ?_⟩, fun name hname => ?_⟩
        · simpa using hrot
        · simp [Function.update_of_ne hname]
    have hother : ∀ c ∈ columns, c.name ≠ column.name := by
      intro c hc he
      exact hnodup.1 (he ▸ List.mem_map_of_mem hc)
    obtain ⟨hcells, hrest⟩ := ih hnodup.2 (fun c hc => by
      rw [hstep.2 _ (hother c hc), hout c (List.mem_cons_of_mem _ hc)]) h
    refine ⟨fun c hc => ?_, fun name hname => ?_⟩
    · rcases List.mem_cons.mp hc with rfl | hc
      · rw [hrest _ hnodup.1]
        exact hstep.1
      · exact hcells c hc
    · rw [List.map_cons, List.mem_cons, not_or] at hname
      rw [hrest name hname.2, hstep.2 name hname.1]

/-- What rotation makes of a row that is not at the current version. -/
def Rotated (cipher : Cipher) (ips : Addresses) (ring : AesKeyring)
    (nonce : StoredRow D → AesColumn → Nat → Fin 12 → UInt8) (columns : List AesColumn)
    (row row' : StoredRow D) : Prop :=
  row.version ≠ ring.currentVersion ∧ row'.version = ring.currentVersion ∧ row'.data = row.data ∧
    (∀ name, name ∉ columns.map AesColumn.name → row'.cells name = row.cells name) ∧
    ∀ column ∈ columns, RotatedCell cipher ips ring nonce row column (row'.cells column.name)

theorem rotateRow_spec {row after : StoredRow D} (hnodup : (columns.map AesColumn.name).Nodup)
    (hrow : row.version ≠ ring.currentVersion)
    (h : rotateRow cipher ips ring nonce columns row = .ok after) :
    Rotated cipher ips ring nonce columns row (written ring columns after row) := by
  obtain ⟨hcells, -⟩ := rotateColumns_spec hnodup (fun _ _ => rfl) h
  refine ⟨hrow, rfl, rfl, fun name hname => if_neg hname, fun column hc => ?_⟩
  rw [show (written ring columns after row).cells column.name = after.cells column.name from
    if_pos (List.mem_map_of_mem hc)]
  exact hcells column hc

end Row

section Loop
variable {D K : Type} [LinearOrder K]
variable {cipher : Cipher} {ips : Addresses} {ring : AesKeyring} {keyOf : StoredRow D → K}
variable {nonce : StoredRow D → AesColumn → Nat → Fin 12 → UInt8} {columns : List AesColumn}
variable {table : String}

/-- A table between two statements of rotation: each row is untouched or rotated, and the counter
is the number of rows that are no longer pending. -/
structure Progress (cipher : Cipher) (ips : Addresses) (ring : AesKeyring)
    (nonce : StoredRow D → AesColumn → Nat → Fin 12 → UInt8) (columns : List AesColumn)
    (rows : List (StoredRow D)) (s : Rotation D) : Prop where
  each : List.Forall₂ (fun row row' => row' = row ∨ Rotated cipher ips ring nonce columns row row')
    rows s.rows
  count : pendingCount ring s.rows + s.rotated = pendingCount ring rows

theorem mem_selectPending {rows : List (StoredRow D)} {row : StoredRow D}
    (h : row ∈ selectPending ring keyOf rows) :
    row ∈ rows ∧ row.version ≠ ring.currentVersion := by
  have hsort := List.mem_of_mem_take h
  rw [List.mem_insertionSort, List.mem_filter] at hsort
  simpa using hsort

theorem selectPending_eq_nil {rows : List (StoredRow D)}
    (h : selectPending ring keyOf rows = []) :
    ∀ row ∈ rows, row.version = ring.currentVersion := by
  intro row hrow
  by_contra hne
  have hmem : row ∈ (rows.filter fun row => row.version ≠ ring.currentVersion).insertionSort
      fun a b => keyOf a ≤ keyOf b := by
    rw [List.mem_insertionSort, List.mem_filter]
    exact ⟨hrow, by simpa using hne⟩
  rw [selectPending, List.take_eq_nil_iff] at h
  rcases h with h | h
  · omega
  · rw [h] at hmem
    exact List.not_mem_nil hmem

/-- A pending row of the table is a row that rotation has not touched. -/
theorem Progress.untouched {rows : List (StoredRow D)} {s : Rotation D} {row : StoredRow D}
    (h : Progress cipher ips ring nonce columns rows s) (hrow : row ∈ s.rows)
    (hpending : row.version ≠ ring.currentVersion) : row ∈ rows := by
  have heach := h.each
  clear h
  generalize s.rows = rows' at heach hrow
  induction heach with
  | nil => exact absurd hrow List.not_mem_nil
  | @cons a b _ _ hab _ ih =>
    rcases List.mem_cons.mp hrow with rfl | hrow
    · rcases hab with rfl | hab
      · exact List.mem_cons_self
      · exact absurd hab.2.1 hpending
    · exact List.mem_cons_of_mem _ (ih hrow)

variable (ring keyOf columns) in
/-- An update that names pending rows takes as many rows from the pending ones. -/
theorem pendingCount_update (rows : List (StoredRow D)) {before : StoredRow D}
    (after : StoredRow D) (hbefore : before.version ≠ ring.currentVersion) :
    pendingCount ring (rows.map fun row =>
        if names keyOf before row then written ring columns after row else row) +
      rows.countP (names keyOf before) = pendingCount ring rows := by
  unfold pendingCount
  induction rows with
  | nil => rfl
  | cons row rows ih =>
    by_cases hnames : names keyOf before row = true
    · have hpending : row.version ≠ ring.currentVersion := by
        have hversion : row.version = before.version := (of_decide_eq_true hnames).2
        rwa [hversion]
      simp only [List.map_cons, hnames, List.countP_cons, hpending, ne_eq, not_false_eq_true,
        decide_true, if_true, written, not_true_eq_false, decide_false, Bool.false_eq_true,
        if_false] at ih ⊢
      omega
    · simp only [List.map_cons, hnames, List.countP_cons, if_false, Bool.false_eq_true] at ih ⊢
      omega

theorem updateRow_count {s s' : Rotation D} {before : StoredRow D}
    (hpending : before.version ≠ ring.currentVersion)
    (h : updateRow cipher ips ring keyOf nonce columns table s before = .ok s') :
    pendingCount ring s'.rows + 1 = pendingCount ring s.rows ∧ s'.rotated = s.rotated + 1 := by
  obtain ⟨after, -, h⟩ := ok_bind.mp h
  split at h
  · rename_i hone
    cases h
    have hcount := pendingCount_update ring keyOf columns s.rows after hpending
    rw [hone] at hcount
    exact ⟨hcount, rfl⟩
  · cases h

theorem updateRow_progress {rows : List (StoredRow D)} {s s' : Rotation D} {before : StoredRow D}
    (hnodup : (columns.map AesColumn.name).Nodup)
    (hrows : (rows.map fun row => (keyOf row, row.version)).Nodup)
    (hbefore : before ∈ rows) (hpending : before.version ≠ ring.currentVersion)
    (hs : Progress cipher ips ring nonce columns rows s)
    (h : updateRow cipher ips ring keyOf nonce columns table s before = .ok s') :
    Progress cipher ips ring nonce columns rows s' := by
  obtain ⟨hcount, hrotated⟩ := updateRow_count hpending h
  refine ⟨?_, by have := hs.count; omega⟩
  obtain ⟨after, hafter, h⟩ := ok_bind.mp h
  split at h
  · cases h
    obtain ⟨hlength, hpairs⟩ := List.forall₂_iff_zip.mp hs.each
    rw [List.forall₂_map_right_iff, List.forall₂_iff_zip]
    refine ⟨hlength, @fun row row' hzip => ?_⟩
    by_cases hnames : names keyOf before row' = true
    · -- A named row is the read one: an equal key and version is the row itself, and a rotated
      -- row is at another version.
      rw [if_pos hnames]
      obtain ⟨hkey, hversion⟩ := of_decide_eq_true hnames
      rcases hpairs hzip with rfl | hrotated
      · have hsame : row' = before :=
          List.inj_on_of_nodup_map hrows (List.of_mem_zip hzip).1 hbefore
            (Prod.ext hkey hversion)
        subst hsame
        exact .inr (rotateRow_spec hnodup hpending hafter)
      · exact absurd (hversion.symm.trans hrotated.2.1) hpending
    · rw [if_neg hnames]
      exact hpairs hzip
  · cases h

theorem updateRows_progress {rows batch : List (StoredRow D)} {s s' : Rotation D}
    (hnodup : (columns.map AesColumn.name).Nodup)
    (hrows : (rows.map fun row => (keyOf row, row.version)).Nodup)
    (hbatch : ∀ row ∈ batch, row ∈ rows ∧ row.version ≠ ring.currentVersion)
    (hs : Progress cipher ips ring nonce columns rows s)
    (h : batch.foldlM (updateRow cipher ips ring keyOf nonce columns table) s = .ok s') :
    Progress cipher ips ring nonce columns rows s' := by
  induction batch generalizing s with
  | nil =>
    cases h
    exact hs
  | cons before batch ih =>
    rw [List.foldlM_cons] at h
    obtain ⟨mid, hmid, h⟩ := ok_bind.mp h
    obtain ⟨hbefore, hpending⟩ := hbatch before List.mem_cons_self
    have hprogress := updateRow_progress hnodup hrows hbefore hpending hs hmid
    exact ih (fun row hrow => hbatch row (List.mem_cons_of_mem _ hrow)) hprogress h

theorem rotateFrom_progress {rows : List (StoredRow D)} {turns : Nat} {s s' : Rotation D}
    (hnodup : (columns.map AesColumn.name).Nodup)
    (hrows : (rows.map fun row => (keyOf row, row.version)).Nodup)
    (hs : Progress cipher ips ring nonce columns rows s)
    (h : rotateFrom cipher ips ring keyOf nonce columns table turns s = some (.ok s')) :
    Progress cipher ips ring nonce columns rows s' ∧
      ∀ row ∈ s'.rows, row.version = ring.currentVersion := by
  induction turns generalizing s with
  | zero => cases h
  | succ turns ih =>
    rw [rotateFrom] at h
    split at h
    · rename_i hnone
      cases h
      exact ⟨hs, selectPending_eq_nil hnone⟩
    · split at h
      · cases h
      · rename_i mid hmid
        refine ih (updateRows_progress hnodup hrows (fun row hrow => ?_) hs hmid) h
        obtain ⟨hmem, hpending⟩ := mem_selectPending hrow
        exact ⟨hs.untouched hmem hpending, hpending⟩

end Loop

section Result
variable {D K : Type} [LinearOrder K]
variable {cipher : Cipher} {ips : Addresses} {ring : AesKeyring} {keyOf : StoredRow D → K}
variable {nonce : StoredRow D → AesColumn → Nat → Fin 12 → UInt8}

theorem rotate_spec {ent : Entity} {rows : List (StoredRow D)} {s : Rotation D}
    (hfields : (ent.fields.map Field.name).Nodup)
    (hrows : (rows.map fun row => (keyOf row, row.version)).Nodup)
    (h : AesUtils.rotate cipher ips ring keyOf nonce ent rows = some (.ok s)) :
    List.Forall₂ (fun row row' => (row' = row ∧ row.version = ring.currentVersion) ∨
        Rotated cipher ips ring nonce (aesColumns ent) row row') rows s.rows ∧
      s.rotated = pendingCount ring rows := by
  unfold AesUtils.rotate AesUtils.spec at h
  split at h
  · cases h
  · rename_i columns hcolumns
    split at hcolumns
    · cases hcolumns
    · cases hcolumns
      have hstart : Progress cipher ips ring nonce (aesColumns ent) rows ⟨rows, 0⟩ :=
        ⟨List.forall₂_same.mpr fun _ _ => .inl rfl, rfl⟩
      obtain ⟨hend, hcurrent⟩ :=
        rotateFrom_progress (aesColumns_nodup hfields) hrows hstart h
      obtain ⟨hlength, hpairs⟩ := List.forall₂_iff_zip.mp hend.each
      refine ⟨List.forall₂_iff_zip.mpr ⟨hlength, @fun row row' hzip => ?_⟩, ?_⟩
      · rcases hpairs hzip with rfl | hrotated
        · exact .inl ⟨rfl, hcurrent _ (List.of_mem_zip hzip).2⟩
        · exact .inr hrotated
      · have hzero : pendingCount ring s.rows = 0 := by
          rw [pendingCount, List.countP_eq_zero]
          intro row hrow
          simpa using hcurrent row hrow
        have := hend.count
        omega

/-- A re-encrypted cell holds the text of the old bytes. -/
theorem rotateCell_spec {row : StoredRow D} {column : AesColumn} {cell : Cell}
    (hip : .ip ∉ column.styles) (hcell : row.cells column.name ≠ .null)
    (h : rotateCell cipher ips ring nonce row column = .ok cell) :
    cell ≠ .null ∧ ∃ oldKey newKey plain, ring.key row.version = .ok oldKey ∧
      ring.key ring.currentVersion = .ok newKey ∧
      plaintext cipher oldKey column.styles (row.cells column.name) = .ok plain ∧
      plaintext cipher newKey column.styles cell = .ok (Utf8.encode (Utf8.decode plain)) := by
  obtain ⟨version, hversion, h⟩ := ok_bind.mp h
  obtain ⟨oldKey, hold, h⟩ := ok_bind.mp h
  obtain ⟨newKey, hnew, h⟩ := ok_bind.mp h
  obtain ⟨value, hvalue, h⟩ := ok_bind.mp h
  rw [hostDecode_eq hip hcell, map_eq_pure_bind] at hvalue
  obtain ⟨plain, hplain, hvalue⟩ := ok_bind.mp hvalue
  have hsame : version = row.version := by
    unfold storedVersion at hversion
    split at hversion
    · cases hversion
    · cases hversion
      rfl
  subst hsame
  cases hvalue
  have htext : readText (some (Utf8.decode plain)) ≠ .null := by simp [readText]
  exact ⟨(hostEncode_ok h htext).1, oldKey, newKey, plain, hold, hnew, hplain,
    plaintext_hostEncode hip h htext⟩

/-- The column that rotation makes of a field. -/
def rotatedColumn (field : Field) : AesColumn :=
  ⟨field.name, field.stages.filter fun s => s = .aes ∨ s = .hex⟩

theorem mem_aesColumns {ent : Entity} {field : Field} (h : field ∈ ent.fields)
    (haes : .aes ∈ field.stages) : rotatedColumn field ∈ aesColumns ent :=
  List.mem_map_of_mem (List.mem_filter.mpr ⟨h, by simpa using haes⟩)

/-- A row after rotation: the current version, the same NULL cells, the same plaintext bytes in the
others, and every value that an ordinary read returned before. -/
def Preserves (cipher : Cipher) (ips : Addresses) (ring : AesKeyring) (ent : Entity)
    (row row' : StoredRow D) : Prop :=
  row'.version = ring.currentVersion ∧ ∀ field ∈ ent.fields, .aes ∈ field.stages →
    (row'.cells field.name = .null ↔ row.cells field.name = .null) ∧
    (∀ oldKey newKey plain, ring.key row.version = .ok oldKey →
      ring.key ring.currentVersion = .ok newKey → row.cells field.name ≠ .null →
      plaintext cipher oldKey (rotatedColumn field).styles (row.cells field.name) = .ok plain →
      plaintext cipher newKey (rotatedColumn field).styles (row'.cells field.name) = .ok plain) ∧
    ∀ value, readCell cipher ips ring row field = .ok value →
      readCell cipher ips ring row' field = .ok value

/-- A pending row whose AES cells decrypt to UTF-8, and a current version that a read of such a cell
accepts. -/
def TextCells (cipher : Cipher) (ips : Addresses) (ring : AesKeyring) (ent : Entity)
    (row : StoredRow D) : Prop :=
  row.version ≠ ring.currentVersion → ∀ field ∈ ent.fields, .aes ∈ field.stages →
    row.cells field.name ≠ .null →
    (∀ key plain, ring.key row.version = .ok key →
      plaintext cipher key (rotatedColumn field).styles (row.cells field.name) = .ok plain →
      Utf8.Valid plain) ∧
    ((∃ value, readCell cipher ips ring row field = .ok value) → ring.currentVersion ≤ 2147483647)

theorem storedVersion_ok_iff {version v : Int} :
    storedVersion version = .ok v ↔ v = version ∧ 1 ≤ version ∧ version ≤ 2147483647 := by
  unfold storedVersion
  split
  · rename_i h
    simp only [reduceCtorEq, false_iff]
    omega
  · rename_i h
    simp only [Except.ok.injEq]
    omega

theorem readCell_ok_iff {row : StoredRow D} {field : Field} {value : Option (List Char)}
    (hcell : row.cells field.name ≠ .null) :
    readCell cipher ips ring row field = .ok value ↔ (1 ≤ row.version ∧ row.version ≤ 2147483647) ∧
      ∃ key, ring.key row.version = .ok key ∧ hostDecode cipher ips key (row.cells field.name)
        (field.stages.filter Stage.host) = .ok value := by
  rw [readCell, if_neg hcell, ok_bind]
  simp only [storedVersion_ok_iff, ok_bind]
  constructor
  · rintro ⟨version, ⟨rfl, hversion⟩, key, hkey, hvalue⟩
    exact ⟨hversion, key, hkey, hvalue⟩
  · rintro ⟨hversion, key, hkey, hvalue⟩
    exact ⟨_, ⟨rfl, hversion⟩, key, hkey, hvalue⟩

/-- The host stages of a read are those of rotation, after an address stage or not. -/
theorem hostStages_eq {field : Field} (hip : .ip ∉ (field.stages.filter Stage.host).tail) :
    field.stages.filter Stage.host = (rotatedColumn field).styles ∨
      field.stages.filter Stage.host = .ip :: (rotatedColumn field).styles := by
  have hstyles : (rotatedColumn field).styles =
      (field.stages.filter Stage.host).filter fun s => s ≠ .ip := by
    rw [List.filter_filter]
    refine List.filter_congr fun stage _ => ?_
    cases stage <;> rfl
  rw [hstyles]
  cases hhost : field.stages.filter Stage.host with
  | nil => exact .inl rfl
  | cons stage stages =>
    rw [hhost] at hip
    have hrest : stages.filter (fun s => s ≠ .ip) = stages := by
      rw [List.filter_eq_self]
      intro s hs
      have hne : s ≠ .ip := fun he => hip (he ▸ hs)
      simpa using hne
    by_cases hfirst : stage = .ip
    · right
      rw [List.filter_cons_of_neg (by simpa using hfirst), hrest, hfirst]
    · left
      rw [List.filter_cons_of_pos (by simpa using hfirst), hrest]

variable (cipher ips) in
/-- What a read returns is decided by the plaintext bytes of the cell. -/
theorem hostDecode_plaintext {field : Field}
    (hip : .ip ∉ (field.stages.filter Stage.host).tail) :
    ∃ f : Bytes → Except Failure (Option (List Char)), ∀ key cell, cell ≠ .null →
      hostDecode cipher ips key cell (field.stages.filter Stage.host) =
        plaintext cipher key (rotatedColumn field).styles cell >>= f := by
  have hnot : .ip ∉ (rotatedColumn field).styles := by simp [rotatedColumn]
  rcases hostStages_eq hip with hstages | hstages
  · refine ⟨fun b => .ok (some (Utf8.decode b)), fun key cell hcell => ?_⟩
    rw [hstages, hostDecode_eq hnot hcell]
    cases plaintext cipher key (rotatedColumn field).styles cell <;> rfl
  · refine ⟨fun b => some <$> ips.unpack b, fun key cell hcell => ?_⟩
    rw [hstages, hostDecode_address hnot hcell]

theorem preserves_same {ent : Entity} {row : StoredRow D}
    (h : row.version = ring.currentVersion) : Preserves cipher ips ring ent row row := by
  refine ⟨h, fun field _ _ => ⟨Iff.rfl, ?_, fun _ hvalue => hvalue⟩⟩
  intro oldKey newKey plain hold hnew _ hplain
  rw [h, hnew] at hold
  cases hold
  exact hplain

theorem rotated_preserves_iff {ent : Entity} {row row' : StoredRow D}
    (hip : ∀ field ∈ ent.fields, .ip ∉ (field.stages.filter Stage.host).tail)
    (h : Rotated cipher ips ring nonce (aesColumns ent) row row') :
    Preserves cipher ips ring ent row row' ↔ TextCells cipher ips ring ent row := by
  obtain ⟨hpending, hversion, -, -, hcells⟩ := h
  -- What rotation does to a cell of a field that is not NULL.
  have hspec (field : Field) (hfield : field ∈ ent.fields) (haes : .aes ∈ field.stages)
      (hcell : row.cells field.name ≠ .null) : row'.cells field.name ≠ .null ∧
        ∃ oldKey newKey plain, ring.key row.version = .ok oldKey ∧
          ring.key ring.currentVersion = .ok newKey ∧
          plaintext cipher oldKey (rotatedColumn field).styles (row.cells field.name) =
            .ok plain ∧
          plaintext cipher newKey (rotatedColumn field).styles (row'.cells field.name) =
            .ok (Utf8.encode (Utf8.decode plain)) := by
    have hcolumn := mem_aesColumns hfield haes
    rcases hcells _ hcolumn with ⟨hnull, -⟩ | ⟨-, hrotate⟩
    · exact absurd hnull hcell
    · exact rotateCell_spec (aesColumns_styles hcolumn) hcell hrotate
  constructor
  · intro hpreserves _ field hfield haes hcell
    obtain ⟨hcell', oldKey, newKey, plain', hold, hnew, hplain', hafter⟩ :=
      hspec field hfield haes hcell
    obtain ⟨-, hbytes, hread⟩ := hpreserves.2 field hfield haes
    refine ⟨fun key plain hkey hplain => ?_, ?_⟩
    · have hsame := hbytes key newKey plain hkey hnew hcell hplain
      rw [hkey] at hold
      cases hold
      rw [hplain] at hplain'
      cases hplain'
      rw [hafter] at hsame
      exact (Utf8.encode_decode_iff _).mp (Except.ok.inj hsame)
    · rintro ⟨value, hvalue⟩
      obtain ⟨⟨-, hmax⟩, -⟩ := (readCell_ok_iff hcell').mp (hread value hvalue)
      rwa [hversion] at hmax
  · intro htext
    refine ⟨hversion, fun field hfield haes => ?_⟩
    by_cases hcell : row.cells field.name = .null
    · rcases hcells _ (mem_aesColumns hfield haes) with ⟨-, hnull'⟩ | ⟨hne, -⟩
      · change row'.cells field.name = .null at hnull'
        refine ⟨iff_of_true hnull' hcell, fun _ _ _ _ _ hne => absurd hcell hne, ?_⟩
        intro value hvalue
        rw [readCell, if_pos hcell] at hvalue
        rw [readCell, if_pos hnull', hvalue]
      · exact absurd hcell hne
    · obtain ⟨hcell', oldKey, newKey, plain, hold, hnew, hplain, hafter⟩ :=
        hspec field hfield haes hcell
      obtain ⟨hvalid, hmax⟩ := htext hpending field hfield haes hcell
      rw [(Utf8.encode_decode_iff plain).mpr (hvalid _ _ hold hplain)] at hafter
      refine ⟨iff_of_false hcell' hcell, ?_, fun value hvalue => ?_⟩
      · intro oldKey' newKey' plain' hold' hnew' _ hplain'
        rw [hold] at hold'
        cases hold'
        rw [hnew] at hnew'
        cases hnew'
        rw [hplain] at hplain'
        cases hplain'
        exact hafter
      · -- The read decodes the same bytes under the new key.
        have hcurrent := hmax ⟨value, hvalue⟩
        obtain ⟨f, hf⟩ := hostDecode_plaintext cipher ips (hip field hfield)
        obtain ⟨-, key, hkey, hdecode⟩ := (readCell_ok_iff hcell).mp hvalue
        rw [hold] at hkey
        cases hkey
        rw [hf _ _ hcell] at hdecode
        rw [hplain] at hdecode
        refine (readCell_ok_iff hcell').mpr ⟨?_, newKey, hversion ▸ hnew, ?_⟩
        · rw [hversion]
          exact ⟨ring.positive, hcurrent⟩
        · rw [hf _ _ hcell']
          rw [hafter]
          exact hdecode

end Result

section Small

def twoVersions : AesKeyring where
  keys := [(1, "old"), (2, "new")]
  currentVersion := 2
  positive := by decide
  declared := by decide
  valid := by decide

/-- A table with a column that packs an address and encrypts it. -/
def addressEntity : Entity where
  name := "host"
  table := "host"
  fields := [⟨"address", .bytes, false, false, false, false, 0, 0, 0, [.ip, .aes], true, false,
    false, ""⟩]
  primaryKey := ["id"]
  identity := ""
  uniques := []
  indexes := []
  updated := ""
  softDelete := ""
  aesVersion := "version"
  keyPrefix := ""
  order := ""
  auditColumn := ""
  auditRecord := ""
  external := false

/-- A row with one encrypted cell. -/
def encrypted (version : Int) (plain : Bytes) : StoredRow Nat where
  data := 1
  version := version
  cells := fun _ => .bytes (envelope ++ List.replicate 12 0 ++ (plain ++ List.replicate 16 0))

def rotateOne (plain : Bytes) : Option (Except Failure (Rotation Nat)) :=
  AesUtils.rotate zeroTag noAddresses twoVersions StoredRow.data (fun _ _ _ _ => 0) addressEntity
    [encrypted 1 plain]

end Small

end Orm.Client
