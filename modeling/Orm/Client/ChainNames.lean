import Orm.Logic.Words
import Orm.Logic.Holds
import Orm.Logic.Separated
import Orm.Dbspec.Valid

/-! Method names of condition chains: column names as capitalised words, and the keys that a name is
read as. -/
namespace Orm.Client.Chain

open Orm.Logic

section Model

structure ChainKey where
  conn : String
  op : String
  column : List Char
  columns : List (List Char)
  compare : List Char
  deriving DecidableEq

def ChainKey.withConn (k : ChainKey) (conn : String) : ChainKey := { k with conn := conn }

/-- An entity with the names of its columns. -/
structure Entity where
  name : String
  columns : List (List Char)

/-- A part of a name with its first letter in upper case. -/
def capital : List Char → List Char
  | [] => []
  | c :: rest => c.toUpper :: rest

def pascal (name : List Char) : List Char := (name.splitOn '_').flatMap capital

def upper (c : Char) : Bool := 'A' ≤ c && c ≤ 'Z'

/-- The words of a name, which start at upper case letters. -/
def words (name : List Char) : List (List Char) := cutBefore upper name

/-- `columnIndex(e).get(name)`: a later column of the same form replaces an earlier one. -/
def columnIndex (e : Entity) (name : List Char) : Option (List Char) :=
  e.columns.reverse.find? fun column => pascal column = name

/-- The column of any entity with a form. -/
def anyColumn (model : List Entity) (name : List Char) : Option (List Char) :=
  model.findSome? fun e => columnIndex e name

abbrev withWord : List Char := ['W', 'i', 't', 'h']

abbrev tupleWord : List Char := ['T', 'u', 'p', 'l', 'e']

abbrev fulltextWord : List Char := ['F', 'u', 'l', 'l', 't', 'e', 'x', 't']

abbrev booleanWord : List Char := ['B', 'o', 'o', 'l', 'e', 'a', 'n']

def leadingOps : List (List Char × String) :=
  [(['N', 'e'], "ne"), (['E', 'q'], ""), (['G', 't'], "gt"), (['L', 't'], "lt"),
    (['G', 'e'], "ge"), (['L', 'e'], "le"), (['L', 'k'], "lk"), (['L', 'b'], "lb"),
    (['B', 'e', 't', 'w', 'e', 'e', 'n'], "between")]

def compareOps : List (List Char × String) :=
  [(['E', 'q'], ""), (['N', 'e'], "ne"), (['G', 't'], "gt"), (['L', 't'], "lt"),
    (['G', 'e'], "ge"), (['L', 'e'], "le")]

/-- Columns joined by `With`. -/
def splitWith (e : Entity) (ws : List (List Char)) : Option (List (List Char)) :=
  (splitParts [withWord] [] [] ws).mapM fun part => columnIndex e part.2.flatten

/-- The readings of a key, or what is wrong with it. -/
abbrev Readings := List ChainKey × List String

def columnsError (e : Entity) (what : String) : String :=
  what ++ " columns of " ++ e.name ++ " joined by With"

/-- A reading with columns joined by `With`, of which there are at least `count`. -/
def joined (e : Entity) (op : String) (count : Nat) (what : String) (ws : List (List Char)) : Readings :=
  match splitWith e ws with
  | some columns =>
    if count ≤ columns.length then ([⟨"", op, [], columns, []⟩], []) else ([], [columnsError e what])
  | none => ([], [columnsError e what])

def wholeReading (e : Entity) (ws : List (List Char)) : Readings :=
  match columnIndex e ws.flatten with
  | some column => ([⟨"", "", column, [], []⟩], [])
  | none => ([], [])

def leadingReading (e : Entity) : List (List Char) → Readings
  | first :: second :: rest =>
    match leadingOps.lookup first with
    | none => ([], [])
    | some op =>
      if first = ['N', 'e'] ∧ second = tupleWord then
        joined e "ne_tuple" 2 "a tuple needs two or more" rest
      else
        match columnIndex e (second :: rest).flatten with
        | some column => ([⟨"", op, column, [], []⟩], [])
        | none => ([], [])
  | _ => ([], [])

def tupleReading (e : Entity) : List (List Char) → Readings
  | first :: rest =>
    if first = tupleWord then joined e "tuple" 2 "a tuple needs two or more" rest else ([], [])
  | [] => ([], [])

def fulltextReading (e : Entity) : List (List Char) → Readings
  | first :: rest =>
    if first = fulltextWord then
      if rest.head? = some booleanWord then
        joined e "fulltext_boolean" 1 "fulltext needs one or more" rest.tail
      else joined e "fulltext" 1 "fulltext needs one or more" rest
    else ([], [])
  | [] => ([], [])

/-- The reading with a comparison at a word. -/
def compareReading (model : List Entity) (e : Entity) (ws : List (List Char)) (i : Nat) : Readings :=
  match ws[i]?.bind fun w => compareOps.lookup w, columnIndex e (ws.take i).flatten with
  | some op, some left =>
    match anyColumn model (ws.drop (i + 1)).flatten with
    | some right => ([⟨"", op, left, [], right⟩], [])
    | none => ([], ["no model has the column " ++ String.ofList (ws.drop (i + 1)).flatten])
  | _, _ => ([], [])

/-- All readings of the words of a key. -/
def readings (model : List Entity) (e : Entity) (ws : List (List Char)) : List Readings :=
  [wholeReading e ws, leadingReading e ws, tupleReading e ws, fulltextReading e ws] ++
    (List.range' 1 (ws.length - 2)).map (compareReading model e ws)

def parseKey (model : List Entity) (e : Entity) (ws : List (List Char)) : Except String ChainKey :=
  if ws = [] then .error "a condition key is empty"
  else
    match (readings model e ws).flatMap Prod.fst, (readings model e ws).flatMap Prod.snd with
    | [k], _ => .ok k
    | _ :: _ :: _, _ => .error (String.ofList ws.flatten ++ " has more than one meaning")
    | [], [] => .error (String.ofList ws.flatten ++ " is not a column of " ++ e.name)
    | [], errors => .error (String.ofList ws.flatten ++ ": " ++ String.intercalate "; " errors)

/-- The connector of a separator word. -/
def connective (sep : List Char) : String := String.ofList (sep.map Char.toLower)

abbrev connectors : List (List Char) := [['A', 'n', 'd'], ['O', 'r']]

/-- The key of the words after a separator. -/
def parsePart (model : List Entity) (e : Entity) (part : List Char × List (List Char)) :
    Except String ChainKey := do
  let parsed ← parseKey model e part.2
  .ok (parsed.withConn (connective part.1))

def parseChain (model : List Entity) (e : Entity) (name : List Char) : Except String (List ChainKey) :=
  if words name = [] then .error "empty condition name"
  else (splitParts connectors [] [] (words name)).mapM (parsePart model e)

end Model

section Grammar

inductive Leading where
  | ne | eq | gt | lt | ge | le | lk | lb | between
  deriving DecidableEq

def Leading.word : Leading → List Char
  | .ne => ['N', 'e']
  | .eq => ['E', 'q']
  | .gt => ['G', 't']
  | .lt => ['L', 't']
  | .ge => ['G', 'e']
  | .le => ['L', 'e']
  | .lk => ['L', 'k']
  | .lb => ['L', 'b']
  | .between => ['B', 'e', 't', 'w', 'e', 'e', 'n']

/-- The operator of the key; `Eq` is the plain comparison. -/
def Leading.op : Leading → String
  | .ne => "ne"
  | .eq => ""
  | .gt => "gt"
  | .lt => "lt"
  | .ge => "ge"
  | .le => "le"
  | .lk => "lk"
  | .lb => "lb"
  | .between => "between"

/-- A condition key of the chain grammar. -/
inductive CondKey where
  | plain (column : List Char)
  | leading (op : Leading) (column : List Char)
  | tuple (columns : List (List Char))
  | neTuple (columns : List (List Char))
  | fulltext (columns : List (List Char))
  | fulltextBoolean (columns : List (List Char))

/-- Columns joined by `With`. -/
def joinedName (columns : List (List Char)) : List Char :=
  List.intercalate withWord (columns.map pascal)

/-- The name of a key. -/
def CondKey.name : CondKey → List Char
  | .plain column => pascal column
  | .leading op column => op.word ++ pascal column
  | .tuple columns => tupleWord ++ joinedName columns
  | .neTuple columns => ['N', 'e'] ++ tupleWord ++ joinedName columns
  | .fulltext columns => fulltextWord ++ joinedName columns
  | .fulltextBoolean columns => fulltextWord ++ booleanWord ++ joinedName columns

/-- The key as the parser returns it, without its connector. -/
def CondKey.key : CondKey → ChainKey
  | .plain column => ⟨"", "", column, [], []⟩
  | .leading op column => ⟨"", op.op, column, [], []⟩
  | .tuple columns => ⟨"", "tuple", [], columns, []⟩
  | .neTuple columns => ⟨"", "ne_tuple", [], columns, []⟩
  | .fulltext columns => ⟨"", "fulltext", [], columns, []⟩
  | .fulltextBoolean columns => ⟨"", "fulltext_boolean", [], columns, []⟩

def CondKey.columns : CondKey → List (List Char)
  | .plain column | .leading _ column => [column]
  | .tuple columns | .neTuple columns | .fulltext columns | .fulltextBoolean columns => columns

/-- A key over the columns of an entity, with enough of them. -/
structure CondKey.Over (k : CondKey) (e : Entity) : Prop where
  mem : ∀ column ∈ k.columns, column ∈ e.columns
  nonempty : k.columns ≠ []
  two : ∀ columns, k = .tuple columns ∨ k = .neTuple columns → 2 ≤ columns.length

inductive Connector where
  | and | or
  deriving DecidableEq

def Connector.word : Connector → List Char
  | .and => ['A', 'n', 'd']
  | .or => ['O', 'r']

def Connector.text : Connector → String
  | .and => "and"
  | .or => "or"

/-- The name of a chain: its keys with the connectors between them. -/
def chainName (first : CondKey) (rest : List (Connector × CondKey)) : List Char :=
  first.name ++ rest.flatMap fun k => k.1.word ++ k.2.name

def chainKeys (first : CondKey) (rest : List (Connector × CondKey)) : List ChainKey :=
  first.key :: rest.map fun k => k.2.key.withConn k.1.text

/-- The segments that no column name holds. -/
def reservedSegments : List (List Char) :=
  [['a', 'n', 'd'], ['o', 'r'], ['w', 'i', 't', 'h'], ['g', 't'],
    ['l', 't'], ['g', 'e'], ['l', 'e'], ['e', 'q'], ['n', 'e'],
    ['l', 'k'], ['l', 'b'], ['b', 'e', 't', 'w', 'e', 'e', 'n'],
    ['f', 'u', 'l', 'l', 't', 'e', 'x', 't'],
    ['t', 'u', 'p', 'l', 'e']]

/-- An entity with column names of the schema language, without reserved segments and with distinct
forms. -/
structure Entity.Named (e : Entity) : Prop where
  form : ∀ column ∈ e.columns, Dbspec.nameForm (String.ofList column) = true
  unreserved : ∀ column ∈ e.columns, ∀ segment ∈ column.splitOn '_', segment ∉ reservedSegments
  distinct : (e.columns.map pascal).Nodup

end Grammar

section Letters

def lowerOrDigit (c : Char) : Bool := Dbspec.nameStart c || ('0' ≤ c && c ≤ '9')

theorem char_of_lt {P : Char → Prop} (h : ∀ n : Fin 128, P (Char.ofNat n)) {c : Char}
    (hc : c.toNat < 128) : P c := by
  have hn := h ⟨c.toNat, hc⟩
  rwa [Char.ofNat_toNat] at hn

theorem lowerOrDigit_lt {c : Char} (h : lowerOrDigit c = true) : c.toNat < 128 := by
  simp only [lowerOrDigit, Dbspec.nameStart, Bool.or_eq_true, Bool.and_eq_true,
    decide_eq_true_eq] at h
  rcases h with ⟨-, h⟩ | ⟨-, h⟩
  · exact lt_of_le_of_lt (show c.toNat ≤ 122 from h) (by decide)
  · exact lt_of_le_of_lt (show c.toNat ≤ 57 from h) (by decide)

/-- What capitalising does to a letter or a digit of a name. -/
theorem toUpper_facts {c : Char} (h : lowerOrDigit c = true) :
    upper c = false ∧ (c.isDigit = true ∧ c.toUpper = c ∨ upper c.toUpper = true) ∧
      c.toUpper.toLower = c := by
  have hall : ∀ n : Fin 128, lowerOrDigit (Char.ofNat n) = true →
      upper (Char.ofNat n) = false ∧
      ((Char.ofNat n).isDigit = true ∧ (Char.ofNat n).toUpper = Char.ofNat n ∨
        upper (Char.ofNat n).toUpper = true) ∧ (Char.ofNat n).toUpper.toLower = Char.ofNat n := by
    decide +kernel
  exact char_of_lt (P := fun c => lowerOrDigit c = true → upper c = false ∧
    (c.isDigit = true ∧ c.toUpper = c ∨ upper c.toUpper = true) ∧ c.toUpper.toLower = c) hall
    (lowerOrDigit_lt h) h

theorem toUpper_start {c : Char} (h : Dbspec.nameStart c = true) : upper c.toUpper = true := by
  have hall : ∀ n : Fin 128, Dbspec.nameStart (Char.ofNat n) = true →
      upper (Char.ofNat n).toUpper = true := by
    decide +kernel
  have hlower : lowerOrDigit c = true := by rw [lowerOrDigit, h, Bool.true_or]
  exact char_of_lt (P := fun c => Dbspec.nameStart c = true → upper c.toUpper = true) hall
    (lowerOrDigit_lt hlower) h

/-- A segment of a name. -/
def Segment (s : List Char) : Prop := ∀ c ∈ s, lowerOrDigit c = true

theorem capital_inj {s t : List Char} (hs : Segment s) (ht : Segment t) (h : capital s = capital t) :
    s = t := by
  cases s with
  | nil => cases t with
    | nil => rfl
    | cons d t => cases h
  | cons c s => cases t with
    | nil => cases h
    | cons d t =>
      obtain ⟨hcd, hst⟩ := List.cons.inj h
      rw [← (toUpper_facts (hs c List.mem_cons_self)).2.2, hcd,
        (toUpper_facts (ht d List.mem_cons_self)).2.2, hst]

theorem Segment.no_upper {s : List Char} (h : Segment s) : ∀ c ∈ s, upper c = false :=
  fun c hc => (toUpper_facts (h c hc)).1

theorem head_capitals {segments : List (List Char)} (hs : ∀ s ∈ segments, Segment s) {d : Char}
    (h : (segments.flatMap capital).head? = some d) : d.isDigit = true ∨ upper d = true := by
  induction segments with
  | nil => cases h
  | cons s segments ih =>
    obtain ⟨hseg, hrest⟩ := List.forall_mem_cons.mp hs
    cases s with
    | nil => exact ih hrest h
    | cons c s =>
      obtain rfl : c.toUpper = d := Option.some.inj h
      rcases (toUpper_facts (hseg c List.mem_cons_self)).2.1 with ⟨hdigit, hsame⟩ | hupper
      · exact .inl (by rwa [hsame])
      · exact .inr hupper

/-- A word of capitalised segments is one of them, or it has a digit. -/
theorem word_cases {segments : List (List Char)} (hs : ∀ s ∈ segments, Segment s) :
    ∀ w ∈ words (segments.flatMap capital),
      (∃ s ∈ segments, w = capital s) ∨ ∃ d ∈ w, d.isDigit = true := by
  induction segments with
  | nil => simp [words, cutBefore]
  | cons s segments ih =>
    obtain ⟨hseg, hrest⟩ := List.forall_mem_cons.mp hs
    have ih' : ∀ w ∈ words (segments.flatMap capital),
        (∃ t ∈ s :: segments, w = capital t) ∨ ∃ d ∈ w, d.isDigit = true := by
      intro w hw
      rcases ih hrest w hw with ⟨t, ht, hwt⟩ | hd
      · exact .inl ⟨t, List.mem_cons_of_mem _ ht, hwt⟩
      · exact .inr hd
    rw [List.flatMap_cons]
    cases s with
    | nil => exact ih'
    | cons c s =>
      have hlower : ∀ x ∈ s, upper x = false :=
        fun x hx => hseg.no_upper x (List.mem_cons_of_mem _ hx)
      intro w hw
      cases hhead : (segments.flatMap capital).head?.all upper with
      | true =>
        rw [capital, List.cons_append, words, cutBefore_append hlower hhead] at hw
        rcases List.mem_cons.mp hw with rfl | hw
        · exact .inl ⟨c :: s, List.mem_cons_self, rfl⟩
        · exact ih' w hw
      | false =>
        -- the next segment starts with a digit, which the word takes
        obtain ⟨v, vs, hvs, hwords⟩ := cutBefore_extend (c := c.toUpper) hlower hhead
        rw [capital, List.cons_append, words, hwords] at hw
        rcases List.mem_cons.mp hw with rfl | hw
        · obtain ⟨d, rest, hcons⟩ : ∃ d rest, segments.flatMap capital = d :: rest := by
            refine List.exists_cons_of_ne_nil fun hnil => ?_
            rw [hnil] at hhead
            cases hhead
          have hd : (segments.flatMap capital).head? = some d := by rw [hcons, List.head?_cons]
          rw [hd, Option.all_some] at hhead
          have hdigit : d.isDigit = true := by
            rcases head_capitals hrest hd with hdigit | hupper
            · exact hdigit
            · rw [hhead] at hupper
              cases hupper
          obtain ⟨w, ws, hw⟩ := cutBefore_head (p := upper) d rest
          rw [hcons, hw] at hvs
          obtain ⟨rfl, -⟩ := List.cons.inj hvs
          exact .inr ⟨d, by simp, hdigit⟩
        · exact ih' w (by rw [words, hvs]; exact List.mem_cons_of_mem _ hw)

end Letters

section Columns
variable {e : Entity} {column : List Char}

/-- The words that no column name has. -/
def reservedWords : List (List Char) := reservedSegments.map capital

theorem reservedWords_eq : reservedWords =
    [['A', 'n', 'd'], ['O', 'r'], withWord, ['G', 't'], ['L', 't'], ['G', 'e'], ['L', 'e'],
      ['E', 'q'], ['N', 'e'], ['L', 'k'], ['L', 'b'], ['B', 'e', 't', 'w', 'e', 'e', 'n'],
      fulltextWord, tupleWord] := by
  decide +kernel

theorem nameForm_split (h : Dbspec.nameForm (String.ofList column) = true) :
    (∀ s ∈ column.splitOn '_', Segment s) ∧
      ∃ c rest, pascal column = c :: rest ∧ upper c = true := by
  rw [Dbspec.nameForm, String.toList_ofList] at h
  cases column with
  | nil => cases h
  | cons c rest =>
    obtain ⟨hc, hrest⟩ : Dbspec.nameStart c = true ∧ rest.all Dbspec.nameChar = true := by
      simpa using h
    have hchars : ∀ d ∈ c :: rest, Dbspec.nameChar d = true := by
      refine List.forall_mem_cons.mpr ⟨?_, List.all_eq_true.mp hrest⟩
      rw [Dbspec.nameChar, hc]
      rfl
    constructor
    · intro s hs d hd
      have hmem : d ∈ c :: rest := mem_of_mem_splitOn _ s hs d hd
      have hnot : d ≠ '_' := fun heq => not_mem_splitOn _ s hs (heq ▸ hd)
      have hchar := hchars d hmem
      simpa [Dbspec.nameChar, lowerOrDigit, hnot] using hchar
    · have hne : c ≠ '_' := by
        rintro rfl
        cases hc
      obtain ⟨l, ls, -, hsplit⟩ := splitOn_cons_of_ne hne rest
      refine ⟨c.toUpper, l ++ ls.flatMap capital, ?_, ?_⟩
      · rw [pascal, hsplit]
        rfl
      · exact toUpper_start hc

theorem Entity.Named.words_unreserved (he : e.Named) (hc : column ∈ e.columns) :
    ∀ w ∈ words (pascal column), w ∉ reservedWords := by
  intro w hw hreserved
  have hsegments : reservedSegments.all (·.all lowerOrDigit) = true := by decide
  have hletters : reservedWords.all (·.all fun d => !d.isDigit) = true := by
    rw [reservedWords_eq]
    decide
  rcases word_cases (nameForm_split (he.form column hc)).1 w hw with ⟨s, hs, heq⟩ | ⟨d, hd, hdigit⟩
  · obtain ⟨r, hr, hrw⟩ := List.mem_map.mp hreserved
    have hsegment : Segment r := List.all_eq_true.mp (List.all_eq_true.mp hsegments r hr)
    have hsr := capital_inj ((nameForm_split (he.form column hc)).1 s hs) hsegment
      (heq.symm.trans hrw.symm)
    exact he.unreserved column hc s hs (hsr ▸ hr)
  · have hletter := List.all_eq_true.mp (List.all_eq_true.mp hletters w hreserved) d hd
    rw [hdigit] at hletter
    cases hletter

theorem columnIndex_mem {l : List Char} (h : columnIndex e l = some column) :
    column ∈ e.columns ∧ pascal column = l := by
  have hmem := List.mem_of_find?_eq_some h
  exact ⟨List.mem_reverse.mp hmem, by simpa using List.find?_some h⟩

theorem Entity.Named.columnIndex_pascal (he : e.Named) (hc : column ∈ e.columns) :
    columnIndex e (pascal column) = some column := by
  cases hfind : columnIndex e (pascal column) with
  | none =>
    have hnone := List.find?_eq_none.mp hfind column (List.mem_reverse.mpr hc)
    simp at hnone
  | some other =>
    obtain ⟨hother, hpascal⟩ := columnIndex_mem hfind
    rw [List.inj_on_of_nodup_map he.distinct hother hc hpascal]

/-- A text with a reserved word is the form of no column. -/
theorem Entity.Named.columnIndex_reserved (he : e.Named) {l w : List Char} (hw : w ∈ words l)
    (hreserved : w ∈ reservedWords) : columnIndex e l = none := by
  cases hfind : columnIndex e l with
  | none => rfl
  | some column =>
    obtain ⟨hmem, rfl⟩ := columnIndex_mem hfind
    exact absurd hreserved (he.words_unreserved hmem w hw)

theorem Entity.Named.starts (he : e.Named) (hc : column ∈ e.columns) (rest : List Char) :
    (pascal column ++ rest).head?.all upper = true := by
  obtain ⟨c, tail, hpascal, hupper⟩ := (nameForm_split (he.form column hc)).2
  rw [hpascal, List.cons_append, List.head?_cons, Option.all_some, hupper]

theorem Entity.Named.words_ne_nil (he : e.Named) (hc : column ∈ e.columns) :
    words (pascal column) ≠ [] := by
  obtain ⟨c, tail, hpascal, -⟩ := (nameForm_split (he.form column hc)).2
  exact cutBefore_ne_nil (by rw [hpascal]; exact List.cons_ne_nil _ _)

end Columns

section Keywords

/-- A capital and letters that are none. -/
def keyword : List Char → Bool
  | [] => false
  | c :: l => upper c && l.all fun d => !upper d

theorem words_keyword {w rest : List Char} (hw : keyword w = true)
    (hrest : rest.head?.all upper = true) : words (w ++ rest) = w :: words rest := by
  cases w with
  | nil => cases hw
  | cons c l =>
    obtain ⟨-, hl⟩ : upper c = true ∧ ∀ d ∈ l, upper d = false := by simpa [keyword] using hw
    exact cutBefore_append hl hrest

theorem keyword_starts {w : List Char} (hw : keyword w = true) (rest : List Char) :
    (w ++ rest).head?.all upper = true := by
  cases w with
  | nil => cases hw
  | cons c l =>
    obtain ⟨hc, -⟩ : upper c = true ∧ ∀ d ∈ l, upper d = false := by simpa [keyword] using hw
    rw [List.cons_append, List.head?_cons, Option.all_some, hc]

theorem words_append_keyword {w : List Char} (hw : keyword w = true) (l rest : List Char)
    (hrest : rest.head?.all upper = true) : words (l ++ (w ++ rest)) = words l ++ w :: words rest := by
  rw [words, cutBefore_join l (keyword_starts hw rest)]
  exact congrArg _ (words_keyword hw hrest)

end Keywords

section Joined
variable {e : Entity} {columns : List (List Char)} {column other : List Char}

/-- The words of columns joined by `With`. -/
def joinedWords (columns : List (List Char)) : List (List Char) :=
  List.intercalate [withWord] (columns.map fun column => words (pascal column))

theorem joinedName_cons : joinedName (column :: other :: columns) =
    pascal column ++ (withWord ++ joinedName (other :: columns)) := by
  rw [joinedName, List.map_cons, List.map_cons, List.intercalate_cons_cons, List.append_assoc]
  rfl

theorem joinedWords_cons : joinedWords (column :: other :: columns) =
    words (pascal column) ++ withWord :: joinedWords (other :: columns) := by
  rw [joinedWords, List.map_cons, List.map_cons, List.intercalate_cons_cons, List.append_assoc]
  rfl

theorem joinedName_starts (he : e.Named) (h : ∀ column ∈ columns, column ∈ e.columns) :
    (joinedName columns).head?.all upper = true := by
  match columns with
  | [] => rfl
  | [column] =>
    have hstarts := he.starts (h column List.mem_cons_self) []
    simpa [joinedName] using hstarts
  | column :: other :: columns =>
    rw [joinedName_cons]
    exact he.starts (h column List.mem_cons_self) _

theorem words_joined (he : e.Named) (h : ∀ column ∈ columns, column ∈ e.columns) :
    words (joinedName columns) = joinedWords columns := by
  induction columns with
  | nil => rfl
  | cons column columns ih =>
    obtain ⟨hc, hcs⟩ := List.forall_mem_cons.mp h
    cases columns with
    | nil => simp [joinedName, joinedWords]
    | cons other columns =>
      rw [joinedName_cons, joinedWords_cons,
        words_append_keyword (by decide) _ _ (joinedName_starts he hcs), ih hcs]

theorem mem_joinedWords {w : List Char} (hw : w ∈ joinedWords columns) :
    w = withWord ∨ ∃ column ∈ columns, w ∈ words (pascal column) := by
  induction columns with
  | nil => cases hw
  | cons column columns ih =>
    cases columns with
    | nil =>
      refine .inr ⟨column, List.mem_cons_self, ?_⟩
      simpa [joinedWords] using hw
    | cons other columns =>
      rw [joinedWords_cons] at hw
      rcases List.mem_append.mp hw with hw | hw
      · exact .inr ⟨column, List.mem_cons_self, hw⟩
      · rcases List.mem_cons.mp hw with rfl | hw
        · exact .inl rfl
        · rcases ih hw with hwith | ⟨c, hc, hw⟩
          · exact .inl hwith
          · exact .inr ⟨c, List.mem_cons_of_mem _ hc, hw⟩

theorem splitWith_joined (he : e.Named) (h : ∀ column ∈ columns, column ∈ e.columns)
    (hne : columns ≠ []) : splitWith e (joinedWords columns) = some columns := by
  have hfree {column : List Char} (hc : column ∈ e.columns) :
      ∀ w ∈ words (pascal column), w ∉ [withWord] := by
    intro w hw hmem
    refine he.words_unreserved hc w hw ?_
    rw [List.mem_singleton.mp hmem, reservedWords_eq]
    decide
  have hfrom (sep : List Char) : (splitParts [withWord] sep [] (joinedWords columns)).mapM
      (fun part => columnIndex e part.2.flatten) = some columns := by
    induction columns generalizing sep with
    | nil => exact absurd rfl hne
    | cons column columns ih =>
      obtain ⟨hc, hcs⟩ := List.forall_mem_cons.mp h
      have hindex : columnIndex e (words (pascal column)).flatten = some column := by
        rw [words, cutBefore_flatten, he.columnIndex_pascal hc]
      cases columns with
      | nil =>
        have hwords : joinedWords [column] = words (pascal column) ++ [] := by simp [joinedWords]
        rw [hwords, splitParts_append (hfree hc), splitParts, List.nil_append]
        simp [hindex]
      | cons other columns =>
        rw [joinedWords_cons, splitParts_append (hfree hc), splitParts_separator List.mem_cons_self,
          List.nil_append]
        simp [hindex, ih hcs (List.cons_ne_nil _ _)]
  exact hfrom []

end Joined

section Keys
variable {e : Entity} {model : List Entity} {k : CondKey} {ws : List (List Char)}

/-- The words of a key. -/
def CondKey.words : CondKey → List (List Char)
  | .plain column => Chain.words (pascal column)
  | .leading op column => op.word :: Chain.words (pascal column)
  | .tuple columns => tupleWord :: joinedWords columns
  | .neTuple columns => ['N', 'e'] :: tupleWord :: joinedWords columns
  | .fulltext columns => fulltextWord :: joinedWords columns
  | .fulltextBoolean columns => fulltextWord ::
      booleanWord :: joinedWords columns

theorem Leading.keyword_word (op : Leading) : keyword op.word = true := by
  cases op <;> decide

theorem CondKey.Over.words_name (hk : k.Over e) (he : e.Named) : Chain.words k.name = k.words := by
  cases k with
  | plain column => rfl
  | leading op column =>
    have hstarts := he.starts (hk.mem column List.mem_cons_self) []
    rw [List.append_nil] at hstarts
    exact words_keyword op.keyword_word hstarts
  | tuple columns =>
    have hmem : ∀ column ∈ columns, column ∈ e.columns := hk.mem
    rw [CondKey.name, words_keyword (by decide) (joinedName_starts he hmem), words_joined he hmem]
    rfl
  | neTuple columns =>
    have hmem : ∀ column ∈ columns, column ∈ e.columns := hk.mem
    rw [CondKey.name, List.append_assoc, words_keyword (by decide) (keyword_starts (by decide) _),
      words_keyword (by decide) (joinedName_starts he hmem), words_joined he hmem]
    rfl
  | fulltext columns =>
    have hmem : ∀ column ∈ columns, column ∈ e.columns := hk.mem
    rw [CondKey.name, words_keyword (by decide) (joinedName_starts he hmem), words_joined he hmem]
    rfl
  | fulltextBoolean columns =>
    have hmem : ∀ column ∈ columns, column ∈ e.columns := hk.mem
    rw [CondKey.name, List.append_assoc, words_keyword (by decide) (keyword_starts (by decide) _),
      words_keyword (by decide) (joinedName_starts he hmem), words_joined he hmem]
    rfl

theorem CondKey.Over.name_starts (hk : k.Over e) (he : e.Named) (rest : List Char) :
    (k.name ++ rest).head?.all upper = true := by
  cases k with
  | plain column => exact he.starts (hk.mem column List.mem_cons_self) rest
  | leading op column =>
    rw [CondKey.name, List.append_assoc]
    exact keyword_starts op.keyword_word _
  | tuple columns => exact keyword_starts (w := tupleWord) (by decide) _
  | neTuple columns => exact keyword_starts (w := ['N', 'e']) (by decide) _
  | fulltext columns => exact keyword_starts (w := fulltextWord) (by decide) _
  | fulltextBoolean columns =>
    exact keyword_starts (w := fulltextWord) (by decide) _

/-- The words of a key after its first one are words of its columns, or they stand for its form. -/
theorem CondKey.Over.mem_tail (hk : k.Over e) {w : List Char} (hw : w ∈ k.words.tail) :
    w ∈ [tupleWord, booleanWord, withWord] ∨ ∃ column ∈ e.columns, w ∈ Chain.words (pascal column) := by
  have hjoined {columns : List (List Char)} (hmem : ∀ column ∈ columns, column ∈ e.columns)
      (hw : w ∈ joinedWords columns) : w ∈ [tupleWord, booleanWord, withWord] ∨
        ∃ column ∈ e.columns, w ∈ Chain.words (pascal column) := by
    rcases mem_joinedWords hw with rfl | ⟨column, hc, hw⟩
    · exact .inl (by simp)
    · exact .inr ⟨column, hmem column hc, hw⟩
  cases k with
  | plain column => exact .inr ⟨column, hk.mem column List.mem_cons_self, List.mem_of_mem_tail hw⟩
  | leading op column => exact .inr ⟨column, hk.mem column List.mem_cons_self, hw⟩
  | tuple columns => exact hjoined hk.mem hw
  | fulltext columns => exact hjoined hk.mem hw
  | neTuple columns =>
    rcases List.mem_cons.mp hw with rfl | hw
    · exact .inl (by simp)
    · exact hjoined hk.mem hw
  | fulltextBoolean columns =>
    rcases List.mem_cons.mp hw with rfl | hw
    · exact .inl (by simp)
    · exact hjoined hk.mem hw

theorem lookup_unreserved {ops : List (List Char × String)} {w : List Char}
    (hkeys : ops.all (fun p => p.1 ∈ reservedWords) = true) (h : w ∉ reservedWords) :
    ops.lookup w = none := by
  rw [List.lookup_eq_none_iff]
  intro p hp
  have hmem := of_decide_eq_true (List.all_eq_true.mp hkeys p hp)
  have hne : w ≠ p.1 := fun heq => h (heq ▸ hmem)
  simpa using hne

theorem leadingOps_reserved : leadingOps.all (fun p => p.1 ∈ reservedWords) = true := by
  rw [reservedWords_eq]
  decide

theorem compareOps_reserved : compareOps.all (fun p => p.1 ∈ reservedWords) = true := by
  rw [reservedWords_eq]
  decide

theorem tupleWord_reserved : tupleWord ∈ reservedWords := by simp [reservedWords_eq]

theorem fulltextWord_reserved : fulltextWord ∈ reservedWords := by simp [reservedWords_eq]

/-- A key has no reading with a comparison between columns. -/
theorem CondKey.Over.compare_none (hk : k.Over e) (he : e.Named) {i : Nat} (hi : 1 ≤ i) :
    compareReading model e k.words i = ([], []) := by
  have hnone : (k.words[i]?.bind fun w => compareOps.lookup w) = none := by
    cases hget : k.words[i]? with
    | none => rfl
    | some w =>
      have hmem : w ∈ k.words.tail := by
        obtain ⟨j, rfl⟩ : ∃ j, i = j + 1 := ⟨i - 1, by omega⟩
        rw [← List.getElem?_tail] at hget
        exact List.mem_of_getElem? hget
      have hwords : ([tupleWord, booleanWord, withWord].all fun w =>
          compareOps.lookup w = none) = true := by decide
      rcases hk.mem_tail hmem with hw | ⟨column, hc, hw⟩
      · exact of_decide_eq_true (List.all_eq_true.mp hwords w hw)
      · exact lookup_unreserved compareOps_reserved (he.words_unreserved hc w hw)
  rw [compareReading, hnone]

/-- The readings of a key without those that compare columns. -/
theorem CondKey.Over.readings_fst (hk : k.Over e) (he : e.Named) :
    (readings model e k.words).flatMap Prod.fst = (wholeReading e k.words).1 ++
      ((leadingReading e k.words).1 ++ ((tupleReading e k.words).1 ++
        (fulltextReading e k.words).1)) := by
  have hcompare : ((List.range' 1 (k.words.length - 2)).map
      (compareReading model e k.words)).flatMap Prod.fst = [] := by
    rw [List.flatMap_eq_nil_iff]
    intro p hp
    obtain ⟨i, hi, rfl⟩ := List.mem_map.mp hp
    rw [hk.compare_none he (List.mem_range'_1.mp hi).1]
  rw [readings, List.flatMap_append, hcompare, List.append_nil]
  simp

theorem parseKey_ok {key : ChainKey} (hne : ws ≠ [])
    (h : (readings model e ws).flatMap Prod.fst = [key]) : parseKey model e ws = .ok key := by
  rw [parseKey, if_neg hne, h]

theorem mem_of_parseKey {key : ChainKey} (h : parseKey model e ws = .ok key) :
    key ∈ (readings model e ws).flatMap Prod.fst := by
  unfold parseKey at h
  split_ifs at h
  split at h
  · next hkey =>
    rw [hkey]
    cases h
    exact List.mem_singleton_self _
  · cases h
  · cases h
  · cases h

/-- A plain full-text key whose first column starts with the word of the Boolean mode. -/
def CondKey.ReadsBoolean : CondKey → Prop
  | .fulltext columns => ∃ column rest, columns = column :: rest ∧
      (Chain.words (pascal column)).head? = some booleanWord
  | _ => False

theorem wholeReading_reserved (he : e.Named) {w : List Char} (hwords : Chain.words ws.flatten = ws)
    (hw : w ∈ ws) (hreserved : w ∈ reservedWords) : wholeReading e ws = ([], []) := by
  rw [wholeReading, he.columnIndex_reserved (hwords.symm ▸ hw) hreserved]

theorem leadingReading_none {first : List Char} (h : leadingOps.lookup first = none)
    (rest : List (List Char)) : leadingReading e (first :: rest) = ([], []) := by
  cases rest with
  | nil => rfl
  | cons second rest => rw [leadingReading, h]

theorem joined_ok (he : e.Named) {columns : List (List Char)} {op what : String} {n : Nat}
    (hmem : ∀ column ∈ columns, column ∈ e.columns) (hne : columns ≠ []) (hn : n ≤ columns.length) :
    (joined e op n what (joinedWords columns)).1 = [⟨"", op, [], columns, []⟩] := by
  rw [joined, splitWith_joined he hmem hne]
  simp only [if_pos hn]

theorem joined_op {columns : List (List Char)} {op what : String} {n : Nat} {key : ChainKey}
    (h : key ∈ (joined e op n what columns).1) : key.op = op := by
  unfold joined at h
  split at h
  · split at h
    · rw [List.mem_singleton.mp h]
    · cases h
  · cases h

theorem joinedWords_head (he : e.Named) {columns : List (List Char)} {column : List Char}
    (hc : column ∈ e.columns) :
    (joinedWords (column :: columns)).head? = (Chain.words (pascal column)).head? := by
  obtain ⟨w, ws, hws⟩ := List.exists_cons_of_ne_nil (he.words_ne_nil hc)
  cases columns with
  | nil => simp [joinedWords]
  | cons other columns =>
    rw [joinedWords_cons, hws]
    rfl

theorem CondKey.Over.flatten_words (hk : k.Over e) (he : e.Named) :
    Chain.words k.words.flatten = k.words := by
  rw [← hk.words_name he]
  unfold Chain.words
  rw [cutBefore_flatten]

theorem CondKey.Over.words_ne_nil (hk : k.Over e) (he : e.Named) : k.words ≠ [] := by
  cases k with
  | plain column => exact he.words_ne_nil (hk.mem column List.mem_cons_self)
  | leading => exact List.cons_ne_nil _ _
  | tuple => exact List.cons_ne_nil _ _
  | neTuple => exact List.cons_ne_nil _ _
  | fulltext => exact List.cons_ne_nil _ _
  | fulltextBoolean => exact List.cons_ne_nil _ _

theorem plain_readings (he : e.Named) {column : List Char} (hc : column ∈ e.columns) :
    (wholeReading e (Chain.words (pascal column))).1 = [⟨"", "", column, [], []⟩] ∧
      leadingReading e (Chain.words (pascal column)) = ([], []) ∧
      tupleReading e (Chain.words (pascal column)) = ([], []) ∧
      fulltextReading e (Chain.words (pascal column)) = ([], []) := by
  obtain ⟨w, ws, hws⟩ := List.exists_cons_of_ne_nil (he.words_ne_nil hc)
  have hfree : w ∉ reservedWords := he.words_unreserved hc w (hws ▸ List.mem_cons_self)
  have hflat : (Chain.words (pascal column)).flatten = pascal column := cutBefore_flatten _
  have htuple : w ≠ tupleWord := fun heq => hfree (heq ▸ tupleWord_reserved)
  have hfulltext : w ≠ fulltextWord := fun heq => hfree (heq ▸ fulltextWord_reserved)
  refine ⟨?_, ?_, ?_, ?_⟩
  · rw [wholeReading, hflat, he.columnIndex_pascal hc]
  · rw [hws, leadingReading_none (lookup_unreserved leadingOps_reserved hfree)]
  · rw [hws, tupleReading, if_neg htuple]
  · rw [hws, fulltextReading, if_neg hfulltext]

theorem Leading.lookup_word (op : Leading) : leadingOps.lookup op.word = some op.op := by
  cases op <;> rfl

theorem Leading.word_reserved (op : Leading) : op.word ∈ reservedWords := by
  rw [reservedWords_eq]
  cases op <;> decide

theorem leading_reading (he : e.Named) {column : List Char} (hc : column ∈ e.columns) (op : Leading) :
    (leadingReading e (op.word :: Chain.words (pascal column))).1 = [⟨"", op.op, column, [], []⟩] := by
  obtain ⟨w, ws, hws⟩ := List.exists_cons_of_ne_nil (he.words_ne_nil hc)
  have hflat : (Chain.words (pascal column)).flatten = pascal column := cutBefore_flatten _
  have hfree : w ∉ reservedWords := he.words_unreserved hc w (hws ▸ List.mem_cons_self)
  have htuple : w ≠ tupleWord := fun heq => hfree (heq ▸ tupleWord_reserved)
  rw [hws] at hflat ⊢
  rw [leadingReading, op.lookup_word]
  simp only [if_neg (fun h : _ ∧ _ => htuple h.2), hflat, he.columnIndex_pascal hc]

/-- A key is read as itself. -/
theorem CondKey.Over.parseKey_words (hk : k.Over e) (he : e.Named) (hboolean : ¬ k.ReadsBoolean) :
    parseKey model e k.words = .ok k.key := by
  refine parseKey_ok (hk.words_ne_nil he) ?_
  rw [hk.readings_fst he]
  have hflat := hk.flatten_words he
  have hmem := hk.mem
  have hne := hk.nonempty
  cases k with
  | plain column =>
    obtain ⟨hwhole, hleading, htuple, hfulltext⟩ := plain_readings he (hmem column List.mem_cons_self)
    rw [CondKey.words, hwhole, hleading, htuple, hfulltext]
    rfl
  | leading op column =>
    rw [wholeReading_reserved he hflat List.mem_cons_self op.word_reserved]
    rw [CondKey.words, leading_reading he (hmem column List.mem_cons_self)]
    cases op <;> rfl
  | tuple columns =>
    have hjoined : (joined e "tuple" 2 "a tuple needs two or more" (joinedWords columns)).1 =
        [⟨"", "tuple", [], columns, []⟩] := joined_ok he hmem hne (hk.two columns (.inl rfl))
    rw [wholeReading_reserved he hflat List.mem_cons_self tupleWord_reserved, CondKey.words,
      leadingReading_none rfl, tupleReading, if_pos rfl, hjoined]
    rfl
  | neTuple columns =>
    rw [wholeReading_reserved he hflat List.mem_cons_self (Leading.word_reserved .ne), CondKey.words]
    have hjoined : (leadingReading e (['N', 'e'] :: tupleWord :: joinedWords columns)).1 =
        [⟨"", "ne_tuple", [], columns, []⟩] := joined_ok he hmem hne (hk.two columns (.inr rfl))
    rw [hjoined]
    rfl
  | fulltext columns =>
    obtain ⟨column, rest, rfl⟩ := List.exists_cons_of_ne_nil hne
    have hhead : (joinedWords (column :: rest)).head? ≠ some booleanWord := by
      rw [joinedWords_head he (hmem column List.mem_cons_self)]
      exact fun heq => hboolean ⟨column, rest, rfl, heq⟩
    have hjoined : (joined e "fulltext" 1 "fulltext needs one or more"
        (joinedWords (column :: rest))).1 = [⟨"", "fulltext", [], column :: rest, []⟩] :=
      joined_ok he hmem hne (Nat.succ_le_succ (Nat.zero_le _))
    rw [wholeReading_reserved he hflat List.mem_cons_self fulltextWord_reserved, CondKey.words,
      leadingReading_none rfl, fulltextReading, if_pos rfl, if_neg hhead, hjoined]
    rfl
  | fulltextBoolean columns =>
    have hcount : 1 ≤ columns.length := List.length_pos_iff_ne_nil.mpr hne
    have hjoined : (fulltextReading e (fulltextWord :: booleanWord :: joinedWords columns)).1 =
        [⟨"", "fulltext_boolean", [], columns, []⟩] := joined_ok he hmem hne hcount
    rw [wholeReading_reserved he hflat List.mem_cons_self fulltextWord_reserved, CondKey.words,
      leadingReading_none rfl, hjoined]
    rfl

/-- A plain full-text key whose first column starts with the word `Boolean` is not read as itself. -/
theorem CondKey.Over.parseKey_boolean (hk : k.Over e) (he : e.Named) (hboolean : k.ReadsBoolean)
    {key : ChainKey} (h : parseKey model e k.words = .ok key) : key.op ≠ k.key.op := by
  have hmem := mem_of_parseKey h
  rw [hk.readings_fst he] at hmem
  have hflat := hk.flatten_words he
  cases k with
  | fulltext columns =>
    obtain ⟨column, rest, rfl, hhead⟩ := hboolean
    have hhead' : (joinedWords (column :: rest)).head? = some booleanWord := by
      rw [joinedWords_head he (hk.mem column List.mem_cons_self), hhead]
    rw [wholeReading_reserved he hflat List.mem_cons_self fulltextWord_reserved, CondKey.words,
      leadingReading_none rfl, fulltextReading, if_pos rfl, if_pos hhead'] at hmem
    have hop : key.op = "fulltext_boolean" := joined_op (by simpa [tupleReading] using hmem)
    rw [hop]
    change "fulltext_boolean" ≠ "fulltext"
    decide
  | plain => cases hboolean
  | leading => cases hboolean
  | tuple => cases hboolean
  | neTuple => cases hboolean
  | fulltextBoolean => cases hboolean

end Keys

section Chains
variable {e : Entity} {model : List Entity} {k first : CondKey} {rest : List (Connector × CondKey)}

theorem Connector.word_mem (c : Connector) : c.word ∈ connectors := by
  cases c <;> simp [Connector.word]

theorem Connector.keyword_word (c : Connector) : keyword c.word = true := by
  cases c <;> decide

theorem Connector.connective_word (c : Connector) : connective c.word = c.text := by
  cases c <;> rfl

theorem CondKey.Over.not_connector (hk : k.Over e) (he : e.Named) :
    ∀ w ∈ k.words, w ∉ connectors := by
  have hreserved : connectors.all (· ∈ reservedWords) = true := by
    rw [reservedWords_eq]
    decide
  have hcolumn {column w : List Char} (hc : column ∈ e.columns)
      (hw : w ∈ Chain.words (pascal column)) : w ∉ connectors := fun hmem =>
    he.words_unreserved hc w hw (of_decide_eq_true (List.all_eq_true.mp hreserved w hmem))
  have htail : ∀ w ∈ k.words.tail, w ∉ connectors := by
    intro w hw
    rcases hk.mem_tail hw with hw | ⟨column, hc, hw⟩
    · rcases List.mem_cons.mp hw with rfl | hw
      · decide
      · rcases List.mem_cons.mp hw with rfl | hw
        · decide
        · rw [List.mem_singleton.mp hw]
          decide
    · exact hcolumn hc hw
  cases k with
  | plain column => exact fun w hw => hcolumn (hk.mem column List.mem_cons_self) hw
  | leading op column => exact List.forall_mem_cons.mpr ⟨by cases op <;> decide, htail⟩
  | tuple => exact List.forall_mem_cons.mpr ⟨by decide, htail⟩
  | neTuple => exact List.forall_mem_cons.mpr ⟨by decide, htail⟩
  | fulltext => exact List.forall_mem_cons.mpr ⟨by decide, htail⟩
  | fulltextBoolean => exact List.forall_mem_cons.mpr ⟨by decide, htail⟩

theorem words_rest (he : e.Named) (hrest : ∀ k ∈ rest, k.2.Over e) :
    Chain.words (rest.flatMap fun k => k.1.word ++ k.2.name) =
      rest.flatMap fun k => k.1.word :: k.2.words := by
  induction rest with
  | nil => rfl
  | cons k rest ih =>
    obtain ⟨hk, hrest⟩ := List.forall_mem_cons.mp hrest
    have hstarts : (rest.flatMap fun k => k.1.word ++ k.2.name).head?.all upper = true := by
      cases rest with
      | nil => rfl
      | cons k' rest =>
        rw [List.flatMap_cons, List.append_assoc]
        exact keyword_starts k'.1.keyword_word _
    rw [List.flatMap_cons, List.flatMap_cons, List.append_assoc,
      words_keyword k.1.keyword_word (hk.name_starts he _), List.cons_append, ← ih hrest,
      ← hk.words_name he]
    exact congrArg _ (cutBefore_join _ hstarts)

theorem words_chain (he : e.Named) (hfirst : first.Over e) (hrest : ∀ k ∈ rest, k.2.Over e) :
    Chain.words (chainName first rest) =
      first.words ++ rest.flatMap fun k => k.1.word :: k.2.words := by
  have hstarts : (rest.flatMap fun k => k.1.word ++ k.2.name).head?.all upper = true := by
    cases rest with
    | nil => rfl
    | cons k rest =>
      rw [List.flatMap_cons, List.append_assoc]
      exact keyword_starts k.1.keyword_word _
  rw [← words_rest he hrest, ← hfirst.words_name he]
  exact cutBefore_join _ hstarts

/-- The parts of a chain are its keys with their connectors. -/
theorem parts_chain (he : e.Named) (hrest : ∀ k ∈ rest, k.2.Over e) (sep : List Char)
    (cur : List (List Char)) :
    splitParts connectors sep cur (rest.flatMap fun k => k.1.word :: k.2.words) =
      (sep, cur) :: rest.map fun k => (k.1.word, k.2.words) := by
  induction rest generalizing sep cur with
  | nil => rfl
  | cons k rest ih =>
    obtain ⟨hk, hrest⟩ := List.forall_mem_cons.mp hrest
    rw [List.flatMap_cons, List.cons_append, splitParts_separator k.1.word_mem,
      splitParts_append (hk.not_connector he), ih hrest, List.nil_append]
    rfl

theorem mapM_ok_iff {α β ε : Type} {f : α → Except ε β} {g : α → β} {l : List α} :
    l.mapM f = .ok (l.map g) ↔ ∀ a ∈ l, f a = .ok (g a) := by
  induction l with
  | nil => simp [pure, Except.pure]
  | cons a l ih =>
    rw [List.mapM_cons, List.map_cons, List.forall_mem_cons]
    constructor
    · intro h
      obtain ⟨b, hb, h⟩ := ok_bind.mp h
      obtain ⟨bs, hbs, h⟩ := ok_bind.mp h
      obtain ⟨rfl, rfl⟩ : b = g a ∧ bs = l.map g := by simpa [pure, Except.pure] using h
      exact ⟨hb, ih.mp hbs⟩
    · rintro ⟨ha, hl⟩
      rw [ha, ih.mpr hl]
      rfl

theorem parsePart_iff (he : e.Named) (hk : k.Over e) (sep : List Char) :
    parsePart model e (sep, k.words) = .ok (k.key.withConn (connective sep)) ↔
      ¬ k.ReadsBoolean := by
  constructor
  · intro h hboolean
    obtain ⟨parsed, hparsed, h⟩ := ok_bind.mp h
    have hkey : parsed.withConn (connective sep) = k.key.withConn (connective sep) :=
      Except.ok.inj h
    have hop : (parsed.withConn (connective sep)).op = (k.key.withConn (connective sep)).op := by
      rw [hkey]
    exact hk.parseKey_boolean he hboolean hparsed hop
  · intro hboolean
    rw [parsePart, hk.parseKey_words he hboolean]
    rfl

/-- The name of a chain is read as its keys exactly when no plain full-text key has a first column
whose form starts with the word `Boolean`. -/
theorem parseChain_chainName_iff (he : e.Named) (hfirst : first.Over e)
    (hrest : ∀ k ∈ rest, k.2.Over e) :
    parseChain model e (chainName first rest) = .ok (chainKeys first rest) ↔
      ¬ first.ReadsBoolean ∧ ∀ k ∈ rest, ¬ k.2.ReadsBoolean := by
  have hwords := words_chain he hfirst hrest
  have hne : Chain.words (chainName first rest) ≠ [] := by
    rw [hwords]
    simp [hfirst.words_ne_nil he]
  -- the keys with the words of their connectors
  have hparts : splitParts connectors [] [] (Chain.words (chainName first rest)) =
      (([], first) :: rest.map fun k => (k.1.word, k.2)).map fun k => (k.1, k.2.words) := by
    rw [hwords, splitParts_append (hfirst.not_connector he), parts_chain he hrest]
    simp
  have hkeys : chainKeys first rest = (([], first) :: rest.map fun k => (k.1.word, k.2)).map fun k =>
      k.2.key.withConn (connective k.1) := by
    rw [chainKeys, List.map_cons, List.map_map]
    congr 1
    · cases first <;> rfl
    · exact List.map_congr_left fun k _ => congrArg k.2.key.withConn k.1.connective_word.symm
  have hchain : parseChain model e (chainName first rest) =
      (([], first) :: rest.map fun k => (k.1.word, k.2)).mapM fun k =>
        parsePart model e (k.1, k.2.words) := by
    rw [parseChain, if_neg hne, hparts, List.mapM_map]
    rfl
  rw [hchain, hkeys, mapM_ok_iff, List.forall_mem_cons, List.forall_mem_map, parsePart_iff he hfirst]
  exact and_congr_right' (forall₂_congr fun k hk => parsePart_iff he (hrest k hk) _)

def itemEntity : Entity := ⟨"item", [['s', 'e', 'q'], ['n', 'a', 'm', 'e']]⟩

def flagEntity : Entity := ⟨"flag", [['b', 'o', 'o', 'l', 'e', 'a', 'n', '_', 'x'], ['x']]⟩

/-- The name `SeqAndGtName`. -/
theorem parseChain_seqAndGtName :
    parseChain [itemEntity] itemEntity
        (chainName (.plain ['s', 'e', 'q']) [(.and, .leading .gt ['n', 'a', 'm', 'e'])]) =
      .ok (chainKeys (.plain ['s', 'e', 'q']) [(.and, .leading .gt ['n', 'a', 'm', 'e'])]) := by
  have hnamed : itemEntity.Named := ⟨by decide +kernel, by decide +kernel, by decide +kernel⟩
  have hfirst : (CondKey.plain ['s', 'e', 'q']).Over itemEntity :=
    ⟨by decide +kernel, by decide, by simp⟩
  have hsecond : (CondKey.leading .gt ['n', 'a', 'm', 'e']).Over itemEntity :=
    ⟨by decide +kernel, by decide, by simp⟩
  have hrest : ∀ k ∈ [(Connector.and, CondKey.leading .gt ['n', 'a', 'm', 'e'])],
      k.2.Over itemEntity := by simpa using hsecond
  refine (parseChain_chainName_iff hnamed hfirst hrest).mpr ⟨id, ?_⟩
  simp [CondKey.ReadsBoolean]

/-- A full-text key over a column whose form starts with the word `Boolean` is read in Boolean mode
over another column. -/
theorem parseChain_fulltext_fails :
    flagEntity.Named ∧
      (CondKey.fulltext [['b', 'o', 'o', 'l', 'e', 'a', 'n', '_', 'x']]).Over flagEntity ∧
      parseChain [flagEntity] flagEntity
          (chainName (.fulltext [['b', 'o', 'o', 'l', 'e', 'a', 'n', '_', 'x']]) []) =
        .ok [⟨"", "fulltext_boolean", [], [['x']], []⟩] := by
  refine ⟨⟨by decide +kernel, by decide +kernel, by decide +kernel⟩,
    ⟨by decide +kernel, by decide, by simp⟩, ?_⟩
  rfl

end Chains

end Orm.Client.Chain
