import Orm.Logic.Separated
import Orm.Dbspec.PlanText

/-! The texts that the plan reader accepts: one form of every line, and the header in any order. -/
namespace Orm.Dbspec

open Orm.Logic

section Texts
variable {sep : Char} {s : String} {parts lines : List String}

/-- The parts with a character between them. -/
def joinText (sep : Char) (parts : List String) : String :=
  String.ofList (List.intercalate [sep] (parts.map String.toList))

theorem joinText_singleton (sep : Char) (a : String) : joinText sep [a] = a := by
  simp [joinText]

theorem joinText_cons (sep : Char) (a b : String) (rest : List String) :
    joinText sep (a :: b :: rest) = a ++ String.ofList [sep] ++ joinText sep (b :: rest) := by
  apply String.toList_inj.mp
  simp only [joinText, List.map_cons, List.intercalate_cons_cons, String.toList_append,
    String.toList_ofList]

theorem joinText_split (sep : Char) (s : String) : joinText sep (splitText sep s) = s := by
  unfold joinText splitText
  rw [List.map_map]
  have hid : (s.toList.splitOn sep).map (String.toList ∘ String.ofList) = s.toList.splitOn sep :=
    (List.map_congr_left fun l _ => String.toList_ofList).trans (List.map_id _)
  rw [hid, List.intercalate_splitOn, String.ofList_toList]

theorem splitText_join (hne : parts ≠ []) (h : ∀ p ∈ parts, sep ∉ p.toList) :
    splitText sep (joinText sep parts) = parts := by
  unfold joinText splitText
  rw [String.toList_ofList, List.splitOn_intercalate sep _ (by simpa using hne), List.map_map]
  · exact (List.map_congr_left fun p _ => String.ofList_toList).trans (List.map_id _)
  · intro l hl
    obtain ⟨p, hp, rfl⟩ := List.mem_map.mp hl
    exact h p hp

theorem splitText_parts (hs : splitText sep s = parts) : ∀ p ∈ parts, sep ∉ p.toList := by
  rw [← hs]
  intro p hp
  obtain ⟨l, hl, rfl⟩ := List.mem_map.mp hp
  rw [String.toList_ofList]
  exact not_mem_splitOn _ _ hl

theorem joinLines_toList (hne : lines ≠ []) :
    (joinLines lines).toList = terminated '\n' (lines.map String.toList) := by
  unfold joinLines
  rw [String.toList_append, String.toList_intercalate, ← intercalate_terminated (by simpa using hne)]
  rfl

theorem joinText_concat (hne : lines ≠ []) : joinText '\n' (lines ++ [""]) = joinLines lines := by
  apply String.toList_inj.mp
  rw [joinLines_toList hne, joinText, String.toList_ofList, List.map_append]
  exact intercalate_concat_nil

theorem splitText_joinLines (hne : lines ≠ []) (h : ∀ l ∈ lines, '\n' ∉ l.toList) :
    splitText '\n' (joinLines lines) = lines ++ [""] := by
  rw [← joinText_concat hne]
  refine splitText_join (by simp) fun p hp => ?_
  rcases List.mem_append.mp hp with hp | hp
  · exact h p hp
  · rw [List.mem_singleton.mp hp]
    simp

/-- The lines of a text that ends with a line end. -/
theorem planLines_iff : planLines s = .ok lines ↔
    lines ≠ [] ∧ (∀ l ∈ lines, '\n' ∉ l.toList) ∧ s = joinLines lines := by
  unfold planLines
  constructor
  · intro h
    dsimp only at h
    split at h
    · next hlast =>
      rw [Bool.and_eq_true, decide_eq_true_eq, decide_eq_true_eq] at hlast
      obtain ⟨hlast, hlength⟩ := hlast
      have hlines : splitText '\n' s = lines ++ [""] := by
        rw [← Except.ok.inj h]
        exact (List.dropLast_append_getLast? _ hlast).symm
      have hne : lines ≠ [] := by
        rintro rfl
        rw [hlines] at hlength
        simp at hlength
      refine ⟨hne, fun l hl => splitText_parts hlines l (List.mem_append_left _ hl), ?_⟩
      rw [← joinText_concat hne, ← hlines, joinText_split]
    · cases h
  · rintro ⟨hne, hlines, rfl⟩
    have hlength : 1 < (lines ++ [""]).length := by
      have := List.length_pos_of_ne_nil hne
      simp
      omega
    simp only [splitText_joinLines hne hlines]
    rw [if_pos (by simpa using hlength), List.dropLast_concat]
    rfl

end Texts

section Header
variable {l : HeaderLine} {ls : List HeaderLine} {line s : String} {n : Nat}

def HeaderLine.text : HeaderLine → String
  | .renameTable old new => "rename table " ++ old ++ " " ++ new
  | .renameColumn table old new => "rename column " ++ table ++ "." ++ old ++ " " ++ new
  | .dropTable name => "allow drop table " ++ name
  | .dropColumn table name => "allow drop column " ++ table ++ "." ++ name

/-- The words of a header line. -/
def HeaderLine.words : HeaderLine → List String
  | .renameTable old new => ["rename", "table", old, new]
  | .renameColumn table old new => ["rename", "column", joinText '.' [table, old], new]
  | .dropTable name => ["allow", "drop", "table", name]
  | .dropColumn table name => ["allow", "drop", "column", joinText '.' [table, name]]

theorem HeaderLine.text_words (l : HeaderLine) : l.text = joinText ' ' l.words := by
  have hspace : String.ofList [' '] = " " := rfl
  have hdot : String.ofList ['.'] = "." := rfl
  have htable : "rename table " = "rename" ++ " " ++ "table" ++ " " := by decide
  have hcolumn : "rename column " = "rename" ++ " " ++ "column" ++ " " := by decide
  have hdropTable : "allow drop table " = "allow" ++ " " ++ "drop" ++ " " ++ "table" ++ " " := by
    decide
  have hdropColumn : "allow drop column " = "allow" ++ " " ++ "drop" ++ " " ++ "column" ++ " " := by
    decide
  cases l with
  | renameTable old new =>
    change "rename table " ++ old ++ " " ++ new = joinText ' ' ["rename", "table", old, new]
    rw [htable]
    repeat rw [joinText_cons]
    rw [joinText_singleton, hspace]
    repeat rw [String.append_assoc]
  | renameColumn table old new =>
    change "rename column " ++ table ++ "." ++ old ++ " " ++ new =
      joinText ' ' ["rename", "column", joinText '.' [table, old], new]
    rw [hcolumn]
    repeat rw [joinText_cons]
    rw [joinText_singleton, joinText_singleton, hspace, hdot]
    repeat rw [String.append_assoc]
  | dropTable name =>
    change "allow drop table " ++ name = joinText ' ' ["allow", "drop", "table", name]
    rw [hdropTable]
    repeat rw [joinText_cons]
    rw [joinText_singleton, hspace]
    repeat rw [String.append_assoc]
  | dropColumn table name =>
    change "allow drop column " ++ table ++ "." ++ name =
      joinText ' ' ["allow", "drop", "column", joinText '.' [table, name]]
    rw [hdropColumn]
    repeat rw [joinText_cons]
    rw [joinText_singleton, joinText_singleton, hspace, hdot]
    repeat rw [String.append_assoc]

theorem nameForm_free {c : Char} (h : nameForm s = true) (hc : nameChar c = false) :
    c ∉ s.toList := by
  intro hmem
  rw [nameForm_chars h c hmem] at hc
  cases hc

theorem dotted_join {t c : String} (ht : nameForm t = true) (hc : nameForm c = true) :
    dotted (joinText '.' [t, c]) = some (t, c) := by
  have hsplit : splitText '.' (joinText '.' [t, c]) = [t, c] := by
    refine splitText_join (by simp) fun p hp => ?_
    rcases List.mem_pair.mp hp with rfl | rfl
    · exact nameForm_free ht rfl
    · exact nameForm_free hc rfl
  unfold dotted
  rw [hsplit]
  simp [ht, hc]

theorem dotted_some {t c : String} (h : dotted line = some (t, c)) :
    line = joinText '.' [t, c] ∧ nameForm t = true ∧ nameForm c = true := by
  unfold dotted at h
  split at h
  · next table name hsplit =>
    split at h
    · next hforms =>
      obtain ⟨rfl, rfl⟩ := Prod.mk.inj (Option.some.inj h)
      rw [Bool.and_eq_true] at hforms
      exact ⟨by rw [← hsplit, joinText_split], hforms⟩
    · cases h
  · cases h

theorem headerLine_text (h : ∀ n ∈ l.names, nameForm n = true) : headerLine l.text = some l := by
  have hspace : ∀ n ∈ l.names, ' ' ∉ n.toList := fun n hn => nameForm_free (h n hn) rfl
  have hdot : ∀ t c : String, ' ' ∉ t.toList → ' ' ∉ c.toList →
      ' ' ∉ (joinText '.' [t, c]).toList := by
    intro t c ht hc
    rw [joinText, String.toList_ofList]
    refine not_mem_intercalate (by decide) fun p hp => ?_
    obtain ⟨q, hq, rfl⟩ := List.mem_map.mp hp
    rcases List.mem_pair.mp hq with rfl | rfl
    · exact ht
    · exact hc
  have hsplit : splitText ' ' l.text = l.words := by
    rw [l.text_words]
    refine splitText_join (by cases l <;> simp [HeaderLine.words]) fun p hp => ?_
    cases l with
    | renameTable old new =>
      simp only [HeaderLine.words, List.mem_cons, List.not_mem_nil, or_false] at hp
      rcases hp with rfl | rfl | rfl | rfl
      · simp
      · simp
      · exact hspace _ (by simp [HeaderLine.names])
      · exact hspace _ (by simp [HeaderLine.names])
    | renameColumn table old new =>
      simp only [HeaderLine.words, List.mem_cons, List.not_mem_nil, or_false] at hp
      rcases hp with rfl | rfl | rfl | rfl
      · simp
      · simp
      · exact hdot _ _ (hspace _ (by simp [HeaderLine.names])) (hspace _ (by simp [HeaderLine.names]))
      · exact hspace _ (by simp [HeaderLine.names])
    | dropTable name =>
      simp only [HeaderLine.words, List.mem_cons, List.not_mem_nil, or_false] at hp
      rcases hp with rfl | rfl | rfl | rfl
      · simp
      · simp
      · simp
      · exact hspace _ (by simp [HeaderLine.names])
    | dropColumn table name =>
      simp only [HeaderLine.words, List.mem_cons, List.not_mem_nil, or_false] at hp
      rcases hp with rfl | rfl | rfl | rfl
      · simp
      · simp
      · simp
      · exact hdot _ _ (hspace _ (by simp [HeaderLine.names])) (hspace _ (by simp [HeaderLine.names]))
  unfold headerLine
  rw [hsplit]
  cases l with
  | renameTable old new =>
    simp [HeaderLine.words, h old (by simp [HeaderLine.names]), h new (by simp [HeaderLine.names])]
  | renameColumn table old new =>
    simp [HeaderLine.words, h new (by simp [HeaderLine.names]),
      dotted_join (h table (by simp [HeaderLine.names])) (h old (by simp [HeaderLine.names]))]
  | dropTable name => simp [HeaderLine.words, h name (by simp [HeaderLine.names])]
  | dropColumn table name =>
    simp [HeaderLine.words,
      dotted_join (h table (by simp [HeaderLine.names])) (h name (by simp [HeaderLine.names]))]

theorem headerLine_some (h : headerLine line = some l) :
    line = l.text ∧ ∀ n ∈ l.names, nameForm n = true := by
  rw [l.text_words]
  unfold headerLine at h
  have hline : ∀ words, splitText ' ' line = words → line = joinText ' ' words := by
    rintro _ rfl
    exact (joinText_split ' ' line).symm
  split at h
  · next old new hsplit =>
    split at h
    · next hforms =>
      obtain rfl := Option.some.inj h
      rw [Bool.and_eq_true] at hforms
      refine ⟨hline _ hsplit, ?_⟩
      simpa [HeaderLine.names] using hforms
    · cases h
  · next column new hsplit =>
    split at h
    · next hform =>
      obtain ⟨⟨t, c⟩, hdotted, rfl⟩ := Option.map_eq_some_iff.mp h
      obtain ⟨rfl, ht, hc⟩ := dotted_some hdotted
      refine ⟨hline _ hsplit, ?_⟩
      simpa [HeaderLine.names] using ⟨ht, hc, hform⟩
    · cases h
  · next name hsplit =>
    split at h
    · next hform =>
      obtain rfl := Option.some.inj h
      refine ⟨hline _ hsplit, ?_⟩
      simpa [HeaderLine.names] using hform
    · cases h
  · next column hsplit =>
    obtain ⟨⟨t, c⟩, hdotted, rfl⟩ := Option.map_eq_some_iff.mp h
    obtain ⟨rfl, ht, hc⟩ := dotted_some hdotted
    refine ⟨hline _ hsplit, ?_⟩
    simpa [HeaderLine.names] using ⟨ht, hc⟩
  · cases h

theorem filterMap_cons_toList {α β : Type} (f : α → Option β) (a : α) (as : List α) :
    (a :: as).filterMap f = (f a).toList ++ as.filterMap f := by
  cases h : f a <;> simp [h]

/-- The name that a rename gives. -/
def HeaderLine.key : HeaderLine → Option String
  | .renameTable _ new => some ("table " ++ new)
  | .renameColumn table _ new => some ("column " ++ table ++ "." ++ new)
  | _ => none

def HeaderLine.tableRename : HeaderLine → Option TableRename
  | .renameTable old new => some ⟨old, new⟩
  | _ => none

def HeaderLine.columnRename : HeaderLine → Option ColumnRename
  | .renameColumn table old new => some ⟨table, old, new⟩
  | _ => none

def HeaderLine.droppedTable : HeaderLine → Option String
  | .dropTable name => some name
  | _ => none

def HeaderLine.droppedColumn : HeaderLine → Option ColumnName
  | .dropColumn table name => some ⟨table, name⟩
  | _ => none

/-- What a header line adds. -/
def Header.push (h : Header) (n : Nat) (l : HeaderLine) : Header where
  renameTables := h.renameTables ++ l.tableRename.toList
  renameColumns := h.renameColumns ++ l.columnRename.toList
  dropTables := h.dropTables ++ l.droppedTable.toList
  dropColumns := h.dropColumns ++ l.droppedColumn.toList
  seen := (l.text, n) :: h.seen
  given := l.key.toList.map (·, n) ++ h.given

def HeaderLine.Named (l : HeaderLine) : Prop := ∀ n ∈ l.names, validName n = true

theorem HeaderLine.Named.read (h : l.Named) : headerLine l.text = some l :=
  headerLine_text fun n hn => validName_form (h n hn)

theorem refuseNames_iff {names : List String} : refuseNames n names = .ok () ↔
    ∀ m ∈ names, m ∉ reserved ∧ m.utf8ByteSize ≤ maxNameBytes := by
  have hfind : planNames names = none ↔ ∀ m ∈ names, m ∉ reserved ∧ m.utf8ByteSize ≤ maxNameBytes := by
    simp [planNames, List.find?_eq_none]
  unfold refuseNames
  split
  · next message hsome =>
    rw [← hfind, hsome]
    exact ⟨nofun, nofun⟩
  · next hnone => exact ⟨fun _ => hfind.mp hnone, fun _ => rfl⟩

theorem refuseAgain_iff {keys : List (String × Nat)} {key : String} {message : Nat → String} :
    refuseAgain keys key n message = .ok () ↔ key ∉ keys.map Prod.fst := by
  refine ⟨refuseAgain_ok, fun h => ?_⟩
  have hnone : keys.lookup key = none := by
    rw [List.lookup_eq_none_iff]
    intro e he
    rw [bne_iff_ne]
    rintro rfl
    exact h (List.mem_map_of_mem he)
  unfold refuseAgain
  rw [hnone]
  rfl

theorem named_iff : l.Named ↔ (∀ n ∈ l.names, nameForm n = true) ∧
    ∀ m ∈ l.names, m ∉ reserved ∧ m.utf8ByteSize ≤ maxNameBytes := by
  unfold HeaderLine.Named validName
  simp only [Bool.and_eq_true, decide_eq_true_eq]
  constructor
  · intro h
    exact ⟨fun n hn => (h n hn).1.1, fun n hn => ⟨(h n hn).1.2, (h n hn).2⟩⟩
  · rintro ⟨hform, hname⟩ n hn
    exact ⟨⟨hform n hn, (hname n hn).1⟩, (hname n hn).2⟩

/-- What reading one header line can do. -/
theorem Header.add_iff {h h' : Header} : h.add n line = .ok h' ↔
    ∃ l : HeaderLine, line = l.text ∧ l.Named ∧ line ∉ h.seen.map Prod.fst ∧
      (∀ k ∈ l.key, k ∉ h.given.map Prod.fst) ∧ h' = h.push n l := by
  constructor
  · intro hadd
    unfold Header.add at hadd
    obtain ⟨_, hseen, hadd⟩ := ok_bind.mp hadd
    have hseen := refuseAgain_ok hseen
    split at hadd
    · cases hadd
    · next old new hline =>
      obtain ⟨_, hnames, hadd⟩ := ok_bind.mp hadd
      obtain ⟨_, hnew, hadd⟩ := ok_bind.mp hadd
      obtain ⟨htext, hforms⟩ := headerLine_some hline
      refine ⟨_, htext, named_iff.mpr ⟨hforms, refuseNames_iff.mp hnames⟩, hseen, ?_, ?_⟩
      · rintro _ ⟨⟩
        exact refuseAgain_ok hnew
      · cases hadd
        simp [Header.push, HeaderLine.tableRename, HeaderLine.columnRename, HeaderLine.droppedTable,
          HeaderLine.droppedColumn, HeaderLine.key, htext]
    · next table old new hline =>
      obtain ⟨_, hnames, hadd⟩ := ok_bind.mp hadd
      obtain ⟨_, hnew, hadd⟩ := ok_bind.mp hadd
      obtain ⟨htext, hforms⟩ := headerLine_some hline
      refine ⟨_, htext, named_iff.mpr ⟨hforms, refuseNames_iff.mp hnames⟩, hseen, ?_, ?_⟩
      · rintro _ ⟨⟩
        exact refuseAgain_ok hnew
      · cases hadd
        simp [Header.push, HeaderLine.tableRename, HeaderLine.columnRename, HeaderLine.droppedTable,
          HeaderLine.droppedColumn, HeaderLine.key, htext]
    · next name hline =>
      obtain ⟨_, hnames, hadd⟩ := ok_bind.mp hadd
      obtain ⟨htext, hforms⟩ := headerLine_some hline
      refine ⟨_, htext, named_iff.mpr ⟨hforms, refuseNames_iff.mp hnames⟩, hseen, nofun, ?_⟩
      cases hadd
      simp [Header.push, HeaderLine.tableRename, HeaderLine.columnRename, HeaderLine.droppedTable,
        HeaderLine.droppedColumn, HeaderLine.key, htext]
    · next table name hline =>
      obtain ⟨_, hnames, hadd⟩ := ok_bind.mp hadd
      obtain ⟨htext, hforms⟩ := headerLine_some hline
      refine ⟨_, htext, named_iff.mpr ⟨hforms, refuseNames_iff.mp hnames⟩, hseen, nofun, ?_⟩
      cases hadd
      simp [Header.push, HeaderLine.tableRename, HeaderLine.columnRename, HeaderLine.droppedTable,
        HeaderLine.droppedColumn, HeaderLine.key, htext]
  · rintro ⟨l, rfl, hnamed, hseen, hkey, rfl⟩
    have hnames := (named_iff.mp hnamed).2
    unfold Header.add
    refine ok_bind.mpr ⟨(), refuseAgain_iff.mpr hseen, ?_⟩
    rw [hnamed.read]
    cases l with
    | renameTable old new =>
      refine ok_bind.mpr ⟨(), refuseNames_iff.mpr hnames, ?_⟩
      refine ok_bind.mpr ⟨(), refuseAgain_iff.mpr (hkey _ rfl), ?_⟩
      simp [Header.push, HeaderLine.tableRename, HeaderLine.columnRename, HeaderLine.droppedTable,
        HeaderLine.droppedColumn, HeaderLine.key, pure, Except.pure]
    | renameColumn table old new =>
      refine ok_bind.mpr ⟨(), refuseNames_iff.mpr hnames, ?_⟩
      refine ok_bind.mpr ⟨(), refuseAgain_iff.mpr (hkey _ rfl), ?_⟩
      simp [Header.push, HeaderLine.tableRename, HeaderLine.columnRename, HeaderLine.droppedTable,
        HeaderLine.droppedColumn, HeaderLine.key, pure, Except.pure]
    | dropTable name =>
      refine ok_bind.mpr ⟨(), refuseNames_iff.mpr hnames, ?_⟩
      simp [Header.push, HeaderLine.tableRename, HeaderLine.columnRename, HeaderLine.droppedTable,
        HeaderLine.droppedColumn, HeaderLine.key, pure, Except.pure]
    | dropColumn table name =>
      refine ok_bind.mpr ⟨(), refuseNames_iff.mpr hnames, ?_⟩
      simp [Header.push, HeaderLine.tableRename, HeaderLine.columnRename, HeaderLine.droppedTable,
        HeaderLine.droppedColumn, HeaderLine.key, pure, Except.pure]

/-- The header after lines that stand from line `n` on. -/
def Header.pushAll (h : Header) (n : Nat) : List HeaderLine → Header
  | [] => h
  | l :: ls => (h.push n l).pushAll (n + 1) ls

/-- Lines that a header takes: named well, apart from each other and giving each name once. -/
structure Header.Takes (h : Header) (ls : List HeaderLine) : Prop where
  named : ∀ l ∈ ls, l.Named
  lines : (ls.map HeaderLine.text).Nodup
  keys : (ls.filterMap HeaderLine.key).Nodup
  unseen : ∀ l ∈ ls, l.text ∉ h.seen.map Prod.fst
  fresh : ∀ k ∈ ls.filterMap HeaderLine.key, k ∉ h.given.map Prod.fst

theorem Header.takes_nil (h : Header) : h.Takes [] :=
  ⟨nofun, List.nodup_nil, List.nodup_nil, nofun, nofun⟩

theorem Header.takes_cons {h : Header} : h.Takes (l :: ls) ↔ (l.Named ∧ l.text ∉ h.seen.map Prod.fst ∧
    (∀ k ∈ l.key, k ∉ h.given.map Prod.fst)) ∧ (h.push n l).Takes ls := by
  have hgiven : (h.push n l).given.map Prod.fst = l.key.toList ++ h.given.map Prod.fst := by
    cases hkey : l.key <;> simp [Header.push, hkey]
  have hseen : (h.push n l).seen.map Prod.fst = l.text :: h.seen.map Prod.fst := rfl
  have hkeys := filterMap_cons_toList HeaderLine.key l ls
  constructor
  · intro htakes
    have hnodup := htakes.keys
    rw [hkeys, List.nodup_append] at hnodup
    have hlines := htakes.lines
    rw [List.map_cons, List.nodup_cons] at hlines
    refine ⟨⟨htakes.named l List.mem_cons_self, htakes.unseen l List.mem_cons_self, ?_⟩, ?_⟩
    · intro k hk
      refine htakes.fresh k ?_
      rw [hkeys]
      exact List.mem_append_left _ (Option.mem_toList.mpr hk)
    · refine ⟨fun m hm => htakes.named m (List.mem_cons_of_mem _ hm), hlines.2, hnodup.2.1, ?_, ?_⟩
      · intro m hm
        rw [hseen, List.mem_cons, not_or]
        refine ⟨fun heq => hlines.1 ?_, htakes.unseen m (List.mem_cons_of_mem _ hm)⟩
        rw [← heq]
        exact List.mem_map_of_mem hm
      · intro k hk
        rw [hgiven, List.mem_append, not_or]
        refine ⟨fun hmem => hnodup.2.2 k hmem k hk rfl, htakes.fresh k ?_⟩
        rw [hkeys]
        exact List.mem_append_right _ hk
  · rintro ⟨⟨hnamed, hunseen, hfresh⟩, htakes⟩
    refine ⟨?_, ?_, ?_, ?_, ?_⟩
    · exact List.forall_mem_cons.mpr ⟨hnamed, htakes.named⟩
    · rw [List.map_cons, List.nodup_cons]
      refine ⟨fun hmem => ?_, htakes.lines⟩
      obtain ⟨m, hm, heq⟩ := List.mem_map.mp hmem
      refine htakes.unseen m hm ?_
      rw [hseen, heq]
      exact List.mem_cons_self
    · rw [hkeys, List.nodup_append]
      refine ⟨?_, htakes.keys, ?_⟩
      · cases l.key <;> simp
      · rintro k hk _ hk' rfl
        refine htakes.fresh k hk' ?_
        rw [hgiven]
        exact List.mem_append_left _ hk
    · refine List.forall_mem_cons.mpr ⟨hunseen, fun m hm hmem => htakes.unseen m hm ?_⟩
      rw [hseen]
      exact List.mem_cons_of_mem _ hmem
    · intro k hk
      rw [hkeys, List.mem_append] at hk
      rcases hk with hk | hk
      · exact hfresh k (Option.mem_toList.mp hk)
      · intro hmem
        refine htakes.fresh k hk ?_
        rw [hgiven]
        exact List.mem_append_right _ hmem

/-- What reading the header lines can do. -/
theorem Header.read_iff {h h' : Header} {m : Nat} {lines rest : List String} :
    h.read n lines = .ok (h', m, rest) ↔ ∃ ls, lines = ls.map HeaderLine.text ++ "" :: rest ∧
      h.Takes ls ∧ h' = h.pushAll n ls ∧ m = n + ls.length := by
  induction lines generalizing h n with
  | nil =>
    refine ⟨nofun, ?_⟩
    rintro ⟨ls, hlines, _⟩
    simp at hlines
  | cons line lines ih =>
    unfold Header.read
    by_cases hblank : line = ""
    · rw [if_pos hblank]
      constructor
      · intro hread
        cases hread
        exact ⟨[], by rw [hblank]; rfl, Header.takes_nil _, rfl, rfl⟩
      · rintro ⟨ls, hlines, htakes, hh, hm⟩
        cases ls with
        | nil =>
          obtain rfl := (List.cons.inj hlines).2
          subst hh
          subst hm
          rfl
        | cons l ls =>
          have hempty : l.text = "" := by
            rw [← hblank]
            exact (List.cons.inj hlines).1.symm
          have hread := (htakes.named l List.mem_cons_self).read
          rw [hempty] at hread
          cases hread
    · rw [if_neg hblank]
      constructor
      · intro hread
        obtain ⟨h₁, hadd, hread⟩ := ok_bind.mp hread
        obtain ⟨l, rfl, hnamed, hseen, hkey, rfl⟩ := Header.add_iff.mp hadd
        obtain ⟨ls, rfl, htakes, rfl, rfl⟩ := ih.mp hread
        refine ⟨l :: ls, rfl, Header.takes_cons.mpr ⟨⟨hnamed, hseen, hkey⟩, htakes⟩, rfl, ?_⟩
        rw [List.length_cons]
        omega
      · rintro ⟨ls, hlines, htakes, rfl, rfl⟩
        cases ls with
        | nil => exact absurd (List.cons.inj hlines).1 hblank
        | cons l ls =>
          obtain ⟨rfl, rfl⟩ := List.cons.inj hlines
          obtain ⟨⟨hnamed, hseen, hkey⟩, htakes⟩ := (Header.takes_cons (n := n)).mp htakes
          refine ok_bind.mpr ⟨_, Header.add_iff.mpr ⟨l, rfl, hnamed, hseen, hkey, rfl⟩, ?_⟩
          refine ih.mpr ⟨ls, rfl, htakes, rfl, ?_⟩
          rw [List.length_cons]
          omega

/-- The renames and permissions of lines. -/
theorem Header.pushAll_lists (h : Header) (n : Nat) (ls : List HeaderLine) :
    (h.pushAll n ls).renameTables = h.renameTables ++ ls.filterMap HeaderLine.tableRename ∧
    (h.pushAll n ls).renameColumns = h.renameColumns ++ ls.filterMap HeaderLine.columnRename ∧
    (h.pushAll n ls).dropTables = h.dropTables ++ ls.filterMap HeaderLine.droppedTable ∧
    (h.pushAll n ls).dropColumns = h.dropColumns ++ ls.filterMap HeaderLine.droppedColumn := by
  induction ls generalizing h n with
  | nil => simp [Header.pushAll]
  | cons l ls ih =>
    obtain ⟨htables, hcolumns, hdropTables, hdropColumns⟩ := ih (h.push n l) (n + 1)
    unfold Header.pushAll
    rw [htables, hcolumns, hdropTables, hdropColumns, filterMap_cons_toList, filterMap_cons_toList,
      filterMap_cons_toList, filterMap_cons_toList]
    exact ⟨List.append_assoc .., List.append_assoc .., List.append_assoc .., List.append_assoc ..⟩

end Header

section Document
variable {digest : String → String} {r : SchemaReader digest} {text : String} {p : Plan}
  {ls : List HeaderLine} {rest : List String}

def fromText (from_ : Option String) : String := from_.getD "empty"

/-- The lines of a plan document. -/
def documentLines (p : Plan) (ls : List HeaderLine) (rest : List String) : List String :=
  ("dbplan 1 " ++ p.name) :: ("from " ++ fromText p.from_) :: (ls.map HeaderLine.text ++ "" :: rest)

/-- Lines that are the canonical text of a schema document. -/
structure Target (r : SchemaReader digest) (rest : List String) (schema : Document) : Prop where
  uses : ∀ line ∈ rest, "use ".toList.isPrefixOf line.toList = false
  parsed : ∃ h, r.parseDbspec (joinLines rest) = .ok ⟨schema, h⟩
  schemaText : r.isSchemaText schema = true
  canonical : r.emitDbspec schema = joinLines rest

/-- A text with these header lines and this target is a document of the plan. -/
structure PlanForm (r : SchemaReader digest) (text : String) (p : Plan) (ls : List HeaderLine)
    (rest : List String) : Prop where
  text : text = joinLines (documentLines p ls rest)
  free : ∀ line ∈ documentLines p ls rest, '\n' ∉ line.toList
  name : planName ("dbplan 1 " ++ p.name) = some p.name
  source : planFrom ("from " ++ fromText p.from_) = some p.from_
  takes : Header.empty.Takes ls
  renameTables : p.renameTables = ls.filterMap HeaderLine.tableRename
  renameColumns : p.renameColumns = ls.filterMap HeaderLine.columnRename
  dropTables : p.dropTables = ls.filterMap HeaderLine.droppedTable
  dropColumns : p.dropColumns = ls.filterMap HeaderLine.droppedColumn
  target : Target r rest p.schema
  moves : some p.to ≠ p.from_

theorem planName_some {line name : String} (h : planName line = some name) :
    line = "dbplan 1 " ++ name := by
  unfold planName at h
  split at h
  · next name' hsplit =>
    split at h
    · obtain rfl := Option.some.inj h
      rw [← joinText_split ' ' line, hsplit, joinText_cons, joinText_cons, joinText_singleton]
      have hwords : "dbplan 1 " = "dbplan" ++ " " ++ ("1" ++ " ") := by decide
      have hspace : String.ofList [' '] = " " := rfl
      rw [hspace, hwords]
      repeat rw [String.append_assoc]
    · cases h
  · cases h

theorem planFrom_some {line : String} {from_ : Option String} (h : planFrom line = some from_) :
    line = "from " ++ fromText from_ := by
  have hwords : "from " = "from" ++ " " := by decide
  have hspace : String.ofList [' '] = " " := rfl
  have hline : ∀ word, splitText ' ' line = ["from", word] → line = "from " ++ word := by
    intro word hsplit
    rw [← joinText_split ' ' line, hsplit, joinText_cons, joinText_singleton, hspace, hwords]
  unfold planFrom at h
  split at h
  · next hsplit =>
    obtain rfl := Option.some.inj h
    exact hline _ hsplit
  · next hash _ hsplit =>
    split at h
    · split at h
      · obtain rfl := Option.some.inj h
        exact hline _ hsplit
      · cases h
    · cases h
  · cases h

theorem refuseUses_iff {n : Nat} : refuseUses n rest = .ok () ↔
    ∀ line ∈ rest, "use ".toList.isPrefixOf line.toList = false := by
  induction rest generalizing n with
  | nil => exact ⟨fun _ => nofun, fun _ => rfl⟩
  | cons line rest ih =>
    unfold refuseUses
    by_cases huse : "use ".toList.isPrefixOf line.toList = true
    · rw [if_pos huse]
      refine ⟨nofun, fun h => ?_⟩
      rw [h line List.mem_cons_self] at huse
      cases huse
    · rw [if_neg huse, ih, List.forall_mem_cons, Bool.not_eq_true] at *
      exact ⟨fun h => ⟨huse, h⟩, fun h => h.2⟩

theorem one_of_ok {α : Type} {x : Except Diagnostic α} {a : α} (h : x = .ok a) : one x = .ok a := by
  rw [h]
  rfl

/-- The texts that the reader accepts, and their plans. -/
theorem parsePlan_iff : parsePlan r text = .ok p ↔ ∃ ls rest, PlanForm r text p ls rest := by
  constructor
  · intro h
    unfold parsePlan at h
    obtain ⟨lines, hlines, hread⟩ := ok_bind.mp h
    obtain ⟨_, hfree, htext⟩ := planLines_iff.mp (one_ok hlines)
    split at hread
    · next name hname =>
      split at hread
      · next from_ hfrom =>
        obtain ⟨⟨header, offset, rest⟩, hheader, hread⟩ := ok_bind.mp hread
        obtain ⟨_, huses, hread⟩ := ok_bind.mp hread
        dsimp only at hread
        split at hread
        · cases hread
        · next schema hvalid hschema =>
          split at hread
          · cases hread
          · next hcanonical =>
            have hplan := one_ok hread
            unfold planTo at hplan
            split at hplan
            · cases hplan
            · next hmoves =>
              cases hplan
              obtain ⟨ls, hdrop, htakes, rfl, _⟩ := Header.read_iff.mp (one_ok hheader)
              obtain ⟨first, second, rfl⟩ : ∃ first second,
                  lines = first :: second :: (ls.map HeaderLine.text ++ "" :: rest) := by
                match lines, hdrop with
                | first :: second :: tail, hdrop => exact ⟨first, second, by rw [← hdrop]; rfl⟩
                | [first], hdrop => simp at hdrop
                | [], hdrop => simp at hdrop
              have hfirst := planName_some hname
              have hsecond := planFrom_some hfrom
              subst hfirst
              subst hsecond
              obtain ⟨htables, hcolumns, hdropTables, hdropColumns⟩ :=
                Header.pushAll_lists Header.empty 3 ls
              simp only [Bool.or_eq_true, not_or, Bool.not_eq_true', Bool.not_eq_false,
                decide_eq_true_eq, not_not] at hcanonical
              exact ⟨ls, rest, htext, hfree, hname, hfrom, htakes, htables, hcolumns, hdropTables,
                hdropColumns, ⟨refuseUses_iff.mp (one_ok huses), ⟨hvalid, hschema⟩, hcanonical.1,
                  hcanonical.2⟩, hmoves⟩
      · cases hread
    · cases hread
  · rintro ⟨ls, rest, h⟩
    obtain ⟨hvalid, hschema⟩ := h.target.parsed
    have hlines : planLines text = .ok (documentLines p ls rest) :=
      planLines_iff.mpr ⟨List.cons_ne_nil _ _, h.free, h.text⟩
    have hheader : Header.empty.read 3 ((documentLines p ls rest).drop 2) =
        .ok (Header.empty.pushAll 3 ls, 3 + ls.length, rest) :=
      Header.read_iff.mpr ⟨ls, rfl, h.takes, rfl, rfl⟩
    have huses : refuseUses (3 + ls.length) rest = .ok () := refuseUses_iff.mpr h.target.uses
    obtain ⟨htables, hcolumns, hdropTables, hdropColumns⟩ := Header.pushAll_lists Header.empty 3 ls
    have hname : (documentLines p ls rest).head?.bind planName = some p.name := h.name
    have hfrom : (documentLines p ls rest)[1]?.bind planFrom = some p.from_ := h.source
    unfold parsePlan
    refine ok_bind.mpr ⟨_, one_of_ok hlines, ?_⟩
    rw [hname, hfrom]
    refine ok_bind.mpr ⟨_, one_of_ok hheader, ?_⟩
    refine ok_bind.mpr ⟨_, one_of_ok huses, ?_⟩
    have htarget : (!r.isSchemaText p.schema || decide (r.emitDbspec p.schema ≠ joinLines rest)) =
        false := by
      rw [h.target.schemaText, h.target.canonical]
      simp
    have hplan : (⟨p.name, p.from_, (Header.empty.pushAll 3 ls).renameTables,
        (Header.empty.pushAll 3 ls).renameColumns, (Header.empty.pushAll 3 ls).dropTables,
        (Header.empty.pushAll 3 ls).dropColumns, p.schema⟩ : Plan) = p := by
      rw [htables.trans h.renameTables.symm, hcolumns.trans h.renameColumns.symm,
        hdropTables.trans h.dropTables.symm, hdropColumns.trans h.dropColumns.symm]
    simp only [hschema, htarget, Bool.false_eq_true, if_false]
    rw [hplan]
    exact one_of_ok (if_neg h.moves)

end Document

end Orm.Dbspec
