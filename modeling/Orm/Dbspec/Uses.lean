import Orm.Dbspec.Tokens

/-! The use lines of documents: resolution by recursive parses with a chain and a shared cache. -/
namespace Orm.Dbspec.Uses
open Orm.Dbspec.Tokens Relation

abbrev Name : Type := List UInt16

/-- A use line: the name of the document and where it stands. -/
structure Use where
  name : Name
  line : Nat
  column : Nat
  deriving DecidableEq, Repr

def ruleOrder : List DbspecRule :=
  [.header, .grammar, .order, .nameFormat, .nameLength, .nameDuplicate, .type, .column, .key,
    .foreignKey, .check, .setting, .use, .diagram, .limit, .encoding]

def ruleText : DbspecRule → List UInt16
  | .header => units "header"
  | .grammar => units "syntax"
  | .order => units "order"
  | .nameFormat => units "name.format"
  | .nameLength => units "name.length"
  | .nameDuplicate => units "name.duplicate"
  | .type => units "type"
  | .column => units "column"
  | .key => units "key"
  | .foreignKey => units "foreign_key"
  | .check => units "check"
  | .setting => units "setting"
  | .use => units "use"
  | .diagram => units "diagram"
  | .limit => units "limit"
  | .encoding => units "encoding"

/-- The order of diagnostics: by line, column and rule. -/
def notAfter (a b : RawDiagnostic) : Bool :=
  if a.line ≠ b.line then a.line < b.line
  else if a.column ≠ b.column then a.column < b.column
  else ruleOrder.idxOf a.rule ≤ ruleOrder.idxOf b.rule

/-- The diagnostics of a parse in order; one that stopped it stays last. -/
def arrange (halted : Bool) (found : List RawDiagnostic) : List RawDiagnostic :=
  if halted then found.dropLast.mergeSort notAfter ++ found.getLast?.toList
  else found.mergeSort notAfter

/-- What the reader tells of a text besides its use lines: the header name, the uses in the order
of the text, the diagnostics before validation and whether they stopped it, and the document and the
other diagnostics of the validation, which may look at the documents that were resolved. -/
structure Reader (Text Doc : Type) where
  wellFormed : Name → Bool
  header : Text → Name
  uses : Text → List Use
  structural : Text → List RawDiagnostic
  halted : Text → Bool
  halted_reports : ∀ t, halted t = true → structural t ≠ []
  document : Text → List (Use × Option Doc) → Doc
  others : Text → List (Use × Option Doc) → List RawDiagnostic

structure Parsed (Doc : Type) where
  diagnostics : List RawDiagnostic
  name : Name
  document : Doc

/-- A question to the resolution: the names of the documents on the path, the name that is used and
whether it resolved. -/
structure Asked where
  chain : List Name
  name : Name
  resolved : Bool
  deriving DecidableEq, Repr

/-- The parses that are cached, and the questions that were asked so far. -/
structure Session (Doc : Type) where
  cache : List (Name × Parsed Doc)
  log : List Asked

section Model
variable {Text Doc : Type}

/-- The answer for a parse of the text of a used document. -/
def judged (use : Use) (parsed : Parsed Doc) : Option Doc × List RawDiagnostic :=
  match parsed.diagnostics with
  | first :: _ =>
    (none, [⟨.use, use.line, use.column, units "document " ++ use.name ++ units " is invalid: " ++
      ruleText first.rule ++ units " at line " ++ units (toString first.line) ++ units " column " ++
      units (toString first.column) ++ units ": " ++ first.message⟩])
  | [] =>
    if parsed.name ≠ use.name then
      (none, [⟨.use, use.line, use.column, units "the declared document " ++ use.name ++
        units " has the header name " ++ parsed.name⟩])
    else (some parsed.document, [])

/-- The document of a use and the diagnostics of the resolution; none where a parse runs out. -/
def answer (documents : List (Name × Text))
    (parse : Text → List Name → Session Doc → Option (Parsed Doc × Session Doc))
    (chain : List Name) (use : Use) (s : Session Doc) :
    Option ((Option Doc × List RawDiagnostic) × Session Doc) :=
  match documents.lookup use.name with
  | none =>
    some ((none, [⟨.use, use.line, use.column,
      units "document " ++ use.name ++ units " is not in the declared document set"⟩]), s)
  | some text =>
    if use.name ∈ chain then
      some ((none, [⟨.use, use.line, use.column,
        units "document " ++ use.name ++ units " uses itself through use lines"⟩]), s)
    else
      match s.cache.lookup use.name with
      | some parsed => some (judged use parsed, s)
      | none =>
        (parse text (chain ++ [use.name]) s).map fun (parsed, s) =>
          (judged use parsed, ⟨(use.name, parsed) :: s.cache, s.log⟩)

/-- A resolution, with its question noted. -/
def resolve (documents : List (Name × Text))
    (parse : Text → List Name → Session Doc → Option (Parsed Doc × Session Doc))
    (chain : List Name) (use : Use) (s : Session Doc) :
    Option ((Option Doc × List RawDiagnostic) × Session Doc) :=
  (answer documents parse chain use s).map fun (found, s) =>
    (found, ⟨s.cache, s.log ++ [⟨chain, use.name, found.1.isSome⟩]⟩)

variable (R : Reader Text Doc)

/-- The use lines of a document, each well-formed name once and never its own. -/
def readUses (ask : Use → Session Doc → Option ((Option Doc × List RawDiagnostic) × Session Doc))
    (own : Name) : List Name → List Use → Session Doc →
      Option ((List (Use × Option Doc) × List RawDiagnostic) × Session Doc)
  | _, [], s => some (([], []), s)
  | seen, use :: uses, s =>
    if !R.wellFormed use.name then readUses ask own seen uses s
    else if use.name ∈ seen then
      (readUses ask own seen uses s).map fun (r, s) =>
        ((r.1, ⟨.nameDuplicate, use.line, use.column,
          units "document " ++ use.name ++ units " is used twice"⟩ :: r.2), s)
    else if use.name = own then
      (readUses ask own (use.name :: seen) uses s).map fun (r, s) =>
        ((r.1, ⟨.use, use.line, use.column,
          units "document " ++ own ++ units " uses itself"⟩ :: r.2), s)
    else
      (ask use s).bind fun (found, s) =>
        (readUses ask own (use.name :: seen) uses s).map fun (r, s) =>
          (((use, found.1) :: r.1, found.2 ++ r.2), s)

/-- The parse of a text, given the names of the documents that use it; none where the nesting of
parses exceeds its bound. -/
def parseText (documents : List (Name × Text)) :
    Nat → Text → List Name → Session Doc → Option (Parsed Doc × Session Doc)
  | 0, _, _, _ => none
  | depth + 1, text, parents, s =>
    let chain := if parents = [] then [R.header text] else parents
    if R.halted text then
      some (⟨arrange true (R.structural text), R.header text, R.document text []⟩, s)
    else
      (readUses R (resolve documents (parseText documents depth) chain) (R.header text) []
        (R.uses text) s).map fun (r, s) =>
          (⟨arrange false (R.structural text ++ r.2 ++ R.others text r.1), R.header text,
            R.document text r.1⟩, s)

/-- A parse of its own, nested at most once for each declared document. -/
def parseDocument (documents : List (Name × Text)) (text : Text) :
    Option (Parsed Doc × Session Doc) :=
  parseText R documents (documents.length + 1) text [] ⟨[], []⟩

end Model

section Graph
variable {Text Doc : Type} (R : Reader Text Doc) (documents : List (Name × Text))

/-- The use lines of a text whose names are well formed. -/
def usesOf (t : Text) : List Use := (R.uses t).filter fun u => R.wellFormed u.name

def names (t : Text) : List Name := (usesOf R t).map Use.name

/-- The use graph of the declared documents. -/
def Edge (n m : Name) : Prop := ∃ t, documents.lookup n = some t ∧ m ∈ names R t

/-- The documents of the use lines of a text. -/
def targets (t : Text) (docs : Name → Doc) : List (Use × Option Doc) :=
  (usesOf R t).map fun u => (u, some (docs u.name))

/-- A text that has no diagnostic once its uses are resolved. -/
structure Plain (t : Text) (docs : Name → Doc) : Prop where
  halted : R.halted t = false
  structural : R.structural t = []
  nodup : (names R t).Nodup
  own : R.header t ∉ names R t
  others : R.others t (targets R t docs) = []

/-- A declared document whose uses all lead to such documents. -/
inductive Clean : Name → Doc → Prop
  | mk {n : Name} {t : Text} {docs : Name → Doc} (declared : documents.lookup n = some t)
      (header : R.header t = n) (plain : Plain R t docs)
      (uses : ∀ m ∈ names R t, Clean m (docs m)) : Clean n (R.document t (targets R t docs))

/-- A document that resolves in the parse of a text with a header name. -/
def Ok (r n : Name) : Prop := ∃ d, Clean R documents n d ∧ ¬ ReflTransGen (Edge R documents) n r

/-- Documents for the uses of a text that let it pass in the parse of a text with a header name. -/
structure Fits (r : Name) (t : Text) (docs : Name → Doc) : Prop where
  plain : Plain R t docs
  uses : ∀ m ∈ names R t, Clean R documents m (docs m) ∧ ¬ ReflTransGen (Edge R documents) m r

/-- A parse whose verdict depends on the text and the graph only. -/
structure Right (r : Name) (t : Text) (p : Parsed Doc) : Prop where
  name : p.name = R.header t
  clean : p.diagnostics = [] ↔ ∃ docs, Fits R documents r t docs
  document : ∀ docs, Fits R documents r t docs → p.document = R.document t (targets R t docs)

/-- A question with the right answer, asked on a path of use lines from the parsed text. -/
structure Fair (r : Name) (e : Asked) : Prop where
  resolved : e.resolved = true ↔ Ok R documents r e.name
  path : ∃ cs, e.chain = r :: cs ∧ ∀ c ∈ cs, TransGen (Edge R documents) c e.name

/-- Every use of a text that is validated was asked. -/
def Asks (s : Session Doc) (t : Text) : Prop :=
  R.halted t = false → ∀ m ∈ names R t, m ≠ R.header t → ∃ e ∈ s.log, e.name = m

/-- A session whose parses are right, whose questions are fair and which followed every question
into the text that it leads to. -/
structure Sound (r : Name) (s : Session Doc) : Prop where
  cached : ∀ n p, s.cache.lookup n = some p →
    ∃ t, documents.lookup n = some t ∧ Right R documents r t p ∧ Asks R s t
  logged : ∀ e ∈ s.log, Fair R documents r e
  followed : ∀ e ∈ s.log, ∀ t, documents.lookup e.name = some t → e.name ∉ e.chain → Asks R s t

/-- An answer that tells whether a name resolves, with its document. -/
structure Answers (r n : Name) (found : Option Doc × List RawDiagnostic) : Prop where
  resolved : found.1.isSome = true ↔ Ok R documents r n
  silent : found.2 = [] ↔ Ok R documents r n
  document : ∀ d, found.1 = some d → Clean R documents n d

end Graph

section Proofs
variable {Text Doc : Type} {R : Reader Text Doc} {documents : List (Name × Text)}
  {n m r : Name} {d : Doc} {t : Text} {p : Parsed Doc}

theorem targets_congr {docs docs' : Name → Doc} (h : ∀ m ∈ names R t, docs m = docs' m) :
    targets R t docs = targets R t docs' := by
  apply List.map_congr_left
  intro u hu
  rw [h u.name (List.mem_map_of_mem hu)]

theorem Clean.unique (h : Clean R documents n d) : ∀ d', Clean R documents n d' → d = d' := by
  induction h with
  | @mk n t docs declared header plain uses ih =>
    intro d' h'
    cases h' with
    | @mk _ t' docs' declared' _ _ uses' =>
      obtain rfl : t = t' := Option.some.inj (declared.symm.trans declared')
      rw [targets_congr fun m hm => ih m hm _ (uses' m hm)]

/-- No clean document is on a cycle of uses. -/
theorem Clean.acyclic (h : Clean R documents n d) : ¬ TransGen (Edge R documents) n n := by
  induction h with
  | @mk n t docs declared header plain uses ih =>
    intro hcycle
    obtain ⟨m, hedge, hback⟩ := TransGen.head'_iff.mp hcycle
    obtain ⟨t', declared', hm⟩ := hedge
    obtain rfl : t = t' := Option.some.inj (declared.symm.trans declared')
    exact ih m hm (TransGen.tail' hback ⟨t, declared, hm⟩)

theorem Clean.edge (h : Clean R documents n d) (he : Edge R documents n m) :
    ∃ d, Clean R documents m d := by
  cases h with
  | @mk _ t docs declared header plain uses =>
    obtain ⟨t', declared', hm⟩ := he
    obtain rfl : t = t' := Option.some.inj (declared.symm.trans declared')
    exact ⟨docs m, uses m hm⟩

theorem Clean.reach (h : Clean R documents n d) (hr : ReflTransGen (Edge R documents) n m) :
    ∃ d, Clean R documents m d := by
  induction hr with
  | refl => exact ⟨d, h⟩
  | tail _ hedge ih =>
    obtain ⟨d, hd⟩ := ih
    exact hd.edge hedge

theorem not_reach_of_edge (h : ¬ ReflTransGen (Edge R documents) n r)
    (he : Edge R documents n m) : ¬ ReflTransGen (Edge R documents) m r :=
  fun hreach => h (hreach.head he)

/-- A declared document other than the parsed text resolves exactly when its parse passes under its
own name. -/
theorem Right.ok_iff (h : Right R documents r t p) (hn : documents.lookup n = some t)
    (hne : n ≠ r) : Ok R documents r n ↔ p.diagnostics = [] ∧ p.name = n := by
  rw [h.clean, h.name]
  constructor
  · rintro ⟨d, hclean, hreach⟩
    cases hclean with
    | @mk _ t' docs declared header plain uses =>
      obtain rfl : t = t' := Option.some.inj (hn.symm.trans declared)
      refine ⟨⟨docs, plain, fun m hm => ⟨uses m hm, ?_⟩⟩, header⟩
      exact not_reach_of_edge hreach ⟨t, hn, hm⟩
  · rintro ⟨⟨docs, hfits⟩, hname⟩
    refine ⟨_, .mk hn hname hfits.plain fun m hm => (hfits.uses m hm).1, ?_⟩
    intro hreach
    rcases ReflTransGen.cases_head hreach with heq | ⟨m, ⟨t', ht', hm⟩, hrest⟩
    · exact hne heq
    · obtain rfl : t = t' := Option.some.inj (hn.symm.trans ht')
      exact (hfits.uses m hm).2 hrest

theorem Right.clean_document (h : Right R documents r t p) (hn : documents.lookup n = some t)
    (hclear : p.diagnostics = []) (hname : p.name = n) : Clean R documents n p.document := by
  obtain ⟨docs, hfits⟩ := h.clean.mp hclear
  rw [h.document docs hfits]
  exact .mk hn (h.name ▸ hname) hfits.plain fun m hm => (hfits.uses m hm).1

theorem judged_answers {use : Use} (h : Right R documents r t p)
    (hn : documents.lookup use.name = some t) (hne : use.name ≠ r) :
    Answers R documents r use.name (judged use p) := by
  have hok := h.ok_iff hn hne
  unfold judged
  cases hdiagnostics : p.diagnostics with
  | cons first rest =>
    have hnot : ¬ Ok R documents r use.name := by
      rw [hok, hdiagnostics]
      simp
    exact ⟨by simp [hnot], by simp [hnot], by simp⟩
  | nil =>
    by_cases hname : p.name = use.name
    · have hyes : Ok R documents r use.name := hok.mpr ⟨hdiagnostics, hname⟩
      simp only [ne_eq, hname, not_true_eq_false, if_false]
      refine ⟨by simp [hyes], by simp [hyes], ?_⟩
      rintro d ⟨⟩
      exact h.clean_document hn hdiagnostics hname
    · have hnot : ¬ Ok R documents r use.name := fun hyes => hname (hok.mp hyes).2
      simp only [ne_eq, hname, not_false_eq_true, if_true]
      exact ⟨by simp [hnot], by simp [hnot], by simp⟩

theorem refused_answers {diagnostic : RawDiagnostic} (h : ¬ Ok R documents r n) :
    Answers R documents r n (none, [diagnostic]) :=
  ⟨by simp [h], by simp [h], by simp⟩

theorem Asks.mono {s s' : Session Doc} (h : Asks R s t) (hlog : s.log ⊆ s'.log) : Asks R s' t := by
  intro hhalted m hm hown
  obtain ⟨e, he, hname⟩ := h hhalted m hm hown
  exact ⟨e, hlog he, hname⟩

theorem Sound.add {s : Session Doc} (hs : Sound R documents r s)
    (hn : documents.lookup n = some t) (hp : Right R documents r t p) (hasks : Asks R s t) :
    Sound R documents r ⟨(n, p) :: s.cache, s.log⟩ := by
  refine ⟨?_, hs.logged, hs.followed⟩
  intro k q hk
  rw [List.lookup_cons] at hk
  split at hk
  · next heq =>
    obtain rfl : k = n := by simpa using heq
    cases hk
    exact ⟨t, hn, hp, hasks⟩
  · exact hs.cached k q hk

/-- A name on the path does not resolve. -/
theorem not_ok_of_mem {cs : List Name} (hpath : ∀ c ∈ cs, TransGen (Edge R documents) c n)
    (hmem : n ∈ r :: cs) : ¬ Ok R documents r n := by
  rintro ⟨d, hclean, hreach⟩
  rcases List.mem_cons.mp hmem with rfl | hmem
  · exact hreach .refl
  · exact hclean.acyclic (hpath n hmem)

section Resolve
variable {parse : Text → List Name → Session Doc → Option (Parsed Doc × Session Doc)}
  {use : Use} {s : Session Doc} {cs : List Name}

/-- An answer is right whenever the parse that it may need is. -/
theorem answer_right (hs : Sound R documents r s)
    (hpath : ∀ c ∈ cs, TransGen (Edge R documents) c use.name)
    (hparse : ∀ t, documents.lookup use.name = some t → use.name ∉ r :: cs →
      ∃ p s', parse t (r :: cs ++ [use.name]) s = some (p, s') ∧ Right R documents r t p ∧
        Sound R documents r s' ∧ Asks R s' t ∧ s.log ⊆ s'.log) :
    ∃ found s', answer documents parse (r :: cs) use s = some (found, s') ∧
      Sound R documents r s' ∧ Answers R documents r use.name found ∧ s.log ⊆ s'.log ∧
      ∀ t, documents.lookup use.name = some t → use.name ∉ r :: cs → Asks R s' t := by
  unfold answer
  cases hdeclared : documents.lookup use.name with
  | none =>
    refine ⟨_, s, rfl, hs, refused_answers ?_, List.Subset.refl _, by simp⟩
    rintro ⟨d, hclean, -⟩
    cases hclean with
    | mk declared => simp [hdeclared] at declared
  | some t =>
    by_cases hmem : use.name ∈ r :: cs
    · simp only [if_pos hmem]
      exact ⟨_, s, rfl, hs, refused_answers (not_ok_of_mem hpath hmem), List.Subset.refl _,
        fun t _ hnot => absurd hmem hnot⟩
    · have hne : use.name ≠ r := fun heq => hmem (by simp [heq])
      simp only [if_neg hmem]
      cases hcache : s.cache.lookup use.name with
      | some p =>
        obtain ⟨t', ht', hp, hasks⟩ := hs.cached _ _ hcache
        obtain rfl : t = t' := Option.some.inj (hdeclared.symm.trans ht')
        refine ⟨_, s, rfl, hs, judged_answers hp ht' hne, List.Subset.refl _, ?_⟩
        rintro _ ⟨⟩ _
        exact hasks
      | none =>
        obtain ⟨p, s', hrun, hp, hs', hasks, hlog⟩ := hparse t hdeclared hmem
        refine ⟨_, _, by rw [hrun]; rfl, hs'.add hdeclared hp hasks,
          judged_answers hp hdeclared hne, hlog, ?_⟩
        rintro _ ⟨⟩ _
        exact hasks

theorem resolve_right (hs : Sound R documents r s)
    (hpath : ∀ c ∈ cs, TransGen (Edge R documents) c use.name)
    (hparse : ∀ t, documents.lookup use.name = some t → use.name ∉ r :: cs →
      ∃ p s', parse t (r :: cs ++ [use.name]) s = some (p, s') ∧ Right R documents r t p ∧
        Sound R documents r s' ∧ Asks R s' t ∧ s.log ⊆ s'.log) :
    ∃ found s', resolve documents parse (r :: cs) use s = some (found, s') ∧
      Sound R documents r s' ∧ Answers R documents r use.name found ∧ s.log ⊆ s'.log ∧
      ∃ e ∈ s'.log, e.name = use.name := by
  obtain ⟨found, s', hrun, hs', hfound, hlog, hasks⟩ := answer_right hs hpath hparse
  have hmore : s'.log ⊆ s'.log ++ [⟨r :: cs, use.name, found.1.isSome⟩] :=
    List.subset_append_left _ _
  refine ⟨found, ⟨s'.cache, s'.log ++ [⟨r :: cs, use.name, found.1.isSome⟩]⟩,
    by rw [resolve, hrun]; rfl, ⟨?_, ?_, ?_⟩, hfound, List.Subset.trans hlog hmore,
    ⟨r :: cs, use.name, found.1.isSome⟩, by simp, rfl⟩
  · intro n p hn
    obtain ⟨t, ht, hp, hasked⟩ := hs'.cached n p hn
    exact ⟨t, ht, hp, hasked.mono hmore⟩
  · intro e he
    rcases List.mem_append.mp he with he | he
    · exact hs'.logged e he
    · rw [List.mem_singleton] at he
      subst he
      exact ⟨hfound.resolved, cs, rfl, hpath⟩
  · intro e he t ht hmem
    rcases List.mem_append.mp he with he | he
    · exact (hs'.followed e he t ht hmem).mono hmore
    · rw [List.mem_singleton] at he
      subst he
      exact (hasks t ht hmem).mono hmore

end Resolve

/-- The use lines are read without a diagnostic exactly when each name is new and resolves, and then
they give the documents of the names. -/
theorem readUses_right
    {ask : Use → Session Doc → Option ((Option Doc × List RawDiagnostic) × Session Doc)}
    (own : Name) (uses : List Use)
    (hask : ∀ u ∈ uses, R.wellFormed u.name = true → ∀ s, Sound R documents r s →
      ∃ found s', ask u s = some (found, s') ∧ Sound R documents r s' ∧
        Answers R documents r u.name found ∧ s.log ⊆ s'.log ∧ ∃ e ∈ s'.log, e.name = u.name)
    (seen : List Name) (s : Session Doc) (hs : Sound R documents r s) :
    ∃ found s', readUses R ask own seen uses s = some (found, s') ∧ Sound R documents r s' ∧
      s.log ⊆ s'.log ∧
      (∀ m ∈ (uses.filter fun u => R.wellFormed u.name).map Use.name, m ∉ seen → m ≠ own →
        ∃ e ∈ s'.log, e.name = m) ∧
      (found.2 = [] ↔
        ((uses.filter fun u => R.wellFormed u.name).map Use.name).Nodup ∧
          ∀ m ∈ (uses.filter fun u => R.wellFormed u.name).map Use.name,
            m ∉ seen ∧ m ≠ own ∧ Ok R documents r m) ∧
      ∀ docs : Name → Doc,
        (∀ m ∈ (uses.filter fun u => R.wellFormed u.name).map Use.name,
          Clean R documents m (docs m)) → found.2 = [] →
        found.1 = (uses.filter fun u => R.wellFormed u.name).map
          fun u => (u, some (docs u.name)) := by
  induction uses generalizing seen s with
  | nil => exact ⟨_, s, rfl, hs, List.Subset.refl _, by simp, by simp, by simp⟩
  | cons u uses ih =>
    have hrest := ih fun v hv => hask v (by simp [hv])
    rw [readUses]
    by_cases hformed : R.wellFormed u.name = true
    · have hfilter : (u :: uses).filter (fun u => R.wellFormed u.name) =
          u :: uses.filter fun u => R.wellFormed u.name := by simp [hformed]
      rw [hfilter]
      simp only [hformed, Bool.not_true, Bool.false_eq_true, if_false, List.map_cons,
        List.nodup_cons, List.forall_mem_cons]
      by_cases hseen : u.name ∈ seen
      · obtain ⟨found, s', hrun, hs', hlog, hasked, -, -⟩ := hrest seen s hs
        exact ⟨_, s', by rw [if_pos hseen, hrun]; rfl, hs', hlog,
          ⟨fun hnew => absurd hseen hnew, hasked⟩, by simp [hseen], by simp⟩
      · rw [if_neg hseen]
        by_cases hown : u.name = own
        · obtain ⟨found, s', hrun, hs', hlog, hasked, -, -⟩ := hrest (u.name :: seen) s hs
          refine ⟨_, s', by rw [if_pos hown, hrun]; rfl, hs', hlog,
            ⟨fun _ hother => absurd hown hother, ?_⟩, by simp [hown], by simp⟩
          intro m hm hnew hother
          refine hasked m hm ?_ hother
          rw [List.mem_cons, not_or]
          exact ⟨fun heq => hother (heq.trans hown), hnew⟩
        · obtain ⟨first, s1, hfirst, hs1, hanswer, hlog1, e, he, hname⟩ :=
            hask u (by simp) hformed s hs
          obtain ⟨found, s', hrun, hs', hlog, hasked, hsilent, hdocs⟩ :=
            hrest (u.name :: seen) s1 hs1
          refine ⟨_, s', by rw [if_neg hown, hfirst, Option.bind_some, hrun]; rfl, hs',
            List.Subset.trans hlog1 hlog, ⟨fun _ _ => ⟨e, hlog he, hname⟩, ?_⟩, ?_, ?_⟩
          · intro m hm hnew hother
            by_cases heq : m = u.name
            · exact ⟨e, hlog he, hname.trans heq.symm⟩
            · exact hasked m hm (by rw [List.mem_cons, not_or]; exact ⟨heq, hnew⟩) hother
          · rw [List.append_eq_nil_iff, hanswer.silent, hsilent]
            constructor
            · rintro ⟨hok, hnodup, hall⟩
              refine ⟨⟨fun hmem => (hall _ hmem).1 (by simp), hnodup⟩, ⟨hseen, hown, hok⟩, ?_⟩
              intro m hm
              have hm' := hall m hm
              exact ⟨fun h => hm'.1 (by simp [h]), hm'.2⟩
            · rintro ⟨⟨hnew, hnodup⟩, ⟨-, -, hok⟩, hall⟩
              refine ⟨hok, hnodup, ?_⟩
              intro m hm
              have hm' := hall m hm
              refine ⟨?_, hm'.2⟩
              rw [List.mem_cons, not_or]
              exact ⟨fun heq => hnew (heq ▸ hm), hm'.1⟩
          · rintro docs ⟨hclean, hcleans⟩ hnil
            rw [List.append_eq_nil_iff] at hnil
            have hok := hanswer.silent.mp hnil.1
            obtain ⟨d, hd⟩ := Option.isSome_iff_exists.mp (hanswer.resolved.mpr hok)
            have hsame := (hanswer.document d hd).unique _ hclean
            show (u, first.1) :: found.1 = _
            rw [hdocs docs hcleans hnil.2, hd, hsame]
    · have hfilter : (u :: uses).filter (fun u => R.wellFormed u.name) =
          uses.filter fun u => R.wellFormed u.name := by simp [hformed]
      rw [hfilter]
      simp only [hformed, Bool.not_false, if_true]
      exact hrest seen s hs

theorem arrange_eq_nil {found : List RawDiagnostic} : arrange false found = [] ↔ found = [] := by
  rw [arrange, if_neg (by simp), ← List.length_eq_zero_iff, List.length_mergeSort,
    List.length_eq_zero_iff]

theorem arrange_halted_ne_nil {found : List RawDiagnostic} (h : found ≠ []) :
    arrange true found ≠ [] := by
  rw [arrange, if_pos rfl, List.getLast?_eq_some_getLast h]
  simp

/-- The declared names that are not on a path. -/
def remaining (documents : List (Name × Text)) (chain : List Name) : Nat :=
  documents.countP fun entry => entry.1 ∉ chain

theorem remaining_lt {chain : List Name} (hn : documents.lookup n = some t) (hmem : n ∉ chain) :
    remaining documents (chain ++ [n]) < remaining documents chain := by
  obtain ⟨before, after, rfl, -⟩ := List.lookup_eq_some_iff.mp hn
  have hle : ∀ l : List (Name × Text),
      remaining l (chain ++ [n]) ≤ remaining l chain := by
    intro l
    apply List.countP_mono_left
    intro entry _ h
    simp only [List.mem_append, not_or, decide_eq_true_eq] at h ⊢
    exact h.1
  have hbefore := hle before
  have hafter := hle after
  simp only [remaining] at hbefore hafter
  simp only [remaining, List.countP_append, List.countP_cons]
  simp [hmem]
  simp at hbefore hafter
  omega

theorem exists_documents (default : Doc) (h : ∀ m ∈ names R t, Ok R documents r m) :
    ∃ docs : Name → Doc, ∀ m ∈ names R t,
      Clean R documents m (docs m) ∧ ¬ ReflTransGen (Edge R documents) m r := by
  have hdoc : ∀ m, ∃ d : Doc, m ∈ names R t →
      Clean R documents m d ∧ ¬ ReflTransGen (Edge R documents) m r := by
    intro m
    by_cases hm : m ∈ names R t
    · obtain ⟨d, hd⟩ := h m hm
      exact ⟨d, fun _ => hd⟩
    · exact ⟨default, fun hm' => absurd hm' hm⟩
  choose docs hdocs using hdoc
  exact ⟨docs, hdocs⟩

theorem fits_silent {docs : Name → Doc} {found : List (Use × Option Doc) × List RawDiagnostic}
    (h : Fits R documents r t docs)
    (hsilent : found.2 = [] ↔ (names R t).Nodup ∧
      ∀ m ∈ names R t, m ∉ ([] : List Name) ∧ m ≠ R.header t ∧ Ok R documents r m)
    (hdocs : ∀ docs : Name → Doc, (∀ m ∈ names R t, Clean R documents m (docs m)) →
      found.2 = [] → found.1 = targets R t docs) :
    found.2 = [] ∧ found.1 = targets R t docs := by
  have hnil := hsilent.mpr ⟨h.plain.nodup, fun m hm =>
    ⟨List.not_mem_nil, fun heq => h.plain.own (heq ▸ hm), docs m, h.uses m hm⟩⟩
  exact ⟨hnil, hdocs docs (fun m hm => (h.uses m hm).1) hnil⟩

/-- With depth left for the declared names off the path, a parse ends and is right. -/
theorem parseText_right (depth : Nat) (text : Text) (parents cs : List Name) (s : Session Doc)
    (hchain : (if parents = [] then [R.header text] else parents) = r :: cs)
    (hpath : ∀ c ∈ cs, ∀ m ∈ names R text, TransGen (Edge R documents) c m)
    (hs : Sound R documents r s) (hdepth : remaining documents (r :: cs) < depth) :
    ∃ p s', parseText R documents depth text parents s = some (p, s') ∧
      Right R documents r text p ∧ Sound R documents r s' ∧ Asks R s' text ∧ s.log ⊆ s'.log := by
  induction depth generalizing text parents cs s with
  | zero => exact absurd hdepth (Nat.not_lt_zero _)
  | succ depth ih =>
    rw [parseText]
    simp only [hchain]
    cases hhalted : R.halted text with
    | true =>
      have hne := arrange_halted_ne_nil (R.halted_reports text hhalted)
      have hnot : ∀ docs, ¬ Fits R documents r text docs := by
        intro docs hfits
        rw [hfits.plain.halted] at hhalted
        cases hhalted
      refine ⟨_, s, rfl, ⟨rfl, ?_, fun docs hfits => (hnot docs hfits).elim⟩, hs, ?_,
        List.Subset.refl _⟩
      · simp [hne, hnot]
      · intro hgoes
        rw [hhalted] at hgoes
        cases hgoes
    | false =>
      have hask : ∀ u ∈ R.uses text, R.wellFormed u.name = true → ∀ s, Sound R documents r s →
          ∃ found s', resolve documents (parseText R documents depth) (r :: cs) u s =
            some (found, s') ∧ Sound R documents r s' ∧ Answers R documents r u.name found ∧
            s.log ⊆ s'.log ∧ ∃ e ∈ s'.log, e.name = u.name := by
        intro u hu hformed s hs
        have hname : u.name ∈ names R text :=
          List.mem_map_of_mem (List.mem_filter.mpr ⟨hu, hformed⟩)
        refine resolve_right hs (fun c hc => hpath c hc _ hname) ?_
        intro t ht hmem
        refine ih t (r :: cs ++ [u.name]) (cs ++ [u.name]) s (by simp) ?_ hs ?_
        · intro c hc m hm
          have hedge : Edge R documents u.name m := ⟨t, ht, hm⟩
          rcases List.mem_append.mp hc with hc | hc
          · exact (hpath c hc _ hname).tail hedge
          · rw [List.mem_singleton] at hc
            subst hc
            exact .single hedge
        · have hlt := remaining_lt ht hmem
          rw [List.cons_append] at hlt
          omega
      obtain ⟨found, s', hrun, hs', hlog, hasked, hsilent, hdocs⟩ :=
        readUses_right (R.header text) (R.uses text) hask [] s hs
      refine ⟨_, s', by simp only [Bool.false_eq_true, if_false]; rw [hrun]; rfl, ⟨rfl, ?_, ?_⟩, hs',
        fun _ m hm hother => hasked m hm (by simp) hother, hlog⟩
      · rw [arrange_eq_nil, List.append_eq_nil_iff, List.append_eq_nil_iff]
        constructor
        · rintro ⟨⟨hstructural, hnil⟩, hothers⟩
          obtain ⟨hnodup, hall⟩ := hsilent.mp hnil
          obtain ⟨docs, hclean⟩ := exists_documents (R.document text []) fun m hm => (hall m hm).2.2
          have htargets : found.1 = targets R text docs :=
            hdocs docs (fun m hm => (hclean m hm).1) hnil
          exact ⟨docs, ⟨hhalted, hstructural, hnodup, fun hown => (hall _ hown).2.1 rfl,
            htargets ▸ hothers⟩, hclean⟩
        · rintro ⟨docs, hfits⟩
          obtain ⟨hnil, htargets⟩ := fits_silent hfits hsilent hdocs
          exact ⟨⟨hfits.plain.structural, hnil⟩, htargets ▸ hfits.plain.others⟩
      · intro docs hfits
        obtain ⟨-, htargets⟩ := fits_silent hfits hsilent hdocs
        rw [← htargets]

theorem parseDocument_right (R : Reader Text Doc) (documents : List (Name × Text)) (text : Text) :
    ∃ p s, parseDocument R documents text = some (p, s) ∧
      Right R documents (R.header text) text p ∧ Sound R documents (R.header text) s ∧
      Asks R s text := by
  have hempty : Sound R documents (R.header text) ⟨[], []⟩ := ⟨by simp, by simp, by simp⟩
  have hdepth : remaining documents [R.header text] < documents.length + 1 :=
    Nat.lt_succ_of_le List.countP_le_length
  obtain ⟨p, s, hrun, hright, hs, hasks, -⟩ :=
    parseText_right _ text [] [] _ (by simp) (by simp) hempty hdepth
  exact ⟨p, s, hrun, hright, hs, hasks⟩

/-- The text has no diagnostic when it is parsed on its own. -/
def Passes (R : Reader Text Doc) (documents : List (Name × Text)) (t : Text) : Prop :=
  ∃ p s, parseDocument R documents t = some (p, s) ∧ p.diagnostics = []

/-- A declared document is clean exactly when its text passes on its own under its name. -/
theorem clean_iff_passes :
    (∃ d, Clean R documents n d) ↔
      ∃ t, documents.lookup n = some t ∧ R.header t = n ∧ Passes R documents t := by
  constructor
  · rintro ⟨d, hclean⟩
    have hacyclic := hclean.acyclic
    cases hclean with
    | @mk _ t docs declared header plain uses =>
      obtain ⟨p, s, hrun, hright, -, -⟩ := parseDocument_right R documents t
      refine ⟨t, declared, header, p, s, hrun, hright.clean.mpr ⟨docs, plain, ?_⟩⟩
      intro m hm
      refine ⟨uses m hm, ?_⟩
      rw [header]
      exact fun hback => hacyclic (TransGen.head' ⟨t, declared, hm⟩ hback)
  · rintro ⟨t, declared, header, p, s, hrun, hnil⟩
    obtain ⟨q, s', hrun', hright, -⟩ := parseDocument_right R documents t
    obtain ⟨rfl, rfl⟩ : p = q ∧ s = s' := by simpa using hrun.symm.trans hrun'
    obtain ⟨docs, hfits⟩ := hright.clean.mp hnil
    exact ⟨_, .mk declared header hfits.plain fun m hm => (hfits.uses m hm).1⟩

/-- A fair answer in terms of the declared texts, the use graph and the path. -/
theorem Fair.iff {e : Asked} (h : Fair R documents r e) :
    e.resolved = true ↔
      (∃ t, documents.lookup e.name = some t ∧ R.header t = e.name ∧ Passes R documents t) ∧
      (∀ m, ReflTransGen (Edge R documents) e.name m → ¬ TransGen (Edge R documents) m m) ∧
      ∀ c ∈ e.chain, ¬ ReflTransGen (Edge R documents) e.name c := by
  obtain ⟨hresolved, cs, hchain, hpath⟩ := h
  rw [hresolved, ← clean_iff_passes, hchain]
  constructor
  · rintro ⟨d, hclean, hreach⟩
    refine ⟨⟨d, hclean⟩, ?_, ?_⟩
    · intro m hm
      obtain ⟨d', hclean'⟩ := hclean.reach hm
      exact hclean'.acyclic
    · rw [List.forall_mem_cons]
      refine ⟨hreach, fun c hc hback => ?_⟩
      exact hclean.acyclic (TransGen.trans_right hback (hpath c hc))
  · rintro ⟨⟨d, hclean⟩, -, havoid⟩
    exact ⟨d, hclean, havoid r (by simp)⟩

/-- Parsing ends. Every use of the text and of the documents that are reached is asked. A use resolves
exactly when the document is declared, its text passes on its own under its name, and the use graph
from it has no cycle and does not lead back to the path; the answer is the same on every path and in
the parse of every text with the same header name. -/
theorem resolve_iff (R : Reader Text Doc) (documents : List (Name × Text)) (x : Text) :
    ∃ p s, parseDocument R documents x = some (p, s) ∧
      Asks R s x ∧
      (∀ e ∈ s.log, ∀ t, documents.lookup e.name = some t → e.name ∉ e.chain → Asks R s t) ∧
      (∀ e ∈ s.log, (e.resolved = true ↔
        (∃ t, documents.lookup e.name = some t ∧ R.header t = e.name ∧ Passes R documents t) ∧
        (∀ m, ReflTransGen (Edge R documents) e.name m → ¬ TransGen (Edge R documents) m m) ∧
        ∀ c ∈ e.chain, ¬ ReflTransGen (Edge R documents) e.name c)) ∧
      ∀ y q s', R.header y = R.header x → parseDocument R documents y = some (q, s') →
        ∀ e ∈ s.log, ∀ e' ∈ s'.log, e'.name = e.name → e'.resolved = e.resolved := by
  obtain ⟨p, s, hrun, -, hs, hasks⟩ := parseDocument_right R documents x
  refine ⟨p, s, hrun, hasks, hs.followed, fun e he => (hs.logged e he).iff, ?_⟩
  intro y q s' hheader hrun' e he e' he' hname
  obtain ⟨q', t', hrun'', -, hs', -⟩ := parseDocument_right R documents y
  obtain ⟨rfl, rfl⟩ : q = q' ∧ s' = t' := by simpa using hrun'.symm.trans hrun''
  have hleft := (hs'.logged e' he').resolved
  have hright := (hs.logged e he).resolved
  rw [hheader, hname, ← hright] at hleft
  exact Bool.eq_iff_iff.mpr hleft

end Proofs

end Orm.Dbspec.Uses
