import NodeWeave.Proofs.Text.Quoted
import NodeWeave.Proofs.Woven.ClassHeader
import NodeWeave.Proofs.Woven.Edits

/-!
The parser's support in a compilation unit with a package statement and the parser class. Main
statement: what is added stands behind the statement and at the brace of the class, outside of
comments and literals.
-/

namespace NodeWeave

open Text Quoted

/-- A compilation unit cut at its package statement and at the header of its class. -/
structure UnitLayout where
  lines : List Char
  lead : List Char
  statement : PackageStatement
  between : List Char
  name : List Char
  gap : List Char
  clauses : List Char
  following : List Char

namespace UnitLayout

variable (u : UnitLayout)

def opening : List Char :=
  "class".toList ++ u.gap ++ u.name

def front : List Char :=
  u.lines ++ u.lead ++ (u.statement.text ++ u.between)

def brace : List Char :=
  '\x7b' :: u.following

def text : List Char :=
  u.front ++ (u.opening ++ (u.clauses ++ u.brace))

def statementLine : List Char :=
  u.lead ++ (u.statement.text ++ (u.between ++ (u.opening ++ (u.clauses ++ u.brace))))

/-- The class implements interfaces. -/
def HasClause : Prop :=
  ∃ before behind, u.clauses = before ++ "implements".toList ++ behind ∧
    isWordAt before.getLast? = false ∧ isWordAt behind.head? = false ∧
    Reaches u.text ("implements".toList ++ behind ++ u.brace)

/-- Nothing in front of the statement and of the header reads like them, not even in comments and
literals, and no other brace stands in the header. -/
structure Reads : Prop where
  statement : FirstStatement u.lines u.lead u.statement
  named : IsClassName u.name
  header : FirstHeader u.name u.front u.gap (u.clauses ++ u.brace)
  braceless : '\x7b' ∉ u.clauses

/-- The statement and the brace are outside of comments and literals, no comment up to the end of
its line ends in the blanks in front of the brace, and what reads like a clause of interfaces is
one. -/
structure InCode : Prop where
  statement : Reaches u.text u.statementLine
  brace : Reaches u.text u.brace
  lastLine : ∀ rest, rest <:+ blanksEnd u.clauses → ¬ EndsLineComment u.text (rest ++ u.brace)
  clause : "implements".toList <:+: u.clauses → u.HasClause

def braceEdits (interfaces : List String) (declarations : String) : List Edit :=
  [.added (ParserSupport.implementing interfaces u.clauses), .dropped (blanksEnd u.clauses),
    .added [' '], .kept ['\x7b'], .added (ParserSupport.region declarations), .kept u.following]

/-- The edits of the unit: behind the line of the statement, and at the brace of the class. -/
def edits (interfaces imports : List String) (declarations : String) : List Edit :=
  .kept (u.lines ++ u.lead ++ (u.statement.text ++ lineEnd u.between)) ::
    .added (ParserSupport.importing imports) ::
    .kept (behindLine u.between ++ (u.opening ++ dropBlanksEnd u.clauses)) ::
    u.braceEdits interfaces declarations

variable {u}
variable {interfaces imports : List String} {declarations : String}

theorem exists_opening (u : UnitLayout) : ∃ more, u.opening = 'c' :: more := by
  have keyword : "class".toList = 'c' :: "lass".toList := by decide
  unfold opening
  rw [keyword]
  exact ⟨_, rfl⟩

theorem lineEnd_between (u : UnitLayout) (rest : List Char) :
    lineEnd (u.between ++ (u.opening ++ rest)) = lineEnd u.between := by
  obtain ⟨more, keyword⟩ := u.exists_opening
  rw [keyword]
  exact lineEnd_append_cons (by decide) _ _

theorem importPlace_eq (statement : FirstStatement u.lines u.lead u.statement)
    (rest : List Char) :
    ParserSupport.importPlace (u.front ++ (u.opening ++ rest)) =
      (u.lines ++ u.lead ++ (u.statement.text ++ lineEnd u.between)).length := by
  have split := statement.splitPackage?_eq (u.between ++ (u.opening ++ rest))
  rw [lineEnd_between] at split
  have whole : u.front ++ (u.opening ++ rest) =
      u.lines ++ u.lead ++ (u.statement.text ++ (u.between ++ (u.opening ++ rest))) := by
    rw [front, List.append_assoc, List.append_assoc u.statement.text]
  rw [whole]
  exact ParserSupport.importPlace_of_some split

theorem classEdits_eq (reads : u.Reads) :
    ParserSupport.classEdits interfaces declarations u.text u.name =
      .kept (u.front ++ (u.opening ++ dropBlanksEnd u.clauses)) ::
        u.braceEdits interfaces declarations := by
  have found := reads.header.findHeader?_eq reads.named reads.braceless
  unfold ParserSupport.classEdits
  rw [show ParserSupport.findHeader? u.name [] u.text = _ from found]
  rfl

/-- The edits are made behind the statement and around the brace. -/
theorem edits_eq (reads : u.Reads) :
    ParserSupport.edits interfaces imports declarations u.text u.name =
      u.edits interfaces imports declarations := by
  unfold ParserSupport.edits
  dsimp only
  have place : ParserSupport.importPlace (editedText
      (.kept (u.front ++ (u.opening ++ dropBlanksEnd u.clauses)) ::
        u.braceEdits interfaces declarations)) =
      (u.lines ++ u.lead ++ (u.statement.text ++ lineEnd u.between)).length := by
    rw [editedText_cons, Edit.result, List.append_assoc, List.append_assoc]
    exact importPlace_eq reads.statement _
  have parts : u.front ++ (u.opening ++ dropBlanksEnd u.clauses) =
      u.lines ++ u.lead ++ (u.statement.text ++ lineEnd u.between) ++
        (behindLine u.between ++ (u.opening ++ dropBlanksEnd u.clauses)) := by
    have whole := lineEnd_append_behindLine u.between
    rw [front, List.append_assoc _ (u.statement.text ++ lineEnd _),
      List.append_assoc u.statement.text, ← List.append_assoc (lineEnd _), whole]
    simp only [List.append_assoc]
  rw [classEdits_eq reads, place, parts, put_kept_append]
  rfl

/-! ### Places outside of comments and literals -/

theorem not_mem_of_isBlank {c : Char} (blank : isBlank c = true) : c ∉ ['"', '\'', '/'] := by
  intro mem
  simp only [List.mem_cons, List.not_mem_nil, or_false] at mem
  rcases mem with rfl | rfl | rfl <;> cases blank

theorem not_mem_of_isPackageChar {c : Char} (part : isPackageChar c = true) :
    c ∉ ['"', '\'', '/'] := by
  intro mem
  simp only [List.mem_cons, List.not_mem_nil, or_false] at mem
  rcases mem with rfl | rfl | rfl <;> simp [isPackageChar, isWord] at part

theorem not_mem_of_mem_statement {s : PackageStatement} {c : Char} (mem : c ∈ s.text) :
    c ∉ ['"', '\'', '/'] := by
  have keyword : ∀ c ∈ "package".toList, c ∉ ['"', '\'', '/'] := by simp
  unfold PackageStatement.text PackageStatement.stem at mem
  simp only [List.mem_append] at mem
  rcases mem with (((inKeyword | inGap) | inName) | inMore) | semicolon
  · exact keyword c inKeyword
  · exact not_mem_of_isBlank (s.isBlank_gap c inGap)
  · exact not_mem_of_isPackageChar (s.isPackageChar_name c inName)
  · exact not_mem_of_isBlank (s.isBlank_more c inMore)
  · rw [List.mem_singleton.mp semicolon]
    decide

theorem reaches_behindLine (reads : u.Reads) (code : u.InCode) :
    Reaches u.text (behindLine u.between ++ (u.opening ++ (u.clauses ++ u.brace))) := by
  refine code.statement.trans ?_
  have parts : u.statementLine = u.lead ++ (u.statement.text ++ lineEnd u.between) ++
      (behindLine u.between ++ (u.opening ++ (u.clauses ++ u.brace))) := by
    rw [statementLine]
    conv => lhs; rw [← lineEnd_append_behindLine u.between]
    simp only [List.append_assoc]
  rw [parts]
  refine Reaches.of_forall_not_mem (fun c mem => ?_) _
  rcases List.mem_append.mp mem with inLead | later
  · exact not_mem_of_isBlank (isBlank_of_isSpace (reads.statement.spaces c inLead))
  · rcases List.mem_append.mp later with inStatement | inLine
    · exact not_mem_of_mem_statement inStatement
    · exact not_mem_of_isBlank (isBlank_of_mem_lineEnd inLine)

theorem reaches_blanksEnd (code : u.InCode) :
    Reaches u.text (blanksEnd u.clauses ++ u.brace) := by
  refine code.brace.of_blanks ?_ (fun c mem => isBlank_of_mem_blanksEnd mem) code.lastLine
  refine ⟨u.front ++ (u.opening ++ dropBlanksEnd u.clauses), ?_⟩
  rw [text]
  conv => rhs; rw [← dropBlanksEnd_append_blanksEnd u.clauses]
  simp only [List.append_assoc]

theorem originalText_braceEdits (u : UnitLayout) :
    originalText (u.braceEdits interfaces declarations) = blanksEnd u.clauses ++ u.brace := by
  simp [originalText, braceEdits, Edit.original, brace]

/-- All texts are added outside of comments and literals. -/
theorem addsAt_edits (reads : u.Reads) (code : u.InCode) :
    AddsAt (Reaches u.text) (u.edits interfaces imports declarations) := by
  have braceless : ∀ c ∈ ['\x7b'], c ∉ ['"', '\'', '/'] := by simp
  have following : Reaches u.brace u.following := Reaches.of_forall_not_mem braceless u.following
  have behindBrace : originalText [.kept u.following] = u.following := by
    simp [originalText, Edit.original]
  have atBrace : originalText [.kept ['\x7b'], .added (ParserSupport.region declarations),
      .kept u.following] = u.brace := by
    simp [originalText, Edit.original, brace]
  refine ⟨?_, ?_, ?_, ?_, trivial⟩
  · rw [originalText_cons, originalText_braceEdits, Edit.original, List.append_assoc,
      List.append_assoc, ← List.append_assoc (dropBlanksEnd _), dropBlanksEnd_append_blanksEnd]
    exact reaches_behindLine reads code
  · have atBlanks := @originalText_braceEdits interfaces declarations u
    rw [braceEdits, originalText_cons, Edit.original, List.nil_append] at atBlanks
    rw [atBlanks]
    exact reaches_blanksEnd code
  · rw [atBrace]
    exact code.brace
  · rw [behindBrace]
    exact code.brace.trans following

theorem contains_iff {pattern text : List Char} (some : pattern ≠ []) :
    contains pattern text = true ↔ pattern <:+: text := by
  rw [contains, ← not_iff_not, Bool.not_eq_true, Option.isSome_eq_false_iff,
    Option.isNone_iff_eq_none, splitFirst?_eq_none_iff some]

/-- The word that names interfaces is added unless there is a clause of them. -/
theorem implementing_eq (code : u.InCode) (some : interfaces ≠ []) :
    (u.HasClause → ParserSupport.implementing interfaces u.clauses =
      (", " ++ join ", " interfaces).toList) ∧
    (¬ u.HasClause → ParserSupport.implementing interfaces u.clauses =
      (" implements " ++ join ", " interfaces).toList) := by
  have named_iff : contains "implements".toList u.clauses = true ↔ u.HasClause := by
    rw [contains_iff (by decide)]
    refine ⟨code.clause, ?_⟩
    rintro ⟨before, behind, same, -⟩
    exact ⟨before, behind, same.symm⟩
  unfold ParserSupport.implementing
  rw [if_neg (by simpa using some), String.toList_append, String.toList_append]
  refine ⟨fun clause => ?_, fun noClause => ?_⟩
  · rw [if_pos (named_iff.mpr clause)]
  · rw [if_neg (mt named_iff.mp noClause)]

theorem declaredPackage?_eq (reads : u.Reads) :
    Grammar.declaredPackage? (String.ofList u.text) =
      some (String.ofList u.statement.name) := by
  have found := reads.statement.packageIn?_eq
    (u.between ++ (u.opening ++ (u.clauses ++ u.brace)))
  rw [← List.append_assoc u.statement.text, ← List.append_assoc (u.lines ++ u.lead)] at found
  rw [Grammar.declaredPackage?, String.toList_ofList]
  exact congrArg (Option.map String.ofList) found

end UnitLayout

namespace Grammar

theorem parserPackage_read (options : NodeOptions × Option String) (entry : OptionEntry) :
    (NodeOptions.read options entry).1.parserPackage = options.1.parserPackage := by
  obtain ⟨o, package⟩ := options
  unfold NodeOptions.read
  dsimp only
  split <;> rfl

theorem parserPackage_foldl_read (entries : List OptionEntry)
    (options : NodeOptions × Option String) :
    (entries.foldl NodeOptions.read options).1.parserPackage = options.1.parserPackage := by
  induction entries generalizing options with
  | nil => rfl
  | cons entry entries ih =>
      rw [List.foldl_cons, ih]
      exact parserPackage_read options entry

theorem parserPackage_ofGrammar {g : Grammar} {unit : ParserUnit}
    (found : g.parserUnit? = some unit) :
    (NodeOptions.ofGrammar g).parserPackage = (declaredPackage? unit.body).getD "" := by
  unfold NodeOptions.ofGrammar
  dsimp only
  rw [found, parserPackage_foldl_read]

end Grammar

namespace ParserSupport

/-- What is added to a unit is taken out again by undoing edits, and nothing is dropped from it but
blanks in front of a brace. If the package statement and the class are found where they stand, the
imports go behind the line of the statement and the rest around the brace of the class, all of it
outside of comments and literals, and the package is that of the statement. -/
theorem edits_of_layout (body name : String) (interfaces imports : List String)
    (declarations : String) :
    editedText (edits interfaces imports declarations body.toList name.toList) =
        (add body name imports interfaces declarations).toList ∧
      originalText (edits interfaces imports declarations body.toList name.toList) = body.toList ∧
      DropsBlanks (edits interfaces imports declarations body.toList name.toList) ∧
      ∀ u : UnitLayout, u.text = body.toList → u.name = name.toList → u.Reads → u.InCode →
        edits interfaces imports declarations body.toList name.toList =
            u.edits interfaces imports declarations ∧
          AddsAt (Reaches u.text) (u.edits interfaces imports declarations) ∧
          (interfaces ≠ [] →
            (u.HasClause → implementing interfaces u.clauses =
              (", " ++ join ", " interfaces).toList) ∧
            (¬ u.HasClause → implementing interfaces u.clauses =
              (" implements " ++ join ", " interfaces).toList)) ∧
          ∀ g : Grammar, g.parserUnit? = some { name, body } →
            (Grammar.NodeOptions.ofGrammar g).parserPackage = String.ofList u.statement.name := by
  refine ⟨editedText_edits body name, originalText_edits _ _, dropsBlanks_edits _ _, ?_⟩
  intro u whole named reads code
  refine ⟨?_, UnitLayout.addsAt_edits reads code, UnitLayout.implementing_eq code,
    fun g found => ?_⟩
  · rw [← whole, ← named]
    exact UnitLayout.edits_eq reads
  · have declared := UnitLayout.declaredPackage?_eq reads
    rw [whole, String.ofList_toList] at declared
    rw [Grammar.parserPackage_ofGrammar found, declared, Option.getD_some]

def sampleUnit (lines clauses : List Char) : UnitLayout where
  lines
  lead := []
  statement :=
    { gap := [' '], name := ['a', '.', 'b'], more := [], gap_ne_nil := by simp,
      name_ne_nil := by simp, isBlank_gap := by simp [isBlank],
      isPackageChar_name := by simp [isPackageChar, isWord], isBlank_more := by simp }
  between := ['\n']
  name := ['P']
  gap := [' ']
  clauses
  following := ['\x7d']

theorem reads_sampleUnit {lines clauses : List Char} {u : UnitLayout}
    (same : u = sampleUnit lines clauses) (atLine : AtLine lines)
    (package : ∀ k < (u.lines ++ u.lead).length,
      ¬ "package".toList <+: (u.lines ++ u.lead ++ u.statement.text).drop k)
    (alone : ∀ k < u.front.length, ¬ "class".toList <+: u.text.drop k)
    (whole : isWordAt (clauses ++ u.brace).head? = false) (braceless : '\x7b' ∉ clauses) :
    u.Reads := by
  subst same
  have blank : ∀ c ∈ [' '], isBlank c = true := by simp [isBlank]
  have solid : ∀ c ∈ ['P'], isBlank c = false := by simp [isBlank]
  have word : isWordAt (['P'].getLast?) = true := by decide
  have noLead : ∀ c ∈ ([] : List Char), isSpace c = true := by simp
  have ended : isWordAt (sampleUnit lines clauses).front.getLast? = false := by
    have feed : (sampleUnit lines clauses).front = (lines ++
        (sampleUnit lines clauses).statement.text) ++ ['\n'] := by
      simp [UnitLayout.front, sampleUnit]
    rw [feed, List.getLast?_concat]
    decide
  exact
    { statement := .of_forall_drop atLine noLead package
      named := ⟨word, solid⟩
      header := .of_forall_drop (List.cons_ne_nil _ _) blank ended whole alone
      braceless := braceless }

theorem edits_of_layout_commented : ∃ u : UnitLayout,
    u.text = "/* a parser */\npackage a.b;\nclass P /* plain */ \x7b\x7d".toList ∧
      u.Reads ∧ u.InCode ∧
      AddsAt (Reaches u.text) (u.edits ["I"] ["q.*"] "int x;") ∧
      implementing ["I"] u.clauses = " implements I".toList := by
  obtain ⟨u, same⟩ : ∃ u, u = sampleUnit "/* a parser */\n".toList " /* plain */ ".toList :=
    ⟨_, rfl⟩
  have whole : u.text = "/* a parser */\npackage a.b;\nclass P /* plain */ \x7b\x7d".toList := by
    rw [same]
    decide
  have named : u.name = "P".toList := by
    rw [same]
    decide
  have reads : u.Reads := by
    refine reads_sampleUnit same (.inr ⟨"/* a parser */".toList, by decide⟩) ?_ ?_ ?_
      (by decide) <;> rw [same] <;> decide
  have noClause : ¬ "implements".toList <:+: u.clauses := by
    rw [same]
    decide
  have noLine : ¬ ['/', '/'] <:+: u.text := by
    rw [same]
    decide
  have behindComment : Reaches u.text u.statementLine := by
    rw [same]
    exact .quoted rfl (.char rfl (.here _))
  have atBrace : Reaches u.statementLine u.brace := by
    have plain : ∀ c ∈ "package a.b;\nclass P ".toList, c ∉ ['"', '\'', '/'] := by simp
    have inHeader : Reaches ("/* plain */ ".toList ++ u.brace) u.brace := by
      rw [same]
      exact .quoted rfl (.char rfl (.here _))
    rw [same] at inHeader ⊢
    exact (Reaches.of_forall_not_mem plain _).trans inHeader
  have code : u.InCode :=
    { statement := behindComment
      brace := behindComment.trans atBrace
      lastLine := by
        rintro rest - ⟨comment, starts, there, -⟩
        exact noLine (starts.isInfix.trans there.suffix.isInfix)
      clause := fun found => absurd found noClause }
  obtain ⟨-, adds, names, -⟩ := (edits_of_layout
    "/* a parser */\npackage a.b;\nclass P /* plain */ \x7b\x7d" "P" ["I"] ["q.*"]
    "int x;").2.2.2 u whole named reads code
  refine ⟨u, whole, reads, code, adds, ?_⟩
  rw [(names (by simp)).2]
  · decide
  · rintro ⟨before, behind, parts, -⟩
    exact noClause ⟨before, behind, parts.symm⟩

/-- With a comment up to the end of its line in front of the brace, or one that reads like the
header of the class, the support is added inside of the comment. A comment in the statement hides
the package. -/
theorem not_edits_of_layout_hidden :
    (∃ u : UnitLayout, u.text = "package a.b;\nclass P // c\n\x7b\x7d".toList ∧ u.Reads ∧
      Reaches u.text u.statementLine ∧ Reaches u.text u.brace ∧
      ¬ AddsAt (Reaches u.text) (u.edits [] ["q.*"] "int x;")) ∧
    ¬ AddsAt (Reaches "package a.b;\n// class P \x7b\nclass P \x7b\x7d".toList)
      (edits [] ["q.*"] "int x;" "package a.b;\n// class P \x7b\nclass P \x7b\x7d".toList
        "P".toList) ∧
    Grammar.declaredPackage? "package /* c */ a.b;\nclass P \x7b\x7d" = none := by
  refine ⟨?_, ?_, by decide +kernel⟩
  · obtain ⟨u, same⟩ : ∃ u, u = sampleUnit [] " // c\n".toList := ⟨_, rfl⟩
    have reads : u.Reads := by
      refine reads_sampleUnit same (.inl rfl) ?_ ?_ ?_ (by decide) <;> rw [same] <;> decide
    have plain : ∀ c ∈ "package a.b;\nclass P ".toList, c ∉ ['"', '\'', '/'] := by simp
    subst same
    have comment : Reaches (sampleUnit [] " // c\n".toList).text "// c\n\x7b\x7d".toList :=
      Reaches.of_forall_not_mem plain _
    have behind : Quoted.behindQuoted? "// c\n\x7b\x7d".toList = some "\x7b\x7d".toList := rfl
    refine ⟨_, by decide, reads, .here _, comment.trans (.quoted behind (.here _)), ?_⟩
    rintro ⟨-, inside, -⟩
    exact comment.not_inside behind inside (by decide)
  · have plain : ∀ c ∈ "package a.b;\n".toList, c ∉ ['"', '\'', '/'] := by simp
    have comment := Reaches.of_forall_not_mem plain "// class P \x7b\nclass P \x7b\x7d".toList
    have behind : Quoted.behindQuoted? "// class P \x7b\nclass P \x7b\x7d".toList =
        some "class P \x7b\x7d".toList := rfl
    have parts : edits [] ["q.*"] "int x;" "package a.b;\n// class P \x7b\nclass P \x7b\x7d".toList
        "P".toList = [.kept "package a.b;\n".toList, .added (importing ["q.*"]),
          .kept "// class P".toList, .added [], .dropped [' '], .added [' '], .kept ['\x7b'],
          .added (region "int x;"), .kept "\nclass P \x7b\x7d".toList] := by
      decide +kernel
    rw [parts]
    rintro ⟨-, inside, -⟩
    exact comment.not_inside behind inside (by decide)

end ParserSupport

end NodeWeave
