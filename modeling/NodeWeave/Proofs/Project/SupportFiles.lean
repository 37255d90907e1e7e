import NodeWeave.Proofs.Generation.Confinement
import NodeWeave.Proofs.Project.SupportTexts

/-!
The built-in support files. Main statement: their classes have accepted names and their templates
are rendered, and the interface of constants declares those of the declared nodes and nothing else.
-/

namespace NodeWeave

/-! ### Names of classes -/

namespace ClassName

open Grammar

theorem isPart_of_isNameChar {c : Char} (name : Format.isNameChar c = true) :
    isPart c = true := by
  simp only [Format.isNameChar, Bool.or_eq_true, beq_iff_eq] at name
  rcases name with (alnum | rfl) | rfl
  · rw [isPart, Text.isWord_of_isAlphanum alnum, Bool.true_or]
  · decide
  · decide

theorem isSegment_of_isIdentifier {chars : List Char} (identifier : isIdentifier chars = true) :
    isSegment chars = true := by
  cases chars with
  | nil => cases identifier
  | cons first rest =>
      rw [isIdentifier, Bool.and_eq_true, List.all_eq_true] at identifier
      rw [isSegment, Bool.and_eq_true, List.all_eq_true]
      exact ⟨identifier.1, fun c mem => isPart_of_isNameChar (identifier.2 c mem)⟩

theorem isQualified_qualify {package simple : String}
    (outer : package = "" ∨ isQualified package = true)
    (identifier : isIdentifier simple.toList = true) :
    isQualified (JavaName.qualify package simple) = true := by
  have alone : isQualified simple = true := by
    have free := dotFree_of_isIdentifier identifier
    rw [isQualified, Text.splitChar, List.splitOn_eq_singleton free]
    simpa using isSegment_of_isIdentifier identifier
  rcases outer with rfl | qualified
  · rwa [JavaName.qualify_empty]
  · rw [JavaName.qualify]
    split
    · exact alone
    · have cut : Text.splitChar '.' (package ++ "." ++ simple) =
          Text.splitChar '.' package ++ Text.splitChar '.' simple := Text.splitChar_append '.' _ _
      rw [isQualified, cut, List.all_append, Bool.and_eq_true]
      exact ⟨qualified, alone⟩

theorem isBlank_eq_false_of_isPart {c : Char} (part : isPart c = true) :
    Text.isBlank c = false := by
  rw [isPart, Bool.or_eq_true, beq_iff_eq] at part
  rcases part with word | rfl
  · exact Text.isBlank_eq_false_of_isWord word
  · decide

theorem isBlank_eq_false_of_isSegment {chars : List Char} (segment : isSegment chars = true)
    {c : Char} (mem : c ∈ chars) : Text.isBlank c = false := by
  rcases mem_of_isSegment segment mem with start | part
  · exact isBlank_eq_false_of_isPart (isPart_of_isNameChar (isNameChar_of_isNameStart start))
  · exact isBlank_eq_false_of_isPart part

theorem clean_of_isQualified {name : String} (qualified : isQualified name = true) :
    clean name = name := by
  rw [← Text.join_splitChar '.' name]
  refine clean_join fun segment mem => ?_
  have plain := isPlain_of_isQualified qualified mem
  refine ⟨plain.ne_empty, plain.dotFree, fun c inside => ?_⟩
  exact isBlank_eq_false_of_isSegment (List.all_eq_true.mp qualified segment mem) inside

end ClassName

/-! ### Names in grammars and their files -/

theorem Path.slashFree_of_stem? {path stem : String} (found : stem? path = some stem) :
    '/' ∉ stem.toList := by
  obtain ⟨name, named, rfl⟩ := Option.map_eq_some_iff.mp found
  have free : '/' ∉ name.toList := by
    unfold fileName? at named
    split at named
    · next last ends =>
        split at named <;> cases named
        exact slashFree_of_mem_segments
          ((core_isPrefix (segments path)).subset (List.mem_of_getLast? ends))
    · cases named
  rw [splitName]
  split
  · exact free
  · rw [String.toList_ofList, List.mem_reverse]
    exact fun mem => free (List.mem_reverse.mp (List.mem_of_mem_drop mem))

namespace Grammar

theorem parserName_read (options : NodeOptions × Option String) (entry : OptionEntry) :
    (NodeOptions.read options entry).1.parserName = options.1.parserName := by
  obtain ⟨o, package⟩ := options
  unfold NodeOptions.read
  simp only
  split <;> rfl

theorem parserName_foldl_read (entries : List OptionEntry) (options : NodeOptions × Option String) :
    (entries.foldl NodeOptions.read options).1.parserName = options.1.parserName := by
  induction entries generalizing options with
  | nil => rfl
  | cons entry rest ih => rw [List.foldl_cons, ih, parserName_read]

theorem isIdentifier_parserName {g : Grammar} (named : ∀ item ∈ g.items, item.HasNames) :
    isIdentifier (NodeOptions.ofGrammar g).parserName.toList = true := by
  have kept : (NodeOptions.ofGrammar g).parserName =
      ((g.parserUnit?.map ParserUnit.name).getD "Parser") := by
    rw [NodeOptions.ofGrammar]
    simp only [parserName_foldl_read]
    cases g.parserUnit? <;> rfl
  rw [kept]
  cases declared : g.parserUnit? with
  | none => decide
  | some unit => exact isIdentifier_of_parserUnit? named declared

namespace NodeOptions

variable {o : NodeOptions} (named : isIdentifier o.parserName.toList = true)

include named

theorem isIdentifier_constantsName : isIdentifier o.constantsName.toList = true := by
  rw [constantsName, String.toList_append]
  exact isIdentifier_append named (by decide)

theorem isIdentifier_stateName : isIdentifier o.stateName.toList = true := by
  have whole : o.stateName.toList = "JJT".toList ++ (o.parserName.toList ++ "State".toList) := by
    simp [stateName]
  rw [whole]
  have suffix : "State".toList.all Format.isNameChar = true := by decide
  have inner := isIdentifier_append named suffix
  exact isIdentifier_append (by decide) (List.all_eq_true.mpr fun c => isNameChar_of_mem inner)

end NodeOptions

theorem NodeOptions.parserClass_append (o : NodeOptions) :
    o.parserClass ++ "TreeConstants" = JavaName.qualify o.parserPackage o.constantsName := by
  rw [parserClass, constantsName, JavaName.qualify, JavaName.qualify]
  split <;> simp [String.append_assoc]

end Grammar

/-! ### Jobs -/

namespace ClassJob

open Template

/-- The job generates the class with the text, from a template of its own. -/
structure Yields (job : ClassJob) (name text : String) : Prop where
  named : job.name = .ok name
  written : ∃ template, job.source = .inline template ∧ job.body template name = .ok text

variable {job : ClassJob} {name : String}

theorem field?_values {query : String} {value : Json} (notPackage : query ≠ "package")
    (notSimple : query ≠ "simpleName") (notQualified : query ≠ "qualifiedName")
    (found : job.context.field? query = some value) :
    (job.values name).field? query = some value := by
  rw [values, Json.field?, Index.lookup_insert_of_ne notQualified,
    Index.lookup_insert_of_ne notSimple, Index.lookup_insert_of_ne notPackage]
  cases stands : job.context with
  | object fields => rwa [stands] at found
  | _ =>
      rw [stands] at found
      cases found

theorem name_of_render (rendered : render job.className job.context = .ok name)
    (qualified : ClassName.isQualified name = true) : job.name = .ok name := by
  rw [ClassJob.name, rendered]
  simp only [ClassName.clean_of_isQualified qualified, qualified, if_true]

theorem name_of_refused {text : String} (rendered : render job.className job.context = .ok text)
    (refused : ClassName.isQualified (ClassName.clean text) = false) :
    job.name = .error
      { cause := .template job.className
          ("'" ++ ClassName.clean text ++ "' is not a qualified class name")
        phase := "template" } := by
  rw [ClassJob.name, rendered]
  simp [refused]

/-- A job with an accepted name whose template finds all its values. -/
theorem yields_of_areFilled {parts : List Part}
    (rendered : render job.className job.context = .ok name)
    (qualified : ClassName.isQualified name = true)
    (source : job.source = .inline (writeParts parts)) (normal : AreNormal False parts)
    (filled : AreFilled [job.values name] parts) :
    job.Yields name (textOf [job.values name] parts) := by
  refine ⟨name_of_render rendered qualified, _, source, ?_⟩
  rw [body, render_of_read (read_writeParts normal) filled]

end ClassJob

namespace Project

open Hierarchy Template

/-! ### Jobs of the built-in files -/

def stateJob (p : Project) : ClassJob where
  description := "support file parserState"
  source := .inline (writeParts Support.stackClass)
  className := tagText "grammar.treeState.qualifiedName"
  context := p.jobContext p.view.value ("id", .text "parserState") {}

def constantsJob (p : Project) : ClassJob where
  description := "support file treeConstants"
  source := .inline (writeParts Support.constantsInterface)
  className := tagText "grammar.parser.qualifiedName" ++ "TreeConstants"
  context := p.jobContext p.view.value ("id", .text "treeConstants") {}

theorem fileJobs_files (p : Project) :
    p.fileJobs p.view.value "support file" Support.files = pure [p.stateJob, p.constantsJob] :=
  rfl

/-- Without described files the built-in ones are those of the project. -/
theorem supportFiles_of_describedSupport {s : Settings} {builtin : Index FileSpec} {file : String}
    (none : s.describedSupport file = .ok [])
    (enabled : ∀ named ∈ builtin, named.2.isEnabled = true) :
    s.supportFiles builtin file = .ok builtin := by
  rw [Settings.supportFiles, none]
  exact congrArg Except.ok (List.filter_eq_self.mpr enabled)

theorem field?_jobContext (p : Project) (view : Json) {kind : String} (other : "grammar" ≠ kind)
    (content : Json) (spec : FileSpec) :
    (p.jobContext view (kind, content) spec).field? "grammar" = some view := by
  rw [jobContext, Json.ofFields, Json.field?, Index.ofList]
  simp only [List.foldl_cons, List.foldl_nil]
  rw [Index.lookup_insert_of_ne (by decide), Index.lookup_insert_of_ne other,
    Index.lookup_insert_of_ne (by decide), Index.lookup_insert_self]

theorem field?_values_qualify {job : ClassJob} {view : Json}
    (seen : job.context.field? "grammar" = some view) (package : String) {simple : String}
    (free : '.' ∉ simple.toList) :
    (job.values (JavaName.qualify package simple)).field? "grammar" = some view ∧
      (job.values (JavaName.qualify package simple)).field? "package" = some (.text package) ∧
      (job.values (JavaName.qualify package simple)).field? "simpleName" = some (.text simple) := by
  refine ⟨ClassJob.field?_values (by decide) (by decide) (by decide) seen, ?_, ?_⟩
  · rw [ClassJob.field?_package, JavaName.package, JavaName.split_qualify package free]
  · rw [ClassJob.field?_simpleName, JavaName.simple, JavaName.split_qualify package free]

/-! ### Built-in files -/

section

variable (p : Project)

theorem field?_stateJob : p.stateJob.context.field? "grammar" = some p.view.value :=
  p.field?_jobContext _ (by decide) _ _

theorem field?_constantsJob : p.constantsJob.context.field? "grammar" = some p.view.value :=
  p.field?_jobContext _ (by decide) _ _

theorem render_stateJob :
    render p.stateJob.className p.stateJob.context = .ok p.options.stateClass := by
  have found := value?_stateClass p.field?_stateJob
  have filled : AreFilled [p.stateJob.context] [.value "grammar.treeState.qualifiedName"] := by
    simp [AreFilled, Part.IsFilled, found]
  refine (render_of_read Support.read_stateClassName filled).trans ?_
  simp [textOf, Part.textIn, found, Template.shown]

theorem render_constantsJob : render p.constantsJob.className p.constantsJob.context =
    .ok (JavaName.qualify p.options.parserPackage p.options.constantsName) := by
  have found := value?_parserClass p.field?_constantsJob
  have filled : AreFilled [p.constantsJob.context]
      [.value "grammar.parser.qualifiedName", .text "TreeConstants"] := by
    simp [AreFilled, Part.IsFilled, found]
  refine (render_of_read Support.read_constantsClassName filled).trans ?_
  rw [← p.options.parserClass_append]
  simp [textOf, Part.textIn, found, Template.shown]

section

variable (named : Grammar.isIdentifier p.options.parserName.toList = true)

include named

theorem yields_stateJob (placed : p.options.nodePackage = "" ∨
    ClassName.isQualified p.options.nodePackage = true) :
    ∃ text, p.stateJob.Yields p.options.stateClass text := by
  have identifier := Grammar.NodeOptions.isIdentifier_stateName named
  obtain ⟨seen, package, simple⟩ := field?_values_qualify p.field?_stateJob p.options.nodePackage
    (Grammar.dotFree_of_isIdentifier identifier)
  exact ⟨_, ClassJob.yields_of_areFilled p.render_stateJob
    (ClassName.isQualified_qualify placed identifier) rfl Support.areNormal_stackClass
    (areFilled_stackClass seen package simple)⟩

theorem yields_constantsJob (placed : p.options.parserPackage = "" ∨
    ClassName.isQualified p.options.parserPackage = true) :
    p.constantsJob.Yields (JavaName.qualify p.options.parserPackage p.options.constantsName)
      p.constantsInterface.text := by
  have identifier := Grammar.NodeOptions.isIdentifier_constantsName named
  obtain ⟨seen, package, simple⟩ := field?_values_qualify p.field?_constantsJob
    p.options.parserPackage (Grammar.dotFree_of_isIdentifier identifier)
  rw [← textOf_constantsInterface seen package simple rfl rfl]
  exact ClassJob.yields_of_areFilled p.render_constantsJob
    (ClassName.isQualified_qualify placed identifier) rfl Support.areNormal_constantsInterface
    (areFilled_constantsInterface seen package simple)

end

end

theorem isSound_constantsInterface {p : Project} {path text : String}
    (read : Grammar.read path text = .ok p.grammar)
    (named : Grammar.isIdentifier p.options.parserName.toList = true) :
    p.constantsInterface.IsSound where
  origin := by
    change '/' ∉ ((Path.stem? p.grammarPath).getD "Grammar").toList
    cases found : Path.stem? p.grammarPath with
    | none => decide
    | some stem => exact Path.slashFree_of_stem? found
  name := Grammar.NodeOptions.isIdentifier_constantsName named
  constants := by
    intro constant mem
    obtain ⟨⟨raw, value⟩, listed, rfl⟩ := List.mem_map.mp mem
    exact Grammar.isIdentifier_nodeConstant
      (isDotted_of_mem_rawNames read (List.fst_mem_of_mem_zipIdx listed))
  names := fun _ mem => isDotted_of_mem_rawNames read mem

/-- The built-in support files are two. Where names are accepted in their packages, each is
generated and finds all that its template refers to. The interface declares the constants of the
declared nodes in order, and lists their names. -/
theorem supportFiles_yield {p : Project} {path text : String}
    (read : Grammar.read path text = .ok p.grammar)
    (stated : p.options = p.settings.nodeOptions p.grammar)
    (parserPlaced : p.options.parserPackage = "" ∨
      ClassName.isQualified p.options.parserPackage = true)
    (nodesPlaced : p.options.nodePackage = "" ∨
      ClassName.isQualified p.options.nodePackage = true) :
    p.fileJobs p.view.value "support file" Support.files = pure [p.stateJob, p.constantsJob] ∧
      (p.settings.describedSupport p.grammarPath = .ok [] →
        p.settings.supportFiles Support.files p.grammarPath = .ok Support.files) ∧
      (∃ stateText, p.stateJob.Yields p.options.stateClass stateText) ∧
      p.constantsJob.Yields (JavaName.qualify p.options.parserPackage p.options.constantsName)
        p.constantsInterface.text ∧
      p.constantsInterface.IsSound := by
  have named : Grammar.isIdentifier p.options.parserName.toList = true := by
    rw [stated]
    exact Grammar.isIdentifier_parserName (Grammar.hasNames_of_read read)
  refine ⟨p.fileJobs_files, fun none => ?_, p.yields_stateJob named nodesPlaced,
    p.yields_constantsJob named parserPlaced, isSound_constantsInterface read named⟩
  exact supportFiles_of_describedSupport none (by simp [Support.files, FileSpec.isEnabled])

theorem supportFiles_yield_packaged : ∃ p : Project,
    Grammar.read "G.jjt" "PARSER_BEGIN(P)package a;class P{}PARSER_END(P)void A():{}{}" =
        .ok p.grammar ∧
      p.options = p.settings.nodeOptions p.grammar ∧ p.options.parserPackage = "a" ∧
      ClassName.isQualified p.options.parserPackage = true ∧
      ClassName.isQualified p.options.nodePackage = true ∧
      p.constantsJob.Yields "a.PTreeConstants" ("package a;\n\n" ++
        "/* Generated by jjtx from G. Do not edit. */\npublic interface PTreeConstants \x7b\n" ++
        "  int JJTA = 0;\n\n  String[] jjtNodeName = \x7b\n    \"A\",\n  \x7d;\n\x7d\n") := by
  obtain ⟨p, read, stated, package, nodes, className, text⟩ := exists_ofText
    (P := fun p => p.options = p.settings.nodeOptions p.grammar ∧ p.options.parserPackage = "a" ∧
      p.options.nodePackage = "a" ∧
      JavaName.qualify p.options.parserPackage p.options.constantsName = "a.PTreeConstants" ∧
      p.constantsInterface.text = "package a;\n\n" ++
        "/* Generated by jjtx from G. Do not edit. */\npublic interface PTreeConstants \x7b\n" ++
        "  int JJTA = 0;\n\n  String[] jjtNodeName = \x7b\n    \"A\",\n  \x7d;\n\x7d\n")
    "PARSER_BEGIN(P)package a;class P{}PARSER_END(P)void A():{}{}" (by decide +kernel)
  have parserPlaced : ClassName.isQualified p.options.parserPackage = true := by
    rw [package]
    decide
  have nodesPlaced : ClassName.isQualified p.options.nodePackage = true := by
    rw [nodes]
    decide
  obtain ⟨-, -, -, yields, -⟩ :=
    supportFiles_yield read stated (.inr parserPlaced) (.inr nodesPlaced)
  rw [className, text] at yields
  exact ⟨p, read, stated, package, parserPlaced, nodesPlaced, yields⟩

/-- A package whose name begins with another letter is read, and its classes are refused. -/
theorem name_supportFiles_of_accented : ∃ p : Project,
    Grammar.read "G.jjt" "PARSER_BEGIN(P)package é;class P{}PARSER_END(P)void A():{}{}" =
        .ok p.grammar ∧
      p.options.parserPackage = "é" ∧
      p.fileJobs p.view.value "support file" Support.files = pure [p.stateJob, p.constantsJob] ∧
      p.stateJob.name = .error
        { cause := .template p.stateJob.className "'é.JJTPState' is not a qualified class name"
          phase := "template" } ∧
      p.constantsJob.name = .error
        { cause := .template p.constantsJob.className
            "'é.PTreeConstants' is not a qualified class name"
          phase := "template" } := by
  obtain ⟨p, read, package, state, constants⟩ := exists_ofText
    (P := fun p => p.options.parserPackage = "é" ∧ p.options.stateClass = "é.JJTPState" ∧
      JavaName.qualify p.options.parserPackage p.options.constantsName = "é.PTreeConstants")
    "PARSER_BEGIN(P)package é;class P{}PARSER_END(P)void A():{}{}" (by decide +kernel)
  have stateName := ClassJob.name_of_refused p.render_stateJob (by rw [state]; decide)
  have constantsName := ClassJob.name_of_refused p.render_constantsJob
    (by rw [constants]; decide)
  have cleanState : ClassName.clean "é.JJTPState" = "é.JJTPState" := by decide
  have cleanConstants : ClassName.clean "é.PTreeConstants" = "é.PTreeConstants" := by decide
  rw [state, cleanState] at stateName
  rw [constants, cleanConstants] at constantsName
  exact ⟨p, read, package, p.fileJobs_files, stateName, constantsName⟩

end Project

end NodeWeave
