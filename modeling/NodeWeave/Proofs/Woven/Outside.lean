import NodeWeave.Proofs.Woven.ParserUnit

/-! Outside generated regions the woven grammar is that of the grammar with all nodes void. -/

namespace NodeWeave

open Grammar Mark

/-! ### What is left of a grammar -/

namespace Grammar

namespace Expansion

mutual
/-- The text of an expansion outside regions, without blanks. Descriptors leave nothing. -/
def kept : Expansion → List Char
  | sequence units => keptAll units
  | choice alternatives => keptAlternatives alternatives
  | lookahead text => solid text.toList
  | action code => solid ("\x7b" ++ code ++ "\x7d").toList
  | reference target name arguments =>
      solid (assigned target (name ++ "(" ++ arguments ++ ")")).toList
  | terminal target text => solid (assigned target text).toList
  | group inner occurrence =>
      '(' :: kept inner ++ solid (")" ++ (occurrence.map Occurrence.symbol).getD "").toList
  | optional inner => '[' :: kept inner ++ [']']
  | annotated inner _ => kept inner
  | guarded inner catches finallyCode =>
      solid "try \x7b".toList ++ kept inner ++ solid (Woven.clausesText catches finallyCode).toList

def keptAll : List Expansion → List Char
  | [] => []
  | unit :: rest => kept unit ++ keptAll rest

def keptAlternatives : List Expansion → List Char
  | [] => []
  | [last] => kept last
  | alternative :: rest => kept alternative ++ '|' :: keptAlternatives rest
end

theorem keptAlternatives_cons {alternative : Expansion} {rest : List Expansion} (more : rest ≠ []) :
    keptAlternatives (alternative :: rest) = alternative.kept ++ '|' :: keptAlternatives rest := by
  cases rest with
  | nil => exact absurd rfl more
  | cons next others => rfl

structure IsOwnClean (e : Expansion) : Prop where
  texts : ∀ text ∈ e.ownTexts ")", IsFree text.toList
  wordless : ∀ text ∈ e.ownTexts "", Scope.IsWordless text
  names : ∀ name ∈ e.ownNames, SlashFree name

def IsClean (e : Expansion) : Prop :=
  ∀ part ∈ e.preorder, part.IsOwnClean

theorem IsClean.own {e : Expansion} (clean : e.IsClean) : e.IsOwnClean :=
  clean e (mem_preorder_self e)

theorem isClean_of_mem_preorderAll {units : List Expansion} {unit : Expansion}
    (clean : ∀ part ∈ preorderAll units, part.IsOwnClean) (mem : unit ∈ units) :
    unit.IsClean := by
  induction units with
  | nil => cases mem
  | cons first rest ih =>
      rw [preorderAll] at clean
      rcases List.mem_cons.mp mem with rfl | later
      · exact fun part listed => clean part (List.mem_append_left _ listed)
      · exact ih (fun part listed => clean part (List.mem_append_right _ listed)) later

theorem IsClean.sequence {units : List Expansion} (clean : (sequence units).IsClean) :
    ∀ unit ∈ units, unit.IsClean := by
  rw [IsClean, preorder] at clean
  exact fun unit => isClean_of_mem_preorderAll fun part mem =>
    clean part (List.mem_cons_of_mem _ mem)

theorem IsClean.choice {alternatives : List Expansion} (clean : (choice alternatives).IsClean) :
    ∀ alternative ∈ alternatives, alternative.IsClean := by
  rw [IsClean, preorder] at clean
  exact fun alternative => isClean_of_mem_preorderAll fun part mem =>
    clean part (List.mem_cons_of_mem _ mem)

theorem IsClean.inner {outer inner : Expansion} (clean : outer.IsClean)
    (within : outer.preorder = outer :: inner.preorder) : inner.IsClean := by
  rw [IsClean, within] at clean
  exact fun part mem => clean part (List.mem_cons_of_mem _ mem)

end Expansion

end Grammar

/-! ### Texts of an expansion -/

theorem isFree_braced {text : String} (free : IsFree text.toList) :
    IsFree ("\x7b" ++ text ++ "\x7d").toList := by
  have whole : ("\x7b" ++ text ++ "\x7d").toList = ['\x7b'] ++ (text.toList ++ '\x7d' :: []) := by
    simp
  rw [whole]
  exact (free.append_separator isFree_nil (by decide)).prepend (by decide)

theorem isFree_assigned {target : Option String} {text : String}
    (plain : ∀ name ∈ target, SlashFree name) (free : IsFree text.toList) :
    IsFree (assigned target text).toList := by
  cases target with
  | none => exact free
  | some name =>
      rw [assigned, String.toList_append]
      exact free.prepend ((plain name rfl).append (by decide))

theorem isFree_clauses {catches : List CatchClause}
    (parameters : ∀ clause ∈ catches, IsFree (clause.parameter ++ ")").toList)
    (bodies : ∀ clause ∈ catches, IsFree clause.body.toList) {rest : List Char}
    (free : IsFree rest) :
    IsFree ((String.join (catches.map fun c =>
      " catch (" ++ c.parameter ++ ") \x7b" ++ c.body ++ "\x7d")).toList ++ rest) := by
  rw [String.toList_join]
  induction catches with
  | nil => exact free
  | cons clause others ih =>
      have behind := ih (fun c mem => parameters c (List.mem_cons_of_mem _ mem))
        fun c mem => bodies c (List.mem_cons_of_mem _ mem)
      have body : IsFree ('\x7b' :: (clause.body.toList ++ '\x7d' :: _)) :=
        IsFree.prepend ((bodies clause List.mem_cons_self).append_separator behind (by decide))
          (by decide : '/' ∉ ['\x7b'])
      have parameter := (parameters clause List.mem_cons_self).append_separator body
        (by decide : isSeparator ' ' = true)
      have whole := parameter.prepend (by decide : '/' ∉ " catch (".toList)
      have cut : ") \x7b".toList = [')', ' ', '\x7b'] := by decide
      simpa [cut] using whole

theorem isFree_clausesText {catches : List CatchClause} {finallyCode : Option String}
    (parameters : ∀ clause ∈ catches, IsFree (clause.parameter ++ ")").toList)
    (bodies : ∀ clause ∈ catches, IsFree clause.body.toList)
    (cleaned : ∀ code ∈ finallyCode, IsFree code.toList) :
    IsFree (Woven.clausesText catches finallyCode).toList := by
  unfold Woven.clausesText
  dsimp only
  rw [String.append_assoc, String.toList_append, String.toList_append]
  refine (isFree_clauses parameters bodies ?_).prepend (by decide)
  cases finallyCode with
  | none => exact isFree_nil
  | some code =>
      have final := (cleaned code rfl).append_separator isFree_nil
        (by decide : isSeparator '\x7d' = true)
      have whole := final.prepend (by decide : '/' ∉ " finally \x7b".toList)
      simpa using whole

theorem Piece.leaves_raw {text : String} {front : List Char} {c : Char} (free : IsFree front)
    (apart : isSeparator c = true) (ends : text.toList = front ++ [c]) :
    Leaves [.raw text] (solid text.toList) := by
  refine leaves_plain ⟨⟨front, c, ends, apart⟩, ?_⟩
  rw [Piece.text, ends]
  exact free.append_separator isFree_nil apart

/-! ### Guards -/

theorem Guard.leaves_around {guard : Guard} {body lines : List Piece} {kept : List Char}
    {level inner last : Nat} {label : Option String}
    (labelFree : ∀ text ∈ label, IsFree text.toList) (linesPlain : ∀ piece ∈ lines, piece.IsPlain)
    (exception : SlashFree guard.exception)
    (handler : ∀ statement ∈ guard.handler, statement.IsPlain)
    (cleanup : ∀ statement ∈ guard.cleanup, statement.IsPlain)
    (leaves : Piece.Leaves body kept) :
    Piece.Leaves (.regionStart level label :: lines ++ guard.around inner body ++
      [.regionStop last]) kept := by
  have opened : Piece.Leaves (.regionStart level label ::
      (lines ++ [.line inner "try \x7b"]) ++ [.regionStop inner]) [] := by
    refine Piece.leaves_region labelFree fun piece mem => ?_
    rcases List.mem_append.mp mem with listed | try_
    · exact linesPlain piece listed
    · rw [List.mem_singleton.mp try_]
      exact Piece.isPlain_line inner (SlashFree.isFree (by decide))
  have closed : Piece.Leaves (.regionStart inner none ::
      (.line inner ("\x7d catch (Throwable " ++ guard.exception ++ ") \x7b") ::
        (Statement.piecesAll (inner + 1) guard.handler ++ [.line inner "\x7d finally \x7b"] ++
          Statement.piecesAll (inner + 1) guard.cleanup ++ [.line inner "\x7d"])) ++
      [.regionStop last]) [] := by
    refine Piece.leaves_region nofun fun piece mem => ?_
    simp only [List.mem_cons, List.mem_append, List.not_mem_nil, or_false] at mem
    rcases mem with rfl | ((handled | rfl) | cleaned) | rfl
    · exact Piece.isPlain_line inner
        ((SlashFree.append (by decide) exception).append (by decide)).isFree
    · exact Statement.isPlain_piecesAll handler (inner + 1) piece handled
    · exact Piece.isPlain_line inner (SlashFree.isFree (by decide))
    · exact Statement.isPlain_piecesAll cleanup (inner + 1) piece cleaned
    · exact Piece.isPlain_line inner (SlashFree.isFree (by decide))
  have whole := (opened.append leaves).append closed
  simpa [Guard.around] using whole

/-! ### Woven productions -/

namespace WovenProduction

variable {header declarations text nodeName : String} {opening : List Statement} {body : Woven}
  {guard : Guard} {kept : List Char}

theorem leaves_header (free : IsFree (header.toList ++ [' '])) :
    Piece.Leaves [.line 0 (header ++ " :")] (solid (header ++ " :").toList) := by
  have colon := free.append_separator isFree_nil (by decide : isSeparator ':' = true)
  exact Piece.leaves_line 0 (by simpa using colon)

theorem leaves_brace : Piece.Leaves [.raw "\x7b"] (solid "\x7b".toList) :=
  Piece.leaves_raw isFree_nil (by decide : isSeparator '\x7b' = true) (by decide)

theorem leaves_end : Piece.Leaves [.line 0 "\x7d"] (solid "\x7d".toList) :=
  Piece.leaves_line 0 (SlashFree.isFree (by decide))

theorem leaves_keyword : Piece.Leaves [.line 0 "JAVACODE"] (solid "JAVACODE".toList) :=
  Piece.leaves_line 0 (SlashFree.isFree (by decide))

theorem leaves_rules (free : IsFree (header.toList ++ [' ']))
    (declared : IsFree declarations.toList) (within : Piece.Leaves (body.pieces 1) kept) :
    Piece.Leaves (rules header declarations body).pieces
      (solid (header ++ " :").toList ++ solid ("\x7b" ++ declarations ++ "\x7d").toList ++
        '\x7b' :: kept ++ ['\x7d']) := by
  have stated : Piece.Leaves [.raw ("\x7b" ++ declarations ++ "\x7d\n")] _ :=
    Piece.leaves_raw (isFree_braced declared) (by decide : isSeparator '\n' = true) (by simp)
  have brace := Piece.leaves_line 0 (SlashFree.isFree (by decide) : IsFree "\x7b".toList)
  have whole :=
    ((((leaves_header free).append stated).append brace).append within).append leaves_end
  simpa [pieces, solid, Text.isBlank] using whole

theorem leaves_scopedRules (free : IsFree (header.toList ++ [' ']))
    (declared : IsFree declarations.toList) (named : SlashFree nodeName)
    (opened : ∀ statement ∈ opening, statement.IsPlain) (exception : SlashFree guard.exception)
    (handler : ∀ statement ∈ guard.handler, statement.IsPlain)
    (cleanup : ∀ statement ∈ guard.cleanup, statement.IsPlain)
    (within : Piece.Leaves (body.pieces 2) kept) :
    Piece.Leaves (scopedRules header nodeName opening declarations body guard).pieces
      (solid (header ++ " :").toList ++ solid ("\x7b" ++ declarations ++ "\x7d").toList ++
        '\x7b' :: kept ++ ['\x7d']) := by
  have labelFree : ∀ label ∈ some nodeName, IsFree label.toList :=
    fun label same => Option.some.inj same ▸ named.isFree
  have guarded := @Guard.leaves_around guard _ [] _ 0 1 0 _ labelFree nofun exception handler
    cleanup within
  have started := @Piece.leaves_region 0 0 _ _ labelFree (Statement.isPlain_piecesAll opened 1)
  have stated : Piece.Leaves [.raw (declarations ++ "\x7d\n")] _ :=
    Piece.leaves_raw (declared.append_separator isFree_nil (by decide : isSeparator '\x7d' = true))
      (by decide : isSeparator '\n' = true) (by simp)
  have whole := ((((((leaves_header free).append leaves_brace).append started).append
    stated).append leaves_brace).append guarded).append leaves_end
  simpa [pieces, solid, Text.isBlank] using whole

theorem leaves_code (free : IsFree (header.toList ++ [' '])) (textFree : IsFree text.toList) :
    Piece.Leaves (code header text).pieces
      (solid "JAVACODE".toList ++ solid (header ++ " \x7b" ++ text ++ "\x7d").toList) := by
  have ended := textFree.append_separator isFree_nil (by decide : isSeparator '\x7d' = true)
  have whole := free.append_separator ended (by decide : isSeparator '\x7b' = true)
  have stated : Piece.Leaves [.raw (header ++ " \x7b" ++ text ++ "\x7d\n")] _ :=
    Piece.leaves_raw whole (by decide : isSeparator '\n' = true) (by simp)
  simpa [pieces, solid, Text.isBlank] using leaves_keyword.append stated

theorem leaves_scopedCode (free : IsFree (header.toList ++ [' '])) (textFree : IsFree text.toList)
    (named : SlashFree nodeName) (opened : ∀ statement ∈ opening, statement.IsPlain)
    (exception : SlashFree guard.exception)
    (handler : ∀ statement ∈ guard.handler, statement.IsPlain)
    (cleanup : ∀ statement ∈ guard.cleanup, statement.IsPlain) :
    Piece.Leaves (scopedCode header nodeName opening text guard).pieces
      (solid "JAVACODE".toList ++ solid (header ++ " \x7b" ++ text ++ "\x7d").toList) := by
  have labelFree : ∀ label ∈ some nodeName, IsFree label.toList :=
    fun label same => Option.some.inj same ▸ named.isFree
  have body : Piece.Leaves [.raw (text ++ "\n")] _ :=
    Piece.leaves_raw textFree (by decide : isSeparator '\n' = true) (by simp)
  have stated : Piece.Leaves [.raw (header ++ " \x7b")] _ :=
    Piece.leaves_raw free (by decide : isSeparator '\x7b' = true) (by simp)
  have guarded := @Guard.leaves_around guard _ _ _ 0 1 0 _ labelFree
    (Statement.isPlain_piecesAll opened 1) exception handler cleanup body
  have whole := ((leaves_keyword.append stated).append guarded).append leaves_end
  simpa [pieces, solid, Text.isBlank] using whole

end WovenProduction

/-! ### Expansions -/

namespace Grammar

/-- The names with which productions of a grammar are woven are clean. -/
structure IsCleanSetting (g : Grammar) (style : ScopeStyle) : Prop where
  optionNames : ∀ name ∈ style.options.names, SlashFree name
  thrown : ∀ q ∈ g.productions, ∀ exception ∈ q.throws, SlashFree exception

variable {g : Grammar} {style : ScopeStyle} {p : Production} {scope : Option Scope}

theorem IsCleanSetting.factory (setting : IsCleanSetting g style) :
    SlashFree style.options.nodeFactory :=
  setting.optionNames _ (by simp [NodeOptions.names])

theorem isClean_opened {inner : Expansion} {node : Descriptor} {depth : Nat} {opened : Scope}
    (setting : IsCleanSetting g style) (clean : (Expansion.annotated inner node).IsOwnClean)
    (found : style.open? (.unit node) depth = some opened) : opened.IsClean := by
  refine ScopeStyle.isClean_of_open? found setting.optionNames ?_ ?_
  · intro name named
    unfold Opener.nodeName? at named
    dsimp only at named
    split at named
    · cases named
    · cases named
      exact clean.names node.name (List.mem_singleton_self _)
  · intro condition stated
    have stated' : node.condition = some condition := stated
    constructor
    · exact clean.texts _ (by simp [Expansion.ownTexts, Descriptor.texts, stated'])
    · exact clean.wordless _ (by simp [Expansion.ownTexts, Descriptor.texts, stated'])

theorem leaves_action {code : String} (scopeClean : ∀ opened ∈ scope, opened.IsClean)
    (clean : (Expansion.action code).IsOwnClean) (atEnd : Bool) (level : Nat) :
    Piece.Leaves ((weaveAction style scope atEnd code).pieces level)
      (Expansion.action code).kept := by
  have free : IsFree ("\x7b" ++ code ++ "\x7d").toList :=
    isFree_braced (clean.texts code (List.mem_singleton_self _))
  have wordless := clean.wordless code (List.mem_singleton_self _)
  unfold weaveAction
  simp only [Scope.resolveIn_of_wordless wordless]
  cases scope with
  | none => exact Piece.leaves_line level free
  | some opened =>
      dsimp only
      split
      · have early : Piece.Leaves ((Woven.earlyClose (style.closing opened false)).pieces level)
            [] := by
          refine Piece.leaves_region (fun label given => (Option.not_mem_none label given).elim)
            (Statement.isPlain_block (by decide) ?_)
          exact Statement.isPlain_piecesAll
            (ScopeStyle.isPlain_closing (scopeClean opened rfl) false) (level + 1)
        rw [Woven.pieces, Woven.piecesAll, Woven.piecesAll, Woven.piecesAll, List.append_nil]
        exact early.append (Piece.leaves_line level free)
      · exact Piece.leaves_line level free

theorem leaves_reference {target : Option String} {name arguments : String}
    (clean : (Expansion.reference target name arguments).IsOwnClean) (level : Nat) :
    Piece.Leaves [.line level (assigned target (name ++ "(" ++ arguments ++ ")"))]
      (Expansion.reference target name arguments).kept := by
  have named : SlashFree (name ++ "(") :=
    SlashFree.append (clean.names name (by simp [Expansion.ownNames])) (by decide)
  have free := clean.texts (arguments ++ ")") (List.mem_singleton_self _)
  refine Piece.leaves_line level (isFree_assigned ?_ ?_)
  · intro other stated
    exact clean.names other (by simp_all [Expansion.ownNames])
  · rw [String.append_assoc, String.toList_append]
    exact free.prepend named

theorem leaves_terminal {target : Option String} {text : String}
    (clean : (Expansion.terminal target text).IsOwnClean) (level : Nat) :
    Piece.Leaves [.line level (assigned target text)] (Expansion.terminal target text).kept := by
  refine Piece.leaves_line level (isFree_assigned ?_ ?_)
  · intro other stated
    exact clean.names other (by simp_all [Expansion.ownNames])
  · exact clean.texts text (List.mem_singleton_self _)

theorem leaves_clauses {inner : Expansion} {catches : List CatchClause}
    {finallyCode : Option String} (clean : (Expansion.guarded inner catches finallyCode).IsOwnClean)
    (scope : Option Scope) (level : Nat) :
    Piece.Leaves [.line level (Woven.clausesText (catches.map (resolveClause scope))
        (finallyCode.map (Scope.resolveIn scope)))]
      (solid (Woven.clausesText catches finallyCode).toList) := by
  have listed : ∀ clause ∈ catches, resolveClause scope clause = clause := by
    intro clause mem
    have wordless := clean.wordless clause.body (by
      simp only [Expansion.ownTexts, List.mem_append, List.mem_flatMap]
      exact .inl ⟨clause, mem, by simp⟩)
    rw [resolveClause, Scope.resolveIn_of_wordless wordless]
  have same : catches.map (resolveClause scope) = catches := by
    rw [List.map_congr_left listed, List.map_id']
  have final : finallyCode.map (Scope.resolveIn scope) = finallyCode := by
    cases finallyCode with
    | none => rfl
    | some code =>
        exact congrArg some (Scope.resolveIn_of_wordless
          (clean.wordless code (by simp [Expansion.ownTexts])) scope)
  rw [same, final]
  refine Piece.leaves_line level (isFree_clausesText ?_ ?_ ?_)
  · intro clause mem
    refine clean.texts _ ?_
    simp only [Expansion.ownTexts, List.mem_append, List.mem_flatMap]
    exact .inl ⟨clause, mem, by simp⟩
  · intro clause mem
    refine clean.texts _ ?_
    simp only [Expansion.ownTexts, List.mem_append, List.mem_flatMap]
    exact .inl ⟨clause, mem, by simp⟩
  · intro code stated
    exact clean.texts _ (by simp_all [Expansion.ownTexts])

theorem leaves_symbol (level : Nat) (occurrence : Option Occurrence) :
    Piece.Leaves [.line level (")" ++ (occurrence.map Occurrence.symbol).getD "")]
      (solid (")" ++ (occurrence.map Occurrence.symbol).getD "").toList) := by
  refine Piece.leaves_line level (SlashFree.isFree (SlashFree.append (by decide) ?_))
  match occurrence with
  | none | some .optional | some .many | some .some => decide

mutual
/-- The scopes of an expansion change nothing outside regions. -/
theorem leaves_weaveExpansion (setting : IsCleanSetting g style) (declared : p ∈ g.productions)
    {scope : Option Scope} (scopeClean : ∀ opened ∈ scope, opened.IsClean) (atEnd : Bool)
    (level : Nat) : ∀ e : Expansion, e.IsClean →
      Piece.Leaves ((weaveExpansion g style p scope atEnd e).pieces level) e.kept
  | .sequence units, clean => by
      rw [weaveExpansion, Woven.pieces, Expansion.kept]
      exact leaves_weaveSequence setting declared scopeClean atEnd level units clean.sequence
  | .choice alternatives, clean => by
      rw [weaveExpansion, Woven.pieces, Expansion.kept]
      exact leaves_weaveChoices setting declared scopeClean atEnd level alternatives clean.choice
  | .lookahead text, clean => by
      rw [weaveExpansion, Woven.pieces, Expansion.kept]
      exact Piece.leaves_line level (clean.own.texts text (List.mem_singleton_self _))
  | .action code, clean => by
      rw [weaveExpansion]
      exact leaves_action scopeClean clean.own atEnd level
  | .reference target name arguments, clean => by
      rw [weaveExpansion, Woven.pieces]
      exact leaves_reference clean.own level
  | .terminal target text, clean => by
      rw [weaveExpansion, Woven.pieces]
      exact leaves_terminal clean.own level
  | .group inner occurrence, clean => by
      rw [weaveExpansion, Woven.pieces, Expansion.kept]
      have body := leaves_weaveExpansion setting declared scopeClean (atEnd && occurrence.isNone)
        (level + 1) inner (clean.inner rfl)
      have opening := Piece.leaves_line level (SlashFree.isFree (by decide) : IsFree "(".toList)
      exact (opening.append body).append (leaves_symbol level occurrence)
  | .optional inner, clean => by
      rw [weaveExpansion, Woven.pieces, Expansion.kept]
      have body := leaves_weaveExpansion setting declared scopeClean false (level + 1) inner
        (clean.inner rfl)
      have opening := Piece.leaves_line level (SlashFree.isFree (by decide) : IsFree "[".toList)
      have closing := Piece.leaves_line level (SlashFree.isFree (by decide) : IsFree "]".toList)
      exact (opening.append body).append closing
  | .annotated inner node, clean => by
      rw [weaveExpansion, Expansion.kept]
      have within : inner.IsClean := clean.inner rfl
      split
      · exact leaves_weaveExpansion setting declared scopeClean atEnd level inner within
      · next opened found =>
          have openedClean := isClean_opened setting clean.own found
          have body := @leaves_weaveExpansion setting declared (some opened)
            (fun other same => Option.some.inj same ▸ openedClean) true (level + 1) inner within
          rw [Woven.pieces]
          refine Guard.leaves_around ?_ ?_ openedClean.exception ?_ ?_ body
          · exact fun text same => Option.some.inj same ▸ Scope.isFree_description openedClean
          · exact Statement.isPlain_block (by decide) (Statement.isPlain_piecesAll
              (ScopeStyle.isPlain_opening openedClean setting.factory) (level + 1))
          · exact Scope.isPlain_handler openedClean
              (slashFree_exceptionSet declared setting.thrown inner)
          · exact ScopeStyle.isPlain_cleanup openedClean
  | .guarded inner catches finallyCode, clean => by
      rw [weaveExpansion, Woven.pieces, Expansion.kept]
      have body := leaves_weaveExpansion setting declared scopeClean atEnd (level + 1) inner
        (clean.inner rfl)
      have opening := Piece.leaves_line level
        (SlashFree.isFree (by decide) : IsFree "try \x7b".toList)
      exact (opening.append body).append (leaves_clauses clean.own scope level)

theorem leaves_weaveSequence (setting : IsCleanSetting g style) (declared : p ∈ g.productions)
    {scope : Option Scope} (scopeClean : ∀ opened ∈ scope, opened.IsClean) (atEnd : Bool)
    (level : Nat) : ∀ units : List Expansion, (∀ unit ∈ units, unit.IsClean) →
      Piece.Leaves (Woven.piecesAll level (weaveSequence g style p scope atEnd units))
        (Expansion.keptAll units)
  | [], _ => Piece.leaves_nil
  | [last], clean => by
      rw [weaveSequence, Woven.piecesAll, Expansion.keptAll]
      exact (leaves_weaveExpansion setting declared scopeClean atEnd level last
        (clean last List.mem_cons_self)).append Piece.leaves_nil
  | unit :: next :: rest, clean => by
      rw [weaveSequence, Woven.piecesAll, Expansion.keptAll]
      · exact (leaves_weaveExpansion setting declared scopeClean false level unit
          (clean unit List.mem_cons_self)).append
            (leaves_weaveSequence setting declared scopeClean atEnd level (next :: rest)
              fun other mem => clean other (List.mem_cons_of_mem _ mem))
      · exact List.cons_ne_nil next rest

theorem leaves_weaveChoices (setting : IsCleanSetting g style) (declared : p ∈ g.productions)
    {scope : Option Scope} (scopeClean : ∀ opened ∈ scope, opened.IsClean) (atEnd : Bool)
    (level : Nat) : ∀ alternatives : List Expansion,
      (∀ alternative ∈ alternatives, alternative.IsClean) →
      Piece.Leaves (Woven.alternativePieces level
        (weaveChoices g style p scope atEnd alternatives)) (Expansion.keptAlternatives alternatives)
  | [], _ => Piece.leaves_nil
  | [last], clean => by
      rw [weaveChoices, weaveChoices, Woven.alternativePieces, Expansion.keptAlternatives]
      exact leaves_weaveExpansion setting declared scopeClean atEnd level last
        (clean last List.mem_cons_self)
  | alternative :: next :: rest, clean => by
      have first := leaves_weaveExpansion setting declared scopeClean atEnd level alternative
        (clean alternative List.mem_cons_self)
      have others := leaves_weaveChoices setting declared scopeClean atEnd level (next :: rest)
        fun other mem => clean other (List.mem_cons_of_mem _ mem)
      have bar := Piece.leaves_line level (SlashFree.isFree (by decide) : IsFree "|".toList)
      rw [weaveChoices, Expansion.keptAlternatives_cons (List.cons_ne_nil next rest)]
      rw [weaveChoices] at others ⊢
      rw [Woven.alternativePieces]
      · exact first.append (bar.append others)
      · exact List.cons_ne_nil _ _
end

/-! ### Productions -/

structure Production.IsClean (p : Production) : Prop where
  texts : ∀ text ∈ p.texts ")", IsFree text.toList
  wordless : ∀ text ∈ p.texts "", Scope.IsWordless text
  names : ∀ name ∈ p.names, SlashFree name

/-- The text of a production outside regions, without blanks. -/
def Production.kept (p : Production) : List Char :=
  match p.body with
  | .rules declarations e =>
      solid (p.fullHeader ++ " :").toList ++ solid ("\x7b" ++ declarations ++ "\x7d").toList ++
        '\x7b' :: e.kept ++ ['\x7d']
  | .code text =>
      solid "JAVACODE".toList ++ solid (p.fullHeader ++ " \x7b" ++ text ++ "\x7d").toList

namespace Production

theorem IsClean.expansion {p : Production} (clean : p.IsClean) {declarations : String}
    {e : Expansion} (body : p.body = .rules declarations e) : e.IsClean := by
  intro part mem
  constructor
  · intro text listed
    refine clean.texts text ?_
    simp only [Production.texts, body, Body.texts, List.mem_cons, List.mem_append, List.mem_flatMap]
    exact .inr (.inr ⟨part, mem, listed⟩)
  · intro text listed
    refine clean.wordless text ?_
    simp only [Production.texts, body, Body.texts, List.mem_cons, List.mem_append, List.mem_flatMap]
    exact .inr (.inr ⟨part, mem, listed⟩)
  · intro name listed
    refine clean.names name ?_
    simp only [Production.names, body, Body.names, List.mem_cons, List.mem_append, List.mem_flatMap]
    exact .inr ⟨part, mem, listed⟩

theorem IsClean.throws {p : Production} (clean : p.IsClean) :
    ∀ exception ∈ p.throws, SlashFree exception := by
  intro exception mem
  exact clean.names exception (by simp [Production.names, mem])

theorem isClean_opened {p : Production} {opened : Scope} (setting : IsCleanSetting g style)
    (clean : p.IsClean) (found : style.open? (.production p) 0 = some opened) :
    opened.IsClean := by
  refine ScopeStyle.isClean_of_open? found setting.optionNames ?_ ?_
  · intro name named
    have owned : p.nodeName? style.options.defaultVoid = some name := named
    unfold nodeName? at owned
    split at owned
    · next node stated =>
        split at owned
        · cases owned
        · cases owned
          exact clean.names node.name (by simp [Production.names, stated])
    · split at owned
      · cases owned
      · cases owned
        exact clean.names p.name (by simp [Production.names])
  · intro condition stated
    obtain ⟨node, described, conditional⟩ := Option.bind_eq_some_iff.mp stated
    have described' : p.descriptor = some node := described
    have texts : ∀ closing, condition.text ++ closing ∈ p.texts closing := by
      intro closing
      simp [Production.texts, described', Descriptor.texts, conditional]
    constructor
    · exact clean.texts _ (texts ")")
    · have wordless := clean.wordless _ (texts "")
      rwa [String.append_empty] at wordless

theorem isFree_header {p : Production} (clean : p.IsClean) :
    IsFree (p.fullHeader.toList ++ [' ']) := by
  have header := clean.texts p.header (by simp [Production.texts])
  have space : isSeparator ' ' = true := by decide
  unfold fullHeader
  split
  · exact header.append_separator isFree_nil space
  · have thrown : SlashFree (Text.join ", " p.throws) :=
      ParserSupport.slashFree_join (by decide) clean.throws
    have thrownText : '/' ∉ "throws ".toList ++ (Text.join ", " p.throws).toList := by
      rw [List.mem_append, not_or]
      exact ⟨by decide, thrown⟩
    have front := header.append_separator (isFree_of_no_slash thrownText) space
    have cut : " throws ".toList = ' ' :: "throws ".toList := by decide
    have whole := front.append_separator isFree_nil space
    simpa [cut] using whole

theorem leaves_weaveProduction {p : Production} (setting : IsCleanSetting g style)
    (declared : p ∈ g.productions) (clean : p.IsClean) :
    Piece.Leaves (g.weaveProduction style p).pieces p.kept := by
  unfold weaveProduction
  split
  · next declarations e body _ =>
      have free : IsFree declarations.toList :=
        clean.texts declarations (by simp [Production.texts, body, Body.texts])
      have within := leaves_weaveExpansion setting declared (nofun : ∀ opened ∈ none, _) false 1 e
        (clean.expansion body)
      rw [kept, body]
      exact WovenProduction.leaves_rules (isFree_header clean) free within
  · next declarations e opened body found =>
      have openedClean := isClean_opened setting clean found
      have free : IsFree declarations.toList :=
        clean.texts declarations (by simp [Production.texts, body, Body.texts])
      have wordless : Scope.IsWordless declarations :=
        clean.wordless declarations (by simp [Production.texts, body, Body.texts])
      have within := @leaves_weaveExpansion _ _ _ setting declared (some opened)
        (fun other same => Option.some.inj same ▸ openedClean) true 2 e (clean.expansion body)
      rw [kept, body, opened.resolve_of_wordless wordless]
      exact WovenProduction.leaves_scopedRules (isFree_header clean) free openedClean.nodeName
        (ScopeStyle.isPlain_opening openedClean setting.factory) openedClean.exception
        (Scope.isPlain_handler openedClean (slashFree_exceptionSet declared setting.thrown e))
        (ScopeStyle.isPlain_cleanup openedClean) within
  · next text body _ =>
      have free : IsFree text.toList :=
        clean.texts text (by simp [Production.texts, body, Body.texts])
      rw [kept, body]
      exact WovenProduction.leaves_code (isFree_header clean) free
  · next text opened body found =>
      have openedClean := isClean_opened setting clean found
      have free : IsFree text.toList :=
        clean.texts text (by simp [Production.texts, body, Body.texts])
      have wordless : Scope.IsWordless text :=
        clean.wordless text (by simp [Production.texts, body, Body.texts])
      rw [kept, body, opened.resolve_of_wordless wordless]
      exact WovenProduction.leaves_scopedCode (isFree_header clean) free openedClean.nodeName
        (ScopeStyle.isPlain_opening openedClean setting.factory) openedClean.exception
        (Scope.isPlain_handler openedClean (slashFree_withStandardExceptions clean.throws))
        (ScopeStyle.isPlain_cleanup openedClean)

end Production

end Grammar

end NodeWeave
