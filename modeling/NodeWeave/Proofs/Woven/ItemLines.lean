import NodeWeave.Proofs.Grammar.FileTexts
import NodeWeave.Proofs.Woven.ExpansionTexts

/-!
The lines of a woven grammar are the texts of its items, one behind the other. Main statement: where
what the host language gives to a production closes all that it opens, the lines that are woven of
the production are those of one with the same name, kind and exceptions, whose header is the same up
to blanks at the ends of lines, and which opens no node.
-/

namespace NodeWeave

open Grammar Grammar.Format Text

/-! ### Ends of pieces -/

namespace Piece

/-- The ends of all pieces stay, whatever stands behind them. -/
def AllKept (pieces : List Piece) : Prop :=
  ∀ piece ∈ pieces, piece.IsKept

variable {pieces more : List Piece} {piece : Piece} {level : Nat}

@[simp] theorem allKept_nil : AllKept [] := nofun

@[simp] theorem allKept_cons : AllKept (piece :: pieces) ↔ piece.IsKept ∧ AllKept pieces :=
  List.forall_mem_cons

@[simp] theorem allKept_append : AllKept (pieces ++ more) ↔ AllKept pieces ∧ AllKept more :=
  List.forall_mem_append

attribute [simp] isKept_line isKept_regionStart isKept_regionStop

theorem isKept_raw (front : String) {back : String} {c : Char}
    (last : back.toList.getLast? = some c) (kept : Text.IsKept c) :
    (raw (front ++ back)).IsKept := by
  intro d ends
  rw [text, String.toList_append, List.getLast?_append, last] at ends
  cases ends
  exact kept

theorem allKept_block {head : String} (inside : AllKept pieces) :
    AllKept (block level head pieces) := by
  simp [block, inside]

theorem written_openBrace : written [line 0 "\x7b"] = ['\x7b', '\n'] := by decide

theorem written_closeBrace : written [line 0 "\x7d"] = ['\x7d', '\n'] := by decide

end Piece

namespace Statement

mutual
theorem allKept_pieces (level : Nat) : ∀ statement : Statement,
    Piece.AllKept (statement.pieces level)
  | ifFlag _ body => by
      rw [pieces]
      exact Piece.allKept_block (allKept_piecesAll (level + 1) body)
  | ifFlagElse _ body otherwise => by
      simp [pieces, allKept_piecesAll (level + 1) body, allKept_piecesAll (level + 1) otherwise]
  | rethrow _ _ => by
      rw [pieces]
      exact Piece.allKept_block (by simp)
  | makeNode _ _ _ | raiseFlag _ | lowerFlag _ | openScope _ | closeScope _ _
    | clearScope _ | popNode
  | openHook _ | closeHook _ | firstToken _ | lastToken _ | throwAsError _ => by simp [pieces]

theorem allKept_piecesAll (level : Nat) : ∀ statements : List Statement,
    Piece.AllKept (piecesAll level statements)
  | [] => Piece.allKept_nil
  | statement :: rest => by
      rw [piecesAll, Piece.allKept_append]
      exact ⟨allKept_pieces level statement, allKept_piecesAll level rest⟩
end

end Statement

theorem Guard.allKept_around {guard : Guard} {level : Nat} {body : List Piece}
    (inside : Piece.AllKept body) : Piece.AllKept (guard.around level body) := by
  simp [around, inside, Statement.allKept_piecesAll]

namespace Woven

mutual
theorem allKept_pieces (level : Nat) : ∀ woven : Woven, Piece.AllKept (woven.pieces level)
  | element _ | action _ => by simp [pieces]
  | earlyClose statements => by
      simp [pieces, Piece.allKept_block, Statement.allKept_piecesAll]
  | sequence units => by
      rw [pieces]
      exact allKept_piecesAll level units
  | choice alternatives => by
      rw [pieces]
      exact allKept_alternativePieces level alternatives
  | group inner _ | optional inner | guarded inner _ _ => by
      simp [pieces, allKept_pieces (level + 1) inner]
  | scope _ opening body guard => by
      simp [pieces, Piece.allKept_block, Statement.allKept_piecesAll,
        Guard.allKept_around (allKept_pieces (level + 1) body)]

theorem allKept_piecesAll (level : Nat) : ∀ units : List Woven,
    Piece.AllKept (piecesAll level units)
  | [] => Piece.allKept_nil
  | unit :: rest => by
      rw [piecesAll, Piece.allKept_append]
      exact ⟨allKept_pieces level unit, allKept_piecesAll level rest⟩

theorem allKept_alternativePieces (level : Nat) : ∀ alternatives : List Woven,
    Piece.AllKept (alternativePieces level alternatives)
  | [] => Piece.allKept_nil
  | [last] => allKept_pieces level last
  | alternative :: next :: rest => by
      have listed : alternativePieces level (alternative :: next :: rest) =
          pieces level alternative ++
            .line level "|" :: alternativePieces level (next :: rest) := by
        rw [alternativePieces]
        exact nofun
      rw [listed, Piece.allKept_append, Piece.allKept_cons]
      exact ⟨allKept_pieces level alternative, Piece.isKept_line,
        allKept_alternativePieces level (next :: rest)⟩
end

end Woven

theorem WovenProduction.allKept_pieces (woven : WovenProduction) : Piece.AllKept woven.pieces := by
  have feed (front : String) : (Piece.raw (front ++ "\n")).IsKept :=
    Piece.isKept_raw front (c := '\n') rfl (.inr rfl)
  have closing (front : String) : (Piece.raw (front ++ "\x7d\n")).IsKept :=
    Piece.isKept_raw front (c := '\n') rfl (.inr rfl)
  have opening (front : String) : (Piece.raw (front ++ " \x7b")).IsKept :=
    Piece.isKept_raw front (c := '\x7b') rfl (.inl rfl)
  have brace : (Piece.raw "\x7b").IsKept := by
    rintro _ ⟨⟩
    exact .inl rfl
  cases woven with
  | rules header declarations body => simp [pieces, Woven.allKept_pieces, closing]
  | scopedRules header nodeName statements declarations body guard =>
      simp [pieces, Guard.allKept_around (Woven.allKept_pieces 2 body), Statement.allKept_piecesAll,
        closing, brace]
  | code header text => simp [pieces, closing]
  | scopedCode header nodeName statements text guard =>
      have inside : Piece.AllKept [Piece.raw (text ++ "\n")] := by simp [feed]
      simp [pieces, Guard.allKept_around inside, Statement.allKept_piecesAll, opening]

/-! ### Headers -/

namespace Grammar.Format

variable {h : Heading} {throws : List (List Char)} {c : Char}

theorem not_mem_throwsText (dotted : ∀ name ∈ throws, isDotted name = true) :
    '\n' ∉ throwsText throws := by
  have word : '\n' ∉ " throws ".toList := by decide
  have comma : '\n' ∉ ", ".toList := by decide
  have named : ∀ name ∈ throws, '\n' ∉ name := by
    intro name mem inside
    have := (isDottedChar_of_mem (dotted name mem) inside).solid
    cases this
  unfold throwsText
  split
  · exact List.not_mem_nil
  · cases throws with
    | nil => simp [listed]
    | cons name rest =>
        rw [List.forall_mem_cons] at named
        simp only [listed, List.mem_append, List.mem_flatMap, not_or, not_exists, not_and]
        exact ⟨word, named.1, fun other mem => ⟨comma, named.2 other mem⟩⟩

theorem Heading.exists_head (closed : h.IsClosed) (rest : List Char) :
    ∃ c, (h.text ++ rest).head? = some c ∧ isBlank c = false := by
  obtain ⟨name, s, u, whole, identifier, -⟩ := Heading.isHeaded closed rest
  obtain ⟨c, more, rfl, first, -⟩ := exists_cons_of_isIdentifier identifier
  exact ⟨c, by rw [whole]; rfl, IsDottedChar.solid (.inr (isNameChar_of_isNameStart first))⟩

theorem Heading.getLast?_text (h : Heading) : h.text.getLast? = some ')' := by
  have typed : h.typed.getLast? = some ')' := by
    have whole : h.typed = h.first ++ (h.dots ++ (h.angled ++ h.squares)) ++ ' ' :: (h.name ++
        '(' :: h.parameters) ++ [')'] := by
      rw [Heading.typed_eq]
      simp
    rw [whole, List.getLast?_concat]
  rw [Heading.text]
  split
  · rw [List.getLast?_append, List.getLast?_cons, typed]
    rfl
  · exact typed

/-- Of a header and what stands behind it, the header and what stands behind it are trimmed. -/
theorem trimLines_header (closed : h.IsClosed) (dotted : ∀ name ∈ throws, isDotted name = true)
    (solid : isBlank c = false) (rest : List Char) :
    trimLines (h.text ++ (throwsText throws ++ ' ' :: c :: rest)) =
      h.trimmed.text ++ (throwsText throws ++ ' ' :: c :: trimLines rest) := by
  have whole (rest : List Char) : throwsText throws ++ ' ' :: c :: rest =
      (throwsText throws ++ [' ']) ++ c :: rest := by simp
  have oneLine : '\n' ∉ throwsText throws ++ [' '] := by
    rw [List.mem_append, not_or]
    exact ⟨not_mem_throwsText dotted, by decide⟩
  have last : ∀ d ∈ h.text.getLast?, IsKept d := by
    rw [Heading.getLast?_text]
    rintro _ ⟨⟩
    exact .inl rfl
  rw [trimLines_append (.inl last), Heading.trimLines_text closed, whole,
    trimLines_append_solid solid, trimLines_of_not_mem oneLine, ← whole]

end Grammar.Format

theorem toList_join_eq_listed (names : List String) :
    (Text.join ", " names).toList = listed (names.map String.toList) := by
  induction names with
  | nil => rfl
  | cons name rest ih =>
      cases rest with
      | nil => simp [Text.join, listed]
      | cons next rest =>
          have joined : Text.join ", " (name :: next :: rest) =
              name ++ ", " ++ Text.join ", " (next :: rest) := rfl
          rw [joined, String.toList_append, ih, String.toList_append]
          simp [listed]

theorem Grammar.Production.toList_fullHeader {p : Production} {h : Heading}
    (header : p.header = String.ofList h.text) :
    p.fullHeader.toList = h.text ++ throwsText (p.throws.map String.toList) := by
  have text : p.header.toList = h.text := by rw [header, String.toList_ofList]
  unfold fullHeader throwsText
  cases throws : p.throws with
  | nil => simpa using text
  | cons name rest =>
      rw [if_neg (by simp), if_neg (by simp), String.toList_append, String.toList_append, text,
        toList_join_eq_listed, List.append_assoc]

/-! ### Productions -/

namespace WovenProduction

variable {h : Heading} {throws : List (List Char)} {header : String}

theorem written_word : Piece.written [Piece.line 0 "JAVACODE"] = "JAVACODE".toList ++ ['\n'] := by
  decide

section

variable (whole : header.toList = h.text ++ throwsText throws) (closed : h.IsClosed)
  (dotted : ∀ name ∈ throws, isDotted name = true)

include whole closed dotted

theorem written_head : Piece.written [Piece.line 0 (header ++ " :")] =
    h.trimmed.text ++ (throwsText throws ++ [' ', ':', '\n']) := by
  have text : (header ++ " :").toList = h.text ++ (throwsText throws ++ ' ' :: ':' :: []) := by
    simp [whole]
  obtain ⟨c, begins, solid⟩ := Heading.exists_head closed (throwsText throws ++ ' ' :: ':' :: [])
  rw [← text] at begins
  have last : (header ++ " :").toList.getLast? = some ':' := by
    rw [text, ← List.append_assoc, List.getLast?_append]
    rfl
  rw [Piece.written_line begins last solid rfl, text, trimLines_header closed dotted rfl]
  simp

theorem written_rules (declarations : String) (body : Woven) :
    Piece.written (rules header declarations body).pieces =
      rulesText h.trimmed throws (trimLines declarations.toList)
        ('\n' :: Piece.written (body.pieces 1)) ['\n'] ['\n'] ++ ['\n'] := by
  have block : Piece.written [Piece.raw ("\x7b" ++ declarations ++ "\x7d\n")] =
      '\x7b' :: trimLines declarations.toList ++ ['\x7d', '\n'] := by
    have text : ("\x7b" ++ declarations ++ "\x7d\n").toList =
        '\x7b' :: (declarations.toList ++ '\x7d' :: ['\n']) := by simp
    rw [Piece.written_cons, Piece.written_nil, List.append_nil, Piece.text, text,
      trimLines_cons_of_solid rfl, trimLines_append_solid rfl]
    rfl
  have listed : (rules header declarations body).pieces = [Piece.line 0 (header ++ " :")] ++
      [Piece.raw ("\x7b" ++ declarations ++ "\x7d\n")] ++ [Piece.line 0 "\x7b"] ++ body.pieces 1 ++
        [Piece.line 0 "\x7d"] := by simp [pieces]
  rw [listed]
  simp only [Piece.written_append, written_head whole closed dotted, block,
    Piece.written_openBrace, Piece.written_closeBrace]
  simp [rulesText]

def scopeStart (nodeName : String) (opening : List Statement) : List Piece :=
  [Piece.regionStart 0 (some nodeName)] ++ Statement.piecesAll 1 opening ++ [Piece.regionStop 0]

def scopeBody (nodeName : String) (guard : Guard) (body : List Piece) : List Piece :=
  [Piece.regionStart 0 (some nodeName)] ++ guard.around 1 body ++ [Piece.regionStop 0]

theorem written_scopedRules (nodeName : String) (opening : List Statement) (declarations : String)
    (body : Woven) (guard : Guard) :
    Piece.written (scopedRules header nodeName opening declarations body guard).pieces =
      rulesText h.trimmed throws (Piece.written (scopeStart nodeName opening) ++
          trimLines declarations.toList) (Piece.written (scopeBody nodeName guard (body.pieces 2)))
        ['\n'] ['\n'] ++ ['\n'] := by
  have closing : Piece.written [Piece.raw (declarations ++ "\x7d\n")] =
      trimLines declarations.toList ++ ['\x7d', '\n'] := by
    have text : (declarations ++ "\x7d\n").toList = declarations.toList ++ '\x7d' :: ['\n'] := by
      simp
    rw [Piece.written_cons, Piece.written_nil, List.append_nil, Piece.text, text,
      trimLines_append_solid rfl]
    rfl
  have brace : Piece.written [Piece.raw "\x7b"] = ['\x7b'] := rfl
  have listed : (scopedRules header nodeName opening declarations body guard).pieces =
      [Piece.line 0 (header ++ " :")] ++ [Piece.raw "\x7b"] ++ scopeStart nodeName opening ++
        [Piece.raw (declarations ++ "\x7d\n")] ++ [Piece.raw "\x7b"] ++
          scopeBody nodeName guard (body.pieces 2) ++ [Piece.line 0 "\x7d"] := by simp [pieces,
          scopeStart, scopeBody]
  rw [listed]
  simp only [Piece.written_append, written_head whole closed dotted, closing, brace,
    Piece.written_closeBrace]
  simp [rulesText]

theorem written_code (text : String) : Piece.written (code header text).pieces =
    codeText h.trimmed throws (trimLines text.toList) ['\n'] ++ ['\n'] := by
  have block : Piece.written [Piece.raw (header ++ " \x7b" ++ text ++ "\x7d\n")] =
      h.trimmed.text ++ (throwsText throws ++ ' ' :: '\x7b' ::
          (trimLines text.toList ++ ['\x7d', '\n'])) := by
    have spelled : (header ++ " \x7b" ++ text ++ "\x7d\n").toList =
        h.text ++ (throwsText throws ++ ' ' :: '\x7b' :: (text.toList ++ '\x7d' :: ['\n'])) := by
      simp [whole]
    rw [Piece.written_cons, Piece.written_nil, List.append_nil, Piece.text, spelled,
      trimLines_header closed dotted rfl, trimLines_append_solid rfl]
    rfl
  have listed : (code header text).pieces =
      [Piece.line 0 "JAVACODE"] ++ [Piece.raw (header ++ " \x7b" ++ text ++ "\x7d\n")] := rfl
  have joined : Piece.written (code header text).pieces = "JAVACODE".toList ++ ['\n'] ++
      (h.trimmed.text ++ (throwsText throws ++ ' ' :: '\x7b' ::
          (trimLines text.toList ++ ['\x7d', '\n']))) := by
    rw [listed, Piece.written_append, written_word, block]
  refine joined.trans ?_
  unfold codeText
  generalize "JAVACODE".toList = word
  simp

def scopeCode (nodeName : String) (opening : List Statement) (text : String) (guard : Guard) :
    List Piece :=
  [Piece.regionStart 0 (some nodeName)] ++ Statement.piecesAll 1 opening ++
    guard.around 1 [Piece.raw (text ++ "\n")] ++ [Piece.regionStop 0]

theorem written_scopedCode (nodeName : String) (opening : List Statement) (text : String)
    (guard : Guard) : Piece.written (scopedCode header nodeName opening text guard).pieces =
      codeText h.trimmed throws (Piece.written (scopeCode nodeName opening text guard)) ['\n'] ++
        ['\n'] := by
  have head : Piece.written [Piece.raw (header ++ " \x7b")] =
      h.trimmed.text ++ (throwsText throws ++ [' ', '\x7b']) := by
    have spelled : (header ++ " \x7b").toList = h.text ++
        (throwsText throws ++ ' ' :: '\x7b' :: []) := by
      simp [whole]
    rw [Piece.written_cons, Piece.written_nil, List.append_nil, Piece.text, spelled,
      trimLines_header closed dotted rfl]
    rfl
  have listed : (scopedCode header nodeName opening text guard).pieces =
      [Piece.line 0 "JAVACODE"] ++ [Piece.raw (header ++ " \x7b")] ++
        scopeCode nodeName opening text guard ++
        [Piece.line 0 "\x7d"] := by simp [pieces, scopeCode]
  have closing : Piece.written [Piece.line 0 "\x7d"] = ['\x7d', '\n'] := Piece.written_sign rfl rfl
  have joined : Piece.written (scopedCode header nodeName opening text guard).pieces =
      "JAVACODE".toList ++ ['\n'] ++ (h.trimmed.text ++ (throwsText throws ++ [' ', '\x7b'])) ++
        Piece.written (scopeCode nodeName opening text guard) ++ ['\x7d', '\n'] := by
    rw [listed, Piece.written_append, Piece.written_append, Piece.written_append, written_word,
      head, closing]
  refine joined.trans ?_
  unfold codeText
  generalize "JAVACODE".toList = word
  simp

end

end WovenProduction

/-! ### Productions of a grammar -/

namespace Grammar

/-- What the host language gives to the production closes all that it opens. -/
structure Production.IsClosed (style : ScopeStyle) (p : Production) : Prop where
  heading : ∃ h : Heading, p.header = String.ofList h.text ∧
    p.name = String.ofList h.name ∧ h.IsClosed
  node : ∀ name ∈ p.nodeName? style.options.defaultVoid, style.Names name ∧
    ∀ condition ∈ p.descriptor.bind Descriptor.condition,
      Bracket.brace.lexis.Closes 0 condition.text.toList
  declarations : ∀ declarations e, p.body = .rules declarations e →
    Bracket.brace.lexis.Closes 0 declarations.toList ∧ e.IsClosed style
  code : ∀ text, p.body = .code text → Bracket.brace.lexis.Closes 0 text.toList

/-- The production is there again, and it opens no node. -/
structure Production.IsAgain (p again : Production) : Prop where
  name : again.name = p.name
  header : again.header = String.ofList (trimLines p.header.toList)
  throws : again.throws = p.throws
  kind : again.expansion?.isSome = p.expansion?.isSome
  descriptor : again.descriptor = none
  expansion : ∀ e ∈ again.expansion?, e.HasNoNodes

section

variable {g : Grammar} {style : ScopeStyle} {p : Production}

theorem isBraced_of_production (inert : style.options.IsInert) (closed : p.IsClosed style)
    {scope : Scope} (opens : style.open? (.production p) 0 = some scope) : scope.IsBraced := by
  refine ScopeStyle.isBraced_of_open? opens inert (fun name found => (closed.node name found).1)
    (closed.node _ (ScopeStyle.open?_nodeName opens)).2

theorem Production.isAgain_of_isPlain {h : Heading} {q : Production}
    (header : p.header = String.ofList h.text) (name : p.name = String.ofList h.name)
    (heading : h.IsClosed) (plain : IsPlain h.trimmed (p.throws.map String.toList) q)
    (kind : q.expansion?.isSome = p.expansion?.isSome) : p.IsAgain q where
  name := by rw [plain.name, name]; rfl
  header := by
    rw [plain.header, header, String.toList_ofList, Heading.trimLines_text heading]
  throws := by simp [plain.throws]
  kind := kind
  descriptor := plain.descriptor
  expansion := plain.expansion

section

variable {scope : Scope} (braced : scope.IsBraced)

include braced

/-- The statements between the marks of a scope close their braces. -/
theorem shift_scopeStart (inert : style.options.IsInert) :
    Piece.Shift (WovenProduction.scopeStart scope.nodeName (style.opening scope)) 0 0 := by
  have label := Scope.isOpenLabel_nodeName (dotted_of_isDotted braced.nodeName)
  have start := Piece.shift_regionStart 0 (some scope.nodeName)
    (by rintro _ ⟨⟩; exact label)
  have statements : ∀ statement ∈ style.opening scope, statement.IsBraced :=
    ScopeStyle.isBraced_opening braced inert.nodeFactory
  have opening := Statement.shift_piecesAll statements 1
  exact (start.append opening).append (Piece.shift_regionStop 0)

theorem closes_scopeStart (inert : style.options.IsInert) {declarations : String}
    (closes : Bracket.brace.lexis.Closes 0 declarations.toList) :
    Bracket.brace.lexis.Closes 0 (Piece.written
      (WovenProduction.scopeStart scope.nodeName (style.opening scope)) ++
        trimLines (scope.resolve declarations).toList) :=
  (shift_scopeStart braced inert).isCode.closes_append
    (closes_trimLines (braced.toIsNamed.closes_resolve closes))

/-- Between its marks, the guarded body of a scope is a unit. -/
theorem choices_scopeBody (style : ScopeStyle) {body : List Piece} {exceptions : List String}
    (choices : Choices (Piece.written body)) (named : ∀ exception ∈ exceptions, Inert exception) :
    Choices (Piece.written (WovenProduction.scopeBody scope.nodeName (style.guard scope exceptions)
        body)) := by
  have label := Scope.isOpenLabel_nodeName (dotted_of_isDotted braced.nodeName)
  have around : Units (Piece.written ((style.guard scope exceptions).around 1 body)) :=
    Guard.units_around 1 choices braced.exception (Scope.isBraced_handler braced named)
      (ScopeStyle.isBraced_cleanup braced)
  rw [WovenProduction.scopeBody, Piece.written_append, Piece.written_append]
  exact (((Piece.isGap_regionStart 0 _ (by rintro _ ⟨⟩; exact label)).units.append around).append
    (Piece.isGap_regionStop 0).units).choices

theorem closes_scopeCode (inert : style.options.IsInert) {text : String} {exceptions : List String}
    (closes : Bracket.brace.lexis.Closes 0 text.toList)
      (named : ∀ exception ∈ exceptions, Inert exception) :
    Bracket.brace.lexis.Closes 0 (Piece.written (WovenProduction.scopeCode scope.nodeName
      (style.opening scope) (scope.resolve text) (style.guard scope exceptions))) := by
  have label := Scope.isOpenLabel_nodeName (dotted_of_isDotted braced.nodeName)
  have body : Piece.Shift [Piece.raw (scope.resolve text ++ "\n")] 0 0 := by
    have code :=
      IsCode.of_closes (c := '\n') (braced.toIsNamed.closes_resolve closes) rfl (by decide)
    rw [Piece.Shift, Piece.written_cons, Piece.written_nil, List.append_nil, Piece.text,
      String.toList_append]
    exact Shifts.of_isCode code.trimLines
  have around : Piece.Shift ((style.guard scope exceptions).around 1
      [Piece.raw (scope.resolve text ++ "\n")]) 0 0 :=
    Guard.shift_around 1 body braced.exception (Scope.isBraced_handler braced named)
      (ScopeStyle.isBraced_cleanup braced)
  have start := Piece.shift_regionStart 0 (some scope.nodeName)
    (by rintro _ ⟨⟩; exact label)
  have statements : ∀ statement ∈ style.opening scope, statement.IsBraced :=
    ScopeStyle.isBraced_opening braced inert.nodeFactory
  have opening := Statement.shift_piecesAll statements 1
  exact (((start.append opening).append around).append (Piece.shift_regionStop 0)).isCode.closes

end

theorem exists_itemText_weaveProduction (suits : style.Suits g) (declared : p ∈ g.productions)
    (closed : p.IsClosed style) (whole : ∀ e ∈ p.expansion?, e.IsWhole) :
    ∃ text, Piece.written (g.weaveProduction style p).pieces = text ++ ['\n'] ∧
      IsItemText (fun item => ∃ again, item = .production again ∧ p.IsAgain again) text := by
  obtain ⟨h, header, name, heading⟩ := closed.heading
  have text := Production.toList_fullHeader header
  have dotted : ∀ name ∈ p.throws.map String.toList, isDotted name = true := by
    rw [List.forall_mem_map]
    exact fun exception mem => suits.throws p declared exception mem
  have trimmed := Heading.isClosed_trimmed heading
  unfold weaveProduction
  split
  · next declarations e body opens =>
      obtain ⟨inside, expansion⟩ := closed.declarations declarations e body
      have unscoped : ∀ scope ∈ (none : Option Scope), scope.IsBraced := nofun
      have choices : Choices (Piece.written ((g.weaveExpansion style p none false e).pieces 1)) :=
        choices_of_isWhole g style p suits declared unscoped false 1
          (whole e (by simp [Production.expansion?, body])) expansion
      refine ⟨_, WovenProduction.written_rules text heading dotted declarations _, ?_⟩
      have is := isItemText_rules trimmed dotted (closes_trimLines inside)
        (isGap_newline.choices choices) isGap_newline isGap_newline
      refine IsItemText.imp is ?_
      rintro _ ⟨q, _, _, rfl, rules, plain⟩
      exact ⟨q, rfl, Production.isAgain_of_isPlain header name heading plain
        (by simp [Production.expansion?, rules, body])⟩
  · next declarations e scope body opens =>
      have braced := isBraced_of_production suits.options closed opens
      obtain ⟨inside, expansion⟩ := closed.declarations declarations e body
      have choices : Choices (Piece.written ((g.weaveExpansion style p scope true e).pieces 2)) :=
        choices_of_isWhole g style p suits declared (by rintro _ ⟨⟩; exact braced) true 2
          (whole e (by simp [Production.expansion?, body])) expansion
      refine ⟨_, WovenProduction.written_scopedRules text heading dotted _ _ _ _ _, ?_⟩
      have is := isItemText_rules trimmed dotted (closes_scopeStart braced suits.options inside)
        (choices_scopeBody braced style choices (suits.inert_exceptionSet declared e))
        isGap_newline isGap_newline
      refine IsItemText.imp is ?_
      rintro _ ⟨q, _, _, rfl, rules, plain⟩
      exact ⟨q, rfl, Production.isAgain_of_isPlain header name heading plain
        (by simp [Production.expansion?, rules, body])⟩
  · next code body opens =>
      refine ⟨_, WovenProduction.written_code text heading dotted code, ?_⟩
      have is :=
        isItemText_code trimmed dotted (closes_trimLines (closed.code code body)) isGap_newline
      refine IsItemText.imp is ?_
      rintro _ ⟨q, _, rfl, coded, plain⟩
      exact ⟨q, rfl, Production.isAgain_of_isPlain header name heading plain
        (by simp [Production.expansion?, coded, body])⟩
  · next code scope body opens =>
      have braced := isBraced_of_production suits.options closed opens
      have declaredInert : ∀ exception ∈ declaredExceptionSet p.throws, Inert exception :=
        forall_mem_withStandardExceptions (by decide) fun exception mem =>
          (dotted_of_isDotted (suits.throws p declared exception mem)).inert
      refine ⟨_, WovenProduction.written_scopedCode text heading dotted _ _ _ _, ?_⟩
      have is := isItemText_code trimmed dotted
        (closes_scopeCode braced suits.options (closed.code code body) declaredInert) isGap_newline
      refine IsItemText.imp is ?_
      rintro _ ⟨q, _, rfl, coded, plain⟩
      exact ⟨q, rfl, Production.isAgain_of_isPlain header name heading plain
        (by simp [Production.expansion?, coded, body])⟩

end

end Grammar

end NodeWeave

/-!
## Items

Option blocks, units of parsers, copied items, and what is written between two items.
-/

namespace NodeWeave

open Grammar Grammar.Format Text Lexis

namespace WovenItem

/-! ### Option blocks -/

section

variable {entry : OptionEntry} {entries : List OptionEntry} {name : List Char}

/-- Of a written value no blanks are dropped, also not in front of it. -/
theorem trimLines_written {value : OptionValue} (writable : value.IsWritable) :
    (∀ c ∈ value.written.toList.head?, isBlank c = false) ∧
      trimLines value.written.toList = value.written.toList := by
  cases value with
  | bool b => cases b <;> decide
  | int n =>
      obtain ⟨sign, digits, whole, filled, all, value⟩ := toList_toString_int n
      have solid {c : Char} (digit : c.isDigit = true) : isBlank c = false :=
        IsDottedChar.solid (.inr (by simp [isNameChar, Char.isAlphanum, digit]))
      have each : ∀ c ∈ sign ++ digits, isBlank c = false := by
        rw [List.forall_mem_append]
        refine ⟨?_, fun c mem => solid (all c mem)⟩
        rcases value with ⟨rfl, -⟩ | ⟨rfl, -⟩ <;> decide
      rw [OptionValue.written, whole]
      exact ⟨fun c first => each c (List.mem_of_mem_head? first),
        trimLines_of_not_mem fun mem => by cases each _ mem⟩
  | text value =>
      rw [toList_written_text, trimLines_between rfl rfl, trimLines_inside writable]
      refine ⟨?_, rfl⟩
      rintro _ ⟨⟩
      rfl

theorem trimLines_entryText (writable : entry.IsWritable) :
    trimLines (entryText entry) = entryText entry := by
  obtain ⟨solid, whole⟩ := trimLines_written writable.value
  have space : trimLines [' '] = [' '] := by decide
  have behind : trimLines (' ' :: (entry.value.written.toList ++ [';'])) =
      ' ' :: (entry.value.written.toList ++ [';']) := by
    have split : ' ' :: (entry.value.written.toList ++ [';']) =
        [' '] ++ entry.value.written.toList ++ ';' :: [] := by simp
    rw [split, trimLines_append_solid rfl, trimLines_append_of_head solid, space, whole,
      trimLines_nil]
  have sign : trimLines (' ' :: '=' :: ' ' :: (entry.value.written.toList ++ [';'])) =
      ' ' :: '=' :: ' ' :: (entry.value.written.toList ++ [';']) := by
    have split (rest : List Char) : ' ' :: '=' :: rest = [' '] ++ '=' :: rest := rfl
    rw [split, trimLines_append_solid rfl, space, behind]
  rw [entryText, trimLines_append_name (isDotted_of_isIdentifier writable.key), sign]

theorem written_entry (writable : entry.IsWritable) :
    Piece.written [Piece.line 1 (entry.key ++ " = " ++ entry.value.written ++ ";")] =
      ' ' :: ' ' :: (entryText entry ++ ['\n']) := by
  have text : (entry.key ++ " = " ++ entry.value.written ++ ";").toList = entryText entry := by
    simp [entryText]
  obtain ⟨c, more, key, first, -⟩ := exists_cons_of_isIdentifier writable.key
  have begins : (entryText entry).head? = some c := by
    rw [entryText, key]
    rfl
  have last : (entryText entry).getLast? = some ';' := by
    have split : entryText entry =
        (entry.key.toList ++ ' ' :: '=' :: ' ' :: entry.value.written.toList) ++ [';'] := by
      simp [entryText]
    rw [split, List.getLast?_concat]
  rw [← text] at begins last
  rw [Piece.written_line begins last (IsDottedChar.solid (.inr (isNameChar_of_isNameStart first)))
    rfl, text, trimLines_entryText writable]
  rfl

theorem written_options (writable : ∀ entry ∈ entries, entry.IsWritable) :
    Piece.written (options entries).pieces = optionsText entries ++ ['\n'] := by
  have lines : Piece.written (entries.map fun entry =>
      .line 1 (entry.key ++ " = " ++ entry.value.written ++ ";")) = entryLines entries := by
    induction entries with
    | nil => rfl
    | cons entry rest ih =>
        rw [List.forall_mem_cons] at writable
        rw [List.map_cons, ← List.singleton_append, Piece.written_append, written_entry writable.1,
          ih writable.2]
        rfl
  have front : Piece.written [Piece.line 0 "options \x7b"] =
      "options".toList ++ [' ', '\x7b', '\n'] := by
    decide
  have listed : (options entries).pieces = [Piece.line 0 "options \x7b"] ++
      (entries.map fun entry =>
      .line 1 (entry.key ++ " = " ++ entry.value.written ++ ";")) ++ [Piece.line 0 "\x7d"] := rfl
  have joined : Piece.written (options entries).pieces =
      "options".toList ++ [' ', '\x7b', '\n'] ++ entryLines entries ++ ['\x7d', '\n'] := by
    rw [listed, Piece.written_append, Piece.written_append, lines, front,
      Piece.written_sign (c := '\x7d') rfl rfl]
    rfl
  refine joined.trans ?_
  unfold optionsText
  generalize "options".toList = word
  simp

end

/-! ### Units of parsers and copied items -/

theorem written_parserUnit {name : String} (identifier : isIdentifier name.toList = true)
    (body : String) :
    Piece.written (parser name body).pieces =
      parserText name.toList (trimLines (body.toList ++ ['\n'])) ++ ['\n'] := by
  have named : '\n' ∉ name.toList := fun mem => by cases all_of_isIdentifier identifier _ mem
  have mark {word : String} (front : List Char) (spelled : word.toList = front ++ ['('])
      (first : ∃ c, front.head? = some c ∧ isBlank c = false) (oneLine : '\n' ∉ front) :
      Piece.written [Piece.line 0 (word ++ name ++ ")")] =
        front ++ '(' :: (name.toList ++ [')', '\n']) := by
    have text : (word ++ name ++ ")").toList = front ++ '(' :: (name.toList ++ [')']) := by
      simp [spelled]
    obtain ⟨c, begins, solid⟩ := first
    have last : (word ++ name ++ ")").toList.getLast? = some ')' := by
      rw [String.toList_append, List.getLast?_append]
      rfl
    have whole : trimLines (front ++ '(' :: (name.toList ++ [')'])) =
        front ++ '(' :: (name.toList ++ [')']) := by
      refine trimLines_of_not_mem ?_
      simp [oneLine, named]
    rw [Piece.written_line (by rw [text, List.head?_append, begins]; rfl) last solid rfl,
      text, whole]
    simp
  have unit : Piece.written [Piece.raw (body ++ "\n")] = trimLines (body.toList ++ ['\n']) := by
    rw [Piece.written_cons, Piece.written_nil, List.append_nil, Piece.text, String.toList_append]
    rfl
  have listed : (parser name body).pieces = [Piece.line 0 ("PARSER_BEGIN(" ++ name ++ ")")] ++
      [Piece.raw (body ++ "\n")] ++ [Piece.line 0 ("PARSER_END(" ++ name ++ ")")] := rfl
  have joined : Piece.written (parser name body).pieces =
      ("PARSER_BEGIN".toList ++ '(' :: (name.toList ++ [')', '\n'])) ++
        trimLines (body.toList ++ ['\n']) ++
        (parserEnd ++ '(' :: (name.toList ++ [')', '\n'])) := by
    rw [listed, Piece.written_append, Piece.written_append, unit,
      mark "PARSER_BEGIN".toList (by decide) ⟨'P', rfl, rfl⟩ (by decide),
      mark parserEnd (by decide) ⟨'P', rfl, rfl⟩ (by decide)]
  refine joined.trans ?_
  unfold parserText
  generalize "PARSER_BEGIN".toList = word
  simp

theorem written_verbatim {text : String} (is : IsVerbatimText text.toList) :
    Piece.written (verbatim text).pieces = trimLines text.toList ++ ['\n'] := by
  have last : ∀ c ∈ text.toList.getLast?, IsKept c := by
    rw [is.getLast?]
    rintro _ ⟨⟩
    exact .inl rfl
  have whole : (verbatim text).pieces = [Piece.raw (text ++ "\n")] := rfl
  rw [whole, Piece.written_cons, Piece.written_nil, List.append_nil, Piece.text,
    String.toList_append, trimLines_append (.inl last)]
  rfl

/-! ### Items one behind the other -/

theorem allKept_pieces (item : WovenItem) : Piece.AllKept item.pieces := by
  have feed (text : String) : (Piece.raw (text ++ "\n")).IsKept :=
    Piece.isKept_raw text (c := '\n') rfl (.inr rfl)
  cases item with
  | options entries =>
      have lines : Piece.AllKept (entries.map fun entry =>
          .line 1 (entry.key ++ " = " ++ entry.value.written ++ ";")) := by
        intro piece mem
        obtain ⟨entry, -, rfl⟩ := List.mem_map.mp mem
        exact Piece.isKept_line
      rw [pieces]
      exact Piece.allKept_block lines
  | parser name body => simp [pieces, feed]
  | verbatim text => simp [pieces, feed]
  | production p =>
      rw [pieces]
      exact p.allKept_pieces

theorem piecesAll_cons_cons (item next : WovenItem) (rest : List WovenItem) :
    piecesAll (item :: next :: rest) =
      item.pieces ++ [Piece.line 0 ""] ++ piecesAll (next :: rest) := by
  rw [piecesAll]
  · simp
  · exact List.cons_ne_nil next rest

theorem allKept_piecesAll (items : List WovenItem) : Piece.AllKept (piecesAll items) := by
  induction items with
  | nil => exact Piece.allKept_nil
  | cons item rest ih =>
      cases rest with
      | nil => exact item.allKept_pieces
      | cons next rest =>
          rw [piecesAll_cons_cons, Piece.allKept_append, Piece.allKept_append, Piece.allKept_cons]
          exact ⟨⟨item.allKept_pieces, Piece.isKept_line, Piece.allKept_nil⟩, ih⟩

theorem written_piecesAll_cons (item : WovenItem) (items : List WovenItem) :
    Piece.written (piecesAll (item :: items)) =
      Piece.written item.pieces ++ items.flatMap fun next => '\n' :: Piece.written next.pieces := by
  induction items generalizing item with
  | nil => rw [piecesAll, List.flatMap_nil, List.append_nil]
  | cons next rest ih =>
      have empty : Piece.written [Piece.line 0 ""] = ['\n'] := by decide
      rw [piecesAll_cons_cons, Piece.written_append, Piece.written_append, ih, empty]
      simp

end WovenItem

end NodeWeave
