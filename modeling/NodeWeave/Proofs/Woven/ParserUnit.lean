import NodeWeave.Proofs.Woven.Generated

/-! What is added to the parser's compilation unit stands in regions of its own. -/

namespace NodeWeave

open Grammar Mark

namespace ParserSupport

/-! ### Package statements -/

/-- The rest stands in the text behind a part without opening braces. -/
def Passes (text rest : List Char) : Prop :=
  ∃ front, text = front ++ rest ∧ '\x7b' ∉ front

theorem Passes.trans {text middle rest : List Char} (first : Passes text middle)
    (second : Passes middle rest) : Passes text rest := by
  obtain ⟨front, rfl, braceless⟩ := first
  obtain ⟨next, rfl, others⟩ := second
  refine ⟨front ++ next, (List.append_assoc ..).symm, ?_⟩
  rw [List.mem_append, not_or]
  exact ⟨braceless, others⟩

theorem passes_dropWhile {p : Char → Bool} (other : p '\x7b' = false) (text : List Char) :
    Passes text (text.dropWhile p) := by
  refine ⟨text.takeWhile p, List.takeWhile_append_dropWhile.symm, fun mem => ?_⟩
  rw [List.all_eq_true.mp List.all_takeWhile _ mem] at other
  cases other

theorem endsApart_semicolon {gap : List Char} (blank : ∀ c ∈ gap, isSeparator c = true) :
    EndsApart (';' :: gap) := by
  rcases List.eq_nil_or_concat gap with rfl | ⟨front, c, rfl⟩
  · exact ⟨[], ';', rfl, by decide⟩
  · exact ⟨';' :: front, c, by simp, blank c (by simp)⟩

theorem afterPackage?_eq_some {text following : List Char}
    (found : afterPackage? text = some following) :
    ∃ statement, text = statement ++ following ∧ '\x7b' ∉ statement ∧ EndsApart statement := by
  unfold afterPackage? at found
  dsimp only at found
  split at found
  · cases found
  · next rest keyword =>
      split at found
      · split at found
        · next more ended =>
            have named : Passes text rest := by
              refine Passes.trans (passes_dropWhile ?_ text)
                ⟨_, Text.after?_eq_some_iff.mp keyword, by decide⟩
              rfl
            have stated : Passes text (';' :: more) := by
              rw [← ended]
              exact ((named.trans (passes_dropWhile rfl rest)).trans
                (passes_dropWhile rfl _)).trans (passes_dropWhile rfl _)
            obtain ⟨front, same, braceless⟩ := stated
            split at found
            · next line =>
                cases found
                obtain ⟨gap, rests, others⟩ :=
                  @passes_dropWhile (fun c => c == ' ' || c == '\t') rfl more
                refine ⟨front ++ ';' :: gap ++ ['\n'], ?_, ?_, _, '\n', rfl, by decide⟩
                · rw [same, rests, line]
                  simp
                · simp [braceless, others]
            · cases found
              let isGap : Char → Bool := fun c => c == ' ' || c == '\t'
              have rests := @List.takeWhile_append_dropWhile _ isGap more
              have gaps := fun c mem => List.all_eq_true.mp (@List.all_takeWhile _ isGap more) c mem
              refine ⟨front ++ ';' :: more.takeWhile isGap, ?_, ?_, .prepend ?_ front⟩
              · rw [same, List.append_assoc, List.cons_append, rests]
              · simp only [List.mem_append, List.mem_cons, not_or]
                exact ⟨braceless, by decide, fun mem => absurd (gaps _ mem) (by decide)⟩
              · refine endsApart_semicolon fun c mem => ?_
                have gap := gaps c mem
                simp only [isGap, Bool.or_eq_true, beq_iff_eq] at gap
                rcases gap with rfl | rfl <;> decide
        · cases found
      · cases found

/-- A statement begins at the first character, or it is looked for behind that one. -/
theorem splitPackage?_cons {atLine : Bool} {passed rest before following : List Char} {c : Char}
    (split : splitPackage? atLine passed (c :: rest) = some (before, following)) :
    (∃ statement, c :: rest = statement ++ following ∧ before = passed.reverse ++ statement ∧
        '\x7b' ∉ statement ∧ EndsApart statement) ∨
      splitPackage? (c == '\n') (c :: passed) rest = some (before, following) := by
  rw [splitPackage?] at split
  split at split
  · next following' here =>
      left
      cases split
      have found : afterPackage? (c :: rest) = some following := by
        split at here
        · exact here
        · cases here
      obtain ⟨statement, same, braceless, ends⟩ := afterPackage?_eq_some found
      refine ⟨statement, same, ?_, braceless, ends⟩
      have lengths := congrArg List.length same
      rw [List.length_cons, List.length_append] at lengths
      rw [same, lengths, Nat.add_sub_cancel, List.take_left]
  · exact .inr split

theorem splitPackage?_eq_some {atLine : Bool} {passed text before following : List Char}
    (split : splitPackage? atLine passed text = some (before, following)) :
    ∃ front, before = passed.reverse ++ front ∧ text = front ++ following ∧ EndsApart front := by
  induction text generalizing atLine passed with
  | nil => cases split
  | cons c rest ih =>
      rcases splitPackage?_cons split with ⟨statement, same, rfl, _, ends⟩ | later
      · exact ⟨statement, rfl, same, ends⟩
      · obtain ⟨front, rfl, rfl, ends⟩ := ih later
        exact ⟨c :: front, by simp, rfl, ends.prepend [c]⟩

theorem exists_of_append_eq_brace {part following front text : List Char}
    (same : front ++ '\x7b' :: text = part ++ following) (braceless : '\x7b' ∉ part) :
    ∃ more, front = part ++ more ∧ following = more ++ '\x7b' :: text := by
  rcases List.append_eq_append_iff.mp same with ⟨more, rfl, rests⟩ | ⟨more, rfl, rests⟩
  · cases more with
    | nil => exact ⟨[], by simp, rests.symm⟩
    | cons c others =>
        cases rests
        exact absurd (by simp) braceless
  · exact ⟨more, rfl, rests⟩

theorem splitPackage?_brace {atLine : Bool} {passed front text before following : List Char}
    (split : splitPackage? atLine passed (front ++ '\x7b' :: text) = some (before, following)) :
    (∃ first more, before = passed.reverse ++ first ∧ front = first ++ more ∧
        following = more ++ '\x7b' :: text ∧ EndsApart first) ∨
      splitPackage? false ('\x7b' :: (front.reverse ++ passed)) text =
        some (before, following) := by
  induction front generalizing atLine passed with
  | nil =>
      rcases splitPackage?_cons split with ⟨statement, same, _, braceless, ends⟩ | later
      · obtain ⟨more, none, _⟩ := @exists_of_append_eq_brace _ _ [] _ same braceless
        obtain ⟨rfl, _⟩ := List.append_eq_nil_iff.mp none.symm
        obtain ⟨front, c, empty, _⟩ := ends
        simp at empty
      · exact .inr later
  | cons c rest ih =>
      rcases splitPackage?_cons split with ⟨statement, same, rfl, braceless, ends⟩ | later
      · obtain ⟨more, front, rests⟩ := @exists_of_append_eq_brace _ _ (c :: rest) _ same braceless
        exact .inl ⟨statement, more, rfl, front, rests, ends⟩
      · rcases ih later with ⟨first, more, rfl, rfl, rfl, ends⟩ | behind
        · exact .inl ⟨c :: first, more, by simp, rfl, rfl, ends.prepend [c]⟩
        · exact .inr (by simpa using behind)

theorem splitPackage?_inLine {line : List Char} (whole : '\n' ∉ line) (passed text : List Char) :
    splitPackage? false passed (line ++ text) =
      splitPackage? false (line.reverse ++ passed) text := by
  induction line generalizing passed with
  | nil => rfl
  | cons c rest ih =>
      rw [List.mem_cons, not_or] at whole
      have other : (c == '\n') = false := beq_false_of_ne (Ne.symm whole.1)
      rw [List.cons_append, splitPackage?, other]
      exact (ih whole.2 (c :: passed)).trans (by simp)

theorem splitPackage?_lineFeed (passed text : List Char) :
    splitPackage? false passed ('\n' :: text) = splitPackage? true ('\n' :: passed) text := by
  rw [splitPackage?]
  rfl

theorem splitPackage?_of_none {text : List Char} (none : afterPackage? text = none)
    (passed : List Char) : splitPackage? true passed text = splitPackage? false passed text := by
  cases text with
  | nil => rfl
  | cons c rest => rw [splitPackage?, splitPackage?, if_pos rfl, none]; rfl

/-! ### The header of the class -/

theorem afterName?_eq_some {name text clauses following : List Char} {blanks : Nat}
    (found : afterName? name text blanks = some (clauses, following)) :
    text = text.take blanks ++ name ++ clauses ++ '\x7b' :: following := by
  unfold afterName? at found
  split at found
  · cases found
  · next rest named =>
      dsimp only at found
      split at found
      · have rests := Text.eq_of_splitFirst? found
        rw [Text.after?_eq_some_iff, rests] at named
        calc
          text = text.take blanks ++ text.drop blanks := (List.take_append_drop ..).symm
          _ = text.take blanks ++ name ++ clauses ++ '\x7b' :: following := by simp [named]
      · cases found

theorem headerHere?_eq_some {name text opening clauses following : List Char}
    {before : Option Char}
    (found : headerHere? name before text = some (opening, clauses, following)) :
    text = opening ++ clauses ++ '\x7b' :: following := by
  unfold headerHere? at found
  dsimp only at found
  split at found
  · cases found
  · next rest keyword =>
      rw [Text.after?_eq_some_iff] at keyword
      split at found
      · cases found
      · obtain ⟨k, _, here⟩ := List.exists_of_findSome?_eq_some found
        obtain ⟨⟨clauses', following'⟩, named, same⟩ := Option.map_eq_some_iff.mp here
        cases same
        have rests := afterName?_eq_some named
        rw [keyword]
        conv => lhs; rw [rests]
        simp

theorem findHeader?_eq_some {name passed text : List Char} {header : ClassHeader}
    (found : findHeader? name passed text = some header) :
    passed.reverse ++ text =
      header.before ++ header.opening ++ header.clauses ++ '\x7b' :: header.following := by
  induction text generalizing passed with
  | nil => cases found
  | cons c rest ih =>
      rw [findHeader?] at found
      split at found
      · next opening clauses following here =>
          cases found
          rw [headerHere?_eq_some here]
          simp
      · rw [← ih found]
        simp

/-- The declarations behind the brace, between marks. -/
def region (declarations : String) : List Char :=
  startText ++ ("*/\n  " ++ declarations ++ "\n\n").toList ++ stopText

theorem slashFree_join {separator : String} {names : List String} (plain : SlashFree separator)
    (free : ∀ name ∈ names, SlashFree name) : SlashFree (Text.join separator names) := by
  induction names with
  | nil => exact show SlashFree "" by decide
  | cons name rest ih =>
      cases rest with
      | nil => exact free name List.mem_cons_self
      | cons next others =>
          exact ((free name List.mem_cons_self).append plain).append
            (ih fun other mem => free other (List.mem_cons_of_mem _ mem))

theorem exists_editHeader {interfaces : List String} {header : ClassHeader}
    (free : IsFree (header.before ++ header.opening ++ header.clauses))
    (plain : ∀ interface ∈ interfaces, SlashFree interface) (declarations : String) :
    ∃ front, IsFree front ∧ (editHeader interfaces declarations header).toList =
      front ++ '\x7b' :: (region declarations ++ header.following) := by
  have start : (Piece.startMark none).toList = startText ++ "*/".toList := by decide
  have brace : " \x7b".toList = [' ', '\x7b'] := by decide
  obtain ⟨blanks, clauses, _⟩ := exists_dropBlanksEnd header.clauses
  have shorter : IsFree (header.before ++ header.opening ++
      Text.dropBlanksEnd header.clauses) := by
    refine free.of_infix ⟨[], blanks, ?_⟩
    conv => rhs; rw [clauses]
    simp
  have listed := @slashFree_join ", " _ (by decide) plain
  unfold editHeader
  dsimp only
  generalize Text.join ", " interfaces = names at listed ⊢
  split
  · refine ⟨_ ++ ' ' :: [], shorter.append_separator isFree_nil (by decide), ?_⟩
    simp [start, brace, region, stopText]
  · split
    · refine ⟨_ ++ ',' :: (' ' :: names.toList ++ [' ']),
        shorter.append_separator (isFree_of_no_slash ?_) (by decide), ?_⟩
      · simpa [SlashFree] using listed
      · simp [start, brace, region, stopText]
    · refine ⟨_ ++ ' ' :: ("implements ".toList ++ names.toList ++ [' ']),
        shorter.append_separator (isFree_of_no_slash ?_) (by decide), ?_⟩
      · simpa [SlashFree] using listed
      · simp [start, brace, region, stopText]

theorem splitPackage?_region {declarations : String} (oneLine : '\n' ∉ declarations.toList)
    (other : ∃ more, declarations.toList = 'p' :: 'r' :: more) (passed text : List Char) :
    splitPackage? false passed (region declarations ++ text) =
      splitPackage? false ((region declarations).reverse ++ passed) text := by
  obtain ⟨more, begins⟩ := other
  obtain ⟨first, firstLine⟩ : ∃ first, first = startText ++ ['*', '/'] := ⟨_, rfl⟩
  obtain ⟨second, secondLine⟩ : ∃ second, second = ' ' :: ' ' :: declarations.toList := ⟨_, rfl⟩
  have lines : region declarations =
      first ++ '\n' :: (second ++ '\n' :: '\n' :: stopText) := by
    have closing : "*/\n  ".toList = ['*', '/', '\n', ' ', ' '] := by decide
    have feeds : "\n\n".toList = ['\n', '\n'] := by decide
    simp [region, closing, feeds, firstLine, secondLine]
  have firstWhole : '\n' ∉ first := by rw [firstLine]; decide
  have secondWhole : '\n' ∉ second := by simpa [secondLine] using oneLine
  have secondNone (rest : List Char) : afterPackage? (second ++ rest) = none := by
    simp [afterPackage?, Text.after?, secondLine, begins]
  have emptyNone (rest : List Char) : afterPackage? ('\n' :: rest) = none := by
    simp [afterPackage?, Text.after?]
  have stopNone (rest : List Char) : afterPackage? (stopText ++ rest) = none := by
    have slash : stopText = '/' :: stopText.tail := by decide
    rw [slash]
    simp [afterPackage?, Text.after?]
  rw [lines]
  simp only [List.append_assoc, List.cons_append]
  rw [splitPackage?_inLine firstWhole, splitPackage?_lineFeed,
    splitPackage?_of_none (secondNone _), splitPackage?_inLine secondWhole,
    splitPackage?_lineFeed, splitPackage?_of_none (emptyNone _), splitPackage?_lineFeed,
    splitPackage?_of_none (stopNone _), splitPackage?_inLine (by decide)]
  simp

/-! ### The whole unit -/

theorem hasRegions_region {declarations : String} (plain : SlashFree declarations)
    {text : List Char} (others : HasRegions text) :
    HasRegions (region declarations ++ text) := by
  have closing : "*/\n  ".toList = ['*', '/'] ++ '\n' :: [' ', ' '] := by decide
  have feeds : "\n\n".toList = ['\n', '\n'] := by decide
  have inside : ("*/\n  " ++ declarations ++ "\n\n").toList =
      ['*', '/'] ++ '\n' :: ([' ', ' '] ++ declarations.toList ++ ['\n', '\n']) := by
    simp [closing, feeds]
  refine HasRegions.enclosed ?_ ?_ others
  · rw [inside]
    refine isFree_commentEnd.append_separator (isFree_of_no_slash ?_) (by decide)
    simpa [SlashFree] using plain
  · rw [inside]
    exact ⟨['*', '/'] ++ '\n' :: ([' ', ' '] ++ declarations.toList ++ ['\n']), '\n', by simp,
      by decide⟩

theorem endsApart_importLines {front : List Char} (ends : EndsApart front)
    (imports : List String) :
    EndsApart (front ++
      (String.join (imports.map fun name => "import " ++ name ++ ";\n")).toList) := by
  rw [String.toList_join]
  induction imports generalizing front with
  | nil => simpa using ends
  | cons name rest ih =>
      have line : EndsApart ("import " ++ name ++ ";\n").toList := by
        have feed : ";\n".toList = [';', '\n'] := by decide
        exact ⟨("import " ++ name).toList ++ [';'], '\n', by simp [feed], by decide⟩
      rw [List.map_cons, List.flatMap_cons, ← List.append_assoc]
      exact ih (line.prepend front)

theorem hasRegions_importBlock {imports : List String} (plain : ∀ name ∈ imports, SlashFree name)
    {text : List Char} (others : HasRegions text) :
    HasRegions ((importBlock imports).toList ++ text) := by
  have start : (Piece.startMark none).toList = startText ++ ['*', '/'] := by decide
  have lines : '/' ∉ (String.join (imports.map fun name => "import " ++ name ++ ";\n")).toList := by
    rw [String.toList_join]
    intro mem
    obtain ⟨line, listed, inside⟩ := List.mem_flatMap.mp mem
    obtain ⟨name, named, rfl⟩ := List.mem_map.mp listed
    exact ((SlashFree.append (by decide) (plain name named)).append (by decide)) inside
  have whole : (importBlock imports).toList ++ text = startText ++ (['*', '/'] ++ '\n' ::
      (String.join (imports.map fun name => "import " ++ name ++ ";\n")).toList) ++ stopText ++
      ('\n' :: text) := by
    simp [importBlock, start, stopText]
  rw [whole]
  refine HasRegions.enclosed ?_ ?_ ?_
  · exact isFree_commentEnd.append_separator (isFree_of_no_slash lines) (by decide)
  · have feed : EndsApart (['*', '/'] ++ ['\n']) := ⟨['*', '/'], '\n', rfl, by decide⟩
    simpa using endsApart_importLines feed imports
  · exact HasRegions.append (isFree_of_no_slash (by decide) : IsFree ['\n']).hasRegions
      ⟨[], '\n', rfl, by decide⟩ others

theorem hasRegions_edited {front following : List Char} {declarations : String}
    (plain : SlashFree declarations) (free : IsFree front) (others : IsFree following) :
    HasRegions (front ++ '\x7b' :: (region declarations ++ following)) := by
  have opened : HasRegions (front ++ ['\x7b']) :=
    (free.append_separator isFree_nil (by decide)).hasRegions
  have ends : EndsApart (front ++ ['\x7b']) := ⟨front, '\x7b', rfl, by decide⟩
  simpa using opened.append ends (hasRegions_region plain others.hasRegions)

theorem hasRegions_addImports_of_isFree {imports : List String} {body : String}
    (plain : ∀ name ∈ imports, SlashFree name) (free : IsFree body.toList) :
    HasRegions (addImports imports body).toList := by
  unfold addImports
  split
  · exact free.hasRegions
  · split
    · next before following split =>
        obtain ⟨_, rfl, same, ends⟩ := splitPackage?_eq_some split
        have freeBefore : IsFree before := free.of_infix ⟨[], following, by simp [same]⟩
        have freeFollowing : IsFree following := free.of_infix ⟨before, [], by simp [same]⟩
        have imported := hasRegions_importBlock plain freeFollowing.hasRegions
        simpa using freeBefore.hasRegions.append ends imported
    · rw [String.toList_append]
      exact hasRegions_importBlock plain free.hasRegions

theorem hasRegions_addImports_of_edited {imports : List String} {body declarations : String}
    {front following : List Char} (plain : ∀ name ∈ imports, SlashFree name)
    (slashless : SlashFree declarations) (oneLine : '\n' ∉ declarations.toList)
    (begins : ∃ more, declarations.toList = 'p' :: 'r' :: more)
    (free : IsFree front) (others : IsFree following)
    (edited : body.toList = front ++ '\x7b' :: (region declarations ++ following)) :
    HasRegions (addImports imports body).toList := by
  unfold addImports
  split
  · rw [edited]
    exact hasRegions_edited slashless free others
  · split
    · next before rest split =>
        rw [edited] at split
        -- The package statement cannot stand in the region: the imports go before it or behind it.
        rcases splitPackage?_brace split with ⟨_, more, rfl, rfl, rfl, ends⟩ | behind
        · have freeBefore : IsFree before := free.of_infix ⟨[], more, by simp⟩
          have freeMore : IsFree more := free.of_infix ⟨before, [], by simp⟩
          have imported :=
            hasRegions_importBlock plain (hasRegions_edited slashless freeMore others)
          simpa using freeBefore.hasRegions.append ends imported
        · rw [splitPackage?_region oneLine begins] at behind
          obtain ⟨first, rfl, rfl, ends⟩ := splitPackage?_eq_some behind
          have freeFirst : IsFree first := others.of_infix ⟨[], rest, by simp⟩
          have freeRest : IsFree rest := others.of_infix ⟨first, [], by simp⟩
          have before := hasRegions_edited slashless free freeFirst
          have apart := ends.prepend (front ++ '\x7b' :: region declarations)
          have imported := hasRegions_importBlock plain freeRest.hasRegions
          have whole := before.append (by simpa using apart) imported
          simpa using whole
    · rw [String.toList_append, edited]
      exact hasRegions_importBlock plain (hasRegions_edited slashless free others)

end ParserSupport

namespace ScopeStyle

variable {style : ScopeStyle}

theorem slashFree_parserImports (names : ∀ name ∈ style.options.names, SlashFree name) :
    ∀ name ∈ style.parserImports, SlashFree name := by
  have package : SlashFree style.options.nodePackage := names _ (by simp [NodeOptions.names])
  have parserPackage : SlashFree style.options.parserPackage :=
    names _ (by simp [NodeOptions.names])
  have parserName : SlashFree style.options.parserName :=
    names _ (by simp [NodeOptions.names])
  have parserClass : SlashFree style.options.parserClass := by
    unfold NodeOptions.parserClass JavaName.qualify
    split
    · exact parserName
    · exact (parserPackage.append (by decide)).append parserName
  have nodes : SlashFree (style.options.nodePackage ++ ".*") := package.append (by decide)
  have constants : SlashFree ("static " ++ style.options.parserClass ++ "TreeConstants.*") :=
    (SlashFree.append (by decide) parserClass).append (by decide)
  intro name mem
  unfold parserImports at mem
  rw [List.mem_mergeSort, List.mem_append] at mem
  grind

/-- In the parser's compilation unit with all that is added to it regions are closed. -/
theorem hasRegions_parserUnit (names : ∀ name ∈ style.options.names, SlashFree name)
    (oneLine : '\n' ∉ style.options.parserName.toList)
    {unit : ParserUnit} (free : IsFree unit.body.toList) :
    HasRegions (ParserSupport.add unit.body unit.name style.parserImports style.parserInterfaces
      style.parserDeclarations).toList := by
  have parserName := names style.options.parserName (by simp [NodeOptions.names])
  have interfaces : ∀ interface ∈ style.parserInterfaces, SlashFree interface := by
    intro interface mem
    have constants : SlashFree style.options.constantsName :=
      parserName.append (by decide)
    unfold parserInterfaces at mem
    grind
  have state : SlashFree style.options.stateName :=
    (SlashFree.append (by decide) parserName).append (by decide)
  have stateLine : '\n' ∉ style.options.stateName.toList := by
    simpa [NodeOptions.stateName] using oneLine
  have slashless : SlashFree style.parserDeclarations :=
    (((SlashFree.append (by decide) state).append (by decide)).append state).append (by decide)
  have declared : style.parserDeclarations.toList = "protected ".toList ++
      (style.options.stateName.toList ++ " jjtree = new ".toList ++
        style.options.stateName.toList ++ "();".toList) := by
    simp [parserDeclarations]
  have whole : '\n' ∉ style.parserDeclarations.toList := by
    simp only [declared, List.mem_append, not_or]
    exact ⟨by decide, ⟨⟨stateLine, by decide⟩, stateLine⟩, by decide⟩
  have begins : ∃ more, style.parserDeclarations.toList = 'p' :: 'r' :: more := by
    have first : "protected ".toList = 'p' :: 'r' :: "otected ".toList := by decide
    exact ⟨_, declared.trans (congrArg (· ++ _) first)⟩
  have imports := slashFree_parserImports names
  unfold ParserSupport.add
  dsimp only
  split
  · next header found =>
      have cut := ParserSupport.findHeader?_eq_some found
      rw [List.reverse_nil, List.nil_append] at cut
      have freeHeader : IsFree (header.before ++ header.opening ++ header.clauses) :=
        free.of_infix ⟨[], '\x7b' :: header.following, by simp [cut]⟩
      have freeFollowing : IsFree header.following :=
        free.of_infix ⟨header.before ++ header.opening ++ header.clauses ++ ['\x7b'], [],
          by simp [cut]⟩
      obtain ⟨front, freeFront, edited⟩ :=
        ParserSupport.exists_editHeader freeHeader interfaces style.parserDeclarations
      exact ParserSupport.hasRegions_addImports_of_edited imports slashless whole begins
        freeFront freeFollowing edited
  · exact ParserSupport.hasRegions_addImports_of_isFree imports free

end ScopeStyle

end NodeWeave
