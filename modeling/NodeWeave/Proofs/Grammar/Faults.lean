import NodeWeave.Proofs.Grammar.Names
import NodeWeave.Proofs.Peg.Termination

/-!
Reading comes to an end, and fails in the syntax only. Main statement: a text that the rules accept
has all the parts that are asked for, so that a grammar is built of it unless an option is no
integer of 64 bits or the parser ends under another name than it began with.
-/

namespace NodeWeave.Grammar

open Peg

/-! ### Layers of rules -/

/-- How many rules are called, one in the other, before a character is read. -/
def Rule.layer : Rule → Nat
  | .expansionChoices => 7
  | .expansionSequence => 6
  | .scopedUnit | .bnfProduction => 5
  | .assignedUnit | .productionHeader => 4
  | .blockContent | .parenContent | .conditionText | .resultType | .nodeName | .lhs => 3
  | .qualifiedName | .blockPiece | .parenPiece | .anglePiece | .file | .optionEntry
  | .stringValue | .parserBody | .regexprProduction | .action | .nonterminal | .terminal => 2
  | _ => 1

def Rule.mayBeEmpty : Rule → Bool
  | .endOfInput | .blockContent | .parenContent | .parserBody | .conditionText
  | .expansionChoices | .expansionSequence => true
  | _ => false

/-- Between a rule and those of the layer below, calls nest to eight. -/
def ranking : Ranking Rule where
  rank name := 8 * name.layer
  skips := Rule.mayBeEmpty

theorem cost_blank : ranking.cost 0 Format.rules.blank = 5 := by decide

theorem ranks {gap : Nat} (known : gap = 0 ∨ gap = 5) : ranking.Ranks Format.rules gap 64 := by
  constructor
  all_goals
    intro name
    rcases known with rfl | rfl <;>
      cases name <;> decide

/-- No larger bound on the depth of calls gives anything else. -/
theorem settles_file (text : String) :
    Format.rules.Settles (Rules.depthFor text.toList.length) .spaced (.rule .file)
      (.start text) :=
  Rules.settles_depthFor (ranks (.inl rfl)) (ranks (.inr cost_blank)) isRuleFree_blank
    (by decide) (by decide) (by decide) (.start text)

/-! ### Parts that are asked for -/

/-- Whatever goes wrong is a fault of this kind. -/
def FaultsOnly {α : Type} (allowed : Fault → Prop) (result : Except Fault α) : Prop :=
  ∀ fault, result = .error fault → allowed fault

namespace FaultsOnly

variable {α β : Type} {allowed : Fault → Prop}

theorem ok (value : α) : FaultsOnly allowed (.ok value) :=
  nofun

theorem bind {first : Except Fault α} {go : α → Except Fault β} (here : FaultsOnly allowed first)
    (later : ∀ value, first = .ok value → FaultsOnly allowed (go value)) :
    FaultsOnly allowed (first >>= go) := by
  cases first with
  | error problem => exact fun fault failed => here fault (by cases failed; rfl)
  | ok value => exact later value rfl

theorem next {part first : Part} {rest : List Part} {element : String}
    {go : Part × List Part → Except Fault β} (later : FaultsOnly allowed (go (first, rest))) :
    FaultsOnly allowed (part.next element (first :: rest) >>= go) :=
  later

theorem mapM {items : List α} {read : α → Except Fault β}
    (each : ∀ item ∈ items, FaultsOnly allowed (read item)) :
    FaultsOnly allowed (items.mapM read) := by
  induction items with
  | nil => exact ok _
  | cons item rest ih =>
      rw [List.forall_mem_cons] at each
      rw [List.mapM_cons]
      exact bind each.1 fun _ _ => bind (ih each.2) fun _ _ => ok _

end FaultsOnly

variable {allowed : Fault → Prop}

theorem faultsOnly_buildDescriptor {part : Part} (isOf : IsOf .nodeDescriptor part) :
    FaultsOnly allowed (buildDescriptor part) := by
  obtain ⟨name, rest, same, -, more, made⟩ := isOf.first (by decide) rfl
  rw [buildDescriptor, same]
  refine .next ?_
  rcases IsOf.optional more made with rfl | ⟨condition, rfl, isCondition⟩
  · exact .ok _
  · obtain ⟨⟨body, _, inner, -, rfl⟩, -⟩ := isCondition.parts (by decide)
    dsimp only
    rw [inner]
    refine .next ?_
    dsimp only
    split <;> exact .ok _

theorem faultsOnly_buildAssigned {part : Part} (isOf : IsOf .assignedUnit part) :
    FaultsOnly allowed (buildAssigned part none part.children) := by
  obtain ⟨fills, made⟩ := isOf.parts (by decide)
  have called (target : Option String) {unit : Part} (rest : List Part)
      (mem : unit.rule ∈ [Rule.terminal, .nonterminal]) (made : Format.rules.Makes unit) :
      FaultsOnly allowed (buildAssigned part target (unit :: rest)) := by
    simp only [List.mem_cons, List.not_mem_nil, or_false] at mem
    rcases mem with rule | rule
    · rw [buildAssigned, rule]
      exact .ok _
    · obtain ⟨⟨name, _, same, -, arguments, _, rfl, -⟩, -⟩ := IsOf.parts ⟨rule, made⟩ (by decide)
      rw [buildAssigned, rule]
      dsimp only
      rw [same]
      exact .next (.next (.ok _))
  rcases fills with ⟨unit, rest, same, mem, -⟩ | ⟨target, _, same, isLhs, unit, rest, rfl, mem, -⟩
  · rw [same] at made ⊢
    exact called none rest mem (made _ (by simp))
  · rw [same] at made ⊢
    rw [buildAssigned, List.mem_singleton.mp isLhs]
    exact called _ rest mem (made _ (by simp))

theorem faultsOnly_buildClauses {clauses : List Part} (areOf : ∀ clause ∈ clauses,
    IsOf .catchClause clause ∨ IsOf .finallyClause clause) :
    FaultsOnly allowed (buildClauses clauses) := by
  induction clauses with
  | nil => exact .ok _
  | cons clause rest ih =>
      rw [List.forall_mem_cons] at areOf
      have later := ih areOf.2
      rcases areOf.1 with isOf | isOf
      · obtain ⟨⟨parameter, _, same, -, block, _, rfl, -⟩, -⟩ := isOf.parts (by decide)
        rw [buildClauses, isOf.1]
        dsimp only
        rw [same]
        exact .next (.next (.bind later fun _ _ => .ok _))
      · obtain ⟨⟨block, _, same, -⟩, -⟩ := isOf.parts (by decide)
        rw [buildClauses, isOf.1]
        dsimp only
        rw [same]
        exact .next (.bind later fun _ _ => .ok _)

/-! ### Expansions -/

mutual
theorem faultsOnly_buildChoices : ∀ part : Part, IsOf .expansionChoices part →
    FaultsOnly allowed (buildChoices part)
  | .node rule start stop text sequences, isOf => by
      rw [buildChoices]
      refine .bind (faultsOnly_buildSequences sequences isOf.expansionChoices) fun built _ => ?_
      split <;> exact .ok _

theorem faultsOnly_buildSequences : ∀ parts : List Part,
    (∀ part ∈ parts, IsOf .expansionSequence part) → FaultsOnly allowed (buildSequences parts)
  | [], _ => by
      rw [buildSequences]
      exact .ok _
  | part :: rest, areOf => by
      rw [List.forall_mem_cons] at areOf
      rw [buildSequences]
      exact .bind (faultsOnly_buildSequence part areOf.1) fun _ _ =>
        .bind (faultsOnly_buildSequences rest areOf.2) fun _ _ => .ok _

theorem faultsOnly_buildSequence : ∀ part : Part, IsOf .expansionSequence part →
    FaultsOnly allowed (buildSequence part)
  | .node rule start stop text units, isOf => by
      rw [buildSequence]
      refine .bind (faultsOnly_buildUnits units isOf.expansionSequence) fun built _ => ?_
      split <;> exact .ok _

theorem faultsOnly_buildUnits : ∀ parts : List Part,
    (∀ part ∈ parts, IsOf .scopedUnit part) → FaultsOnly allowed (buildUnits parts)
  | [], _ => by
      rw [buildUnits]
      exact .ok _
  | part :: rest, areOf => by
      rw [List.forall_mem_cons] at areOf
      rw [buildUnits]
      exact .bind (faultsOnly_buildAnnotated part areOf.1) fun _ _ =>
        .bind (faultsOnly_buildUnits rest areOf.2) fun _ _ => .ok _

theorem faultsOnly_buildAnnotated : ∀ part : Part, IsOf .scopedUnit part →
    FaultsOnly allowed (buildAnnotated part)
  | .node rule start stop text parts, isOf => by
      obtain ⟨unit, rest, rfl, isUnit, made, more⟩ := isOf.scopedUnit
      rw [buildAnnotated]
      refine .bind (faultsOnly_buildUnit unit isUnit made) fun built _ => ?_
      rcases more with rfl | ⟨descriptor, rfl, isDescriptor⟩
      · exact .ok _
      · exact .bind (faultsOnly_buildDescriptor isDescriptor) fun _ _ => .ok _

theorem faultsOnly_buildUnit : ∀ part : Part, part.rule ∈ Format.expansionUnit.calls →
    Format.rules.Makes part → FaultsOnly allowed (buildUnit part)
  | .node rule start stop text inner, isUnit, made => by
      have isOf : IsOf rule (.node rule start stop text inner) := ⟨rfl, made⟩
      clear made
      simp only [Tree.rule, Format.expansionUnit, Expr.calls, List.mem_cons,
        List.not_mem_nil, or_false, HOrElse.hOrElse, OrElse.orElse, List.cons_append,
        List.nil_append] at isUnit
      rcases isUnit with rfl | rfl | rfl | rfl | rfl | rfl
      · rw [buildUnit]
        exact .ok _
      · obtain ⟨⟨block, _, rfl, -⟩, -⟩ := isOf.parts (by decide)
        rw [buildUnit]
        exact .next (.ok _)
      · obtain ⟨choices, clauses, rfl, isChoices, areClauses⟩ := isOf.tryUnit
        rw [buildUnit]
        exact .bind (faultsOnly_buildChoices choices isChoices) fun _ _ =>
          .bind (faultsOnly_buildClauses areClauses) fun _ _ => .ok _
      · obtain ⟨choices, rest, rfl, isChoices, -⟩ := isOf.first (by decide) rfl
        rw [buildUnit]
        exact .bind (faultsOnly_buildChoices choices isChoices) fun _ _ => .ok _
      · obtain ⟨choices, rest, rfl, isChoices, -⟩ := isOf.first (by decide) rfl
        rw [buildUnit]
        exact .bind (faultsOnly_buildChoices choices isChoices) fun _ _ => .ok _
      · rw [buildUnit]
        exact faultsOnly_buildAssigned isOf
end

/-! ### Productions -/

theorem exists_add (header : Header) {part : Part}
    (known : part.rule ∈ (Format.body .productionHeader).calls) :
    ∃ later, header.add part = .ok later ∧
      (header.name.isSome = true ∨ part.rule = .identifier → later.name.isSome = true) := by
  simp only [Format.body, Expr.calls, HAndThen.hAndThen, AndThen.andThen,
    Expr.word, List.nil_append, List.cons_append, List.mem_cons, List.not_mem_nil,
    or_false] at known
  rcases known with rule | rule | rule | rule | rule
  all_goals
    rw [Header.add, rule]
    exact ⟨_, rfl, by simp⟩

theorem exists_foldlM_add (header : Header) {parts : List Part}
    (known : ∀ part ∈ parts, part.rule ∈ (Format.body .productionHeader).calls) :
    ∃ later, parts.foldlM Header.add header = .ok later ∧
      (header.name.isSome = true ∨ (∃ part ∈ parts, part.rule = .identifier) →
        later.name.isSome = true) := by
  induction parts generalizing header with
  | nil => exact ⟨header, rfl, by simp⟩
  | cons part rest ih =>
      rw [List.forall_mem_cons] at known
      obtain ⟨next, added, named⟩ := exists_add header known.1
      obtain ⟨later, done, namedLater⟩ := ih next known.2
      refine ⟨later, by rw [List.foldlM_cons, added]; exact done, fun given => namedLater ?_⟩
      rcases given with given | ⟨inner, mem, rule⟩
      · exact .inl (named (.inl given))
      · rcases List.mem_cons.mp mem with rfl | mem
        · exact .inl (named (.inr rule))
        · exact .inr ⟨inner, mem, rule⟩

theorem exists_header {part : Part} (isOf : IsOf .productionHeader part) :
    ∃ header name, part.children.foldlM Header.add {} = .ok header ∧
      header.name = some name := by
  obtain ⟨fills, -⟩ := isOf.parts (by decide)
  have known := isOf.forall_mem_children (by decide)
  have named : ∃ inner ∈ part.children, inner.rule ∈ [Rule.identifier] :=
    fills.exists_mem (by decide)
  simp only [List.mem_singleton] at named
  obtain ⟨header, added, isNamed⟩ := exists_foldlM_add {} fun inner mem => (known inner mem).1
  obtain ⟨name, same⟩ := Option.isSome_iff_exists.mp (isNamed (.inr named))
  exact ⟨header, name, added, same⟩

theorem faultsOnly_buildOptionalDescriptor {descriptor : List Part} {block : Part}
    {others : List Part}
    (areOf : descriptor = [] ∨ ∃ d, descriptor = [d] ∧ IsOf .nodeDescriptor d)
    (isBlock : IsOf .javaBlock block) :
    FaultsOnly allowed (buildOptionalDescriptor (descriptor ++ block :: others)) := by
  rcases areOf with rfl | ⟨part, rfl, isPart⟩
  · rw [List.nil_append, buildOptionalDescriptor, if_neg (by rw [isBlock.1]; decide)]
    exact .ok _
  · rw [List.singleton_append, buildOptionalDescriptor, if_pos isPart.1]
    exact .bind (faultsOnly_buildDescriptor isPart) fun _ _ => .ok _

theorem faultsOnly_buildProduction {part header block : Part} {descriptor rest : List Part}
    (parts : IsProduction part header descriptor block rest) :
    FaultsOnly allowed (buildProduction part) := by
  obtain ⟨written, name, added, named⟩ := exists_header parts.header
  rw [buildProduction, parts.children]
  refine .next ?_
  dsimp only
  rw [added]
  refine .bind (.ok _) ?_
  rintro _ ⟨⟩
  rw [named]
  refine .bind (faultsOnly_buildOptionalDescriptor parts.descriptor parts.block) ?_
  rintro ⟨node, behind⟩ described
  obtain ⟨rfl, -⟩ := isDotted_of_buildOptionalDescriptor parts.descriptor parts.block described
  refine .next ?_
  dsimp only
  split
  · exact .ok _
  · next isBnf =>
      obtain ⟨choices, rfl, isChoices⟩ := parts.rest.resolve_left isBnf
      exact .next (.bind (faultsOnly_buildChoices choices isChoices) fun _ _ => .ok _)

/-! ### Integers -/

/-- The integer that is written with a sign and digits. -/
def integerOf (text : String) : Int :=
  match text.toList with
  | '-' :: digits => -(decimal digits : Int)
  | digits => decimal digits

theorem readInt_eq_none_iff {text : String} :
    readInt text = none ↔ inInt64 (integerOf text) = false := by
  have same : readInt text = if inInt64 (integerOf text) then some (integerOf text) else none := rfl
  simp [same]

/-- An option whose value is an integer of more than 64 bits. -/
inductive IsTooLarge (entry : Part) : Fault → Prop where
  | intro {key value : Part} (parts : entry.children = [key, value])
      (isInteger : value.rule = .intValue)
      (outside : inInt64 (integerOf value.text) = false) :
      IsTooLarge entry
        (readFault (.malformed ("invalid integer '" ++ value.text ++ "'")) entry.span)

theorem buildEntry_eq_error_iff {entry : Part} (isOf : IsOf .optionEntry entry) {fault : Fault} :
    buildEntry entry = .error fault ↔ IsTooLarge entry fault := by
  constructor
  · intro failed
    obtain ⟨⟨key, _, same, -, value, _, rfl, -, rfl⟩, -⟩ := isOf.parts (by decide)
    rw [buildEntry, same] at failed
    dsimp only [Part.next, bind, Except.bind] at failed
    split at failed
    · cases failed
    · next isInteger =>
        split at failed
        · cases failed
        · next outside =>
            cases failed
            exact .intro same isInteger (readInt_eq_none_iff.mp outside)
    · cases failed
  · rintro ⟨same, isInteger, outside⟩
    rw [buildEntry, same]
    dsimp only [Part.next, bind, Except.bind]
    rw [isInteger, readInt_eq_none_iff.mpr outside]

/-- A parser that ends under another name than it began with. -/
inductive IsMisnamed (decl : Part) : Fault → Prop where
  | intro {opening body closing : Part} (parts : decl.children = [opening, body, closing])
      (differ : opening.text ≠ closing.text) :
      IsMisnamed decl ((readFault (.malformed ("PARSER_END(" ++ closing.text ++
        ") does not match PARSER_BEGIN(" ++ opening.text ++ ")")) closing.span).withHelp
          ("rename it PARSER_END(" ++ opening.text ++ ")"))

theorem buildParserUnit_eq_error_iff {decl : Part} (isOf : IsOf .parserDecl decl)
    {fault : Fault} : buildParserUnit decl = .error fault ↔ IsMisnamed decl fault := by
  constructor
  · intro failed
    obtain ⟨⟨opening, _, same, -, body, _, rfl, -, closing, _, rfl, -, rfl⟩, -⟩ :=
      isOf.parts (by decide)
    rw [buildParserUnit, same] at failed
    dsimp only [Part.next, bind, Except.bind] at failed
    split at failed
    · cases failed
    · next differ =>
        cases failed
        exact .intro same differ
  · rintro ⟨same, differ⟩
    rw [buildParserUnit, same]
    dsimp only [Part.next, bind, Except.bind]
    rw [if_neg differ]

/-! ### Files -/

/-- What can be wrong with a file that the rules accept. -/
inductive IsDefect (file : Part) : Fault → Prop where
  | integer {block entry : Part} {fault : Fault} (listed : block ∈ file.children)
      (options : block.rule = .optionsDecl) (inside : entry ∈ block.children)
      (tooLarge : IsTooLarge entry fault) : IsDefect file fault
  | ending {decl : Part} {fault : Fault} (listed : decl ∈ file.children)
      (parser : decl.rule = .parserDecl) (misnamed : IsMisnamed decl fault) :
      IsDefect file fault

theorem exists_error_of_mapM {ε α β : Type} {read : α → Except ε β} {items : List α} {item : α}
    {problem : ε} (mem : item ∈ items) (failed : read item = .error problem) :
    ∃ other, items.mapM read = .error other := by
  induction items with
  | nil => cases mem
  | cons first rest ih =>
      rw [List.mapM_cons]
      cases done : read first with
      | error other => exact ⟨other, rfl⟩
      | ok result =>
          rcases List.mem_cons.mp mem with rfl | mem
          · cases failed.symm.trans done
          · obtain ⟨other, failed⟩ := ih mem
            exact ⟨other, by rw [failed]; rfl⟩

theorem faultsOnly_buildItem {file part : Part} (isOf : IsOf .file file)
    (mem : part ∈ file.children) : FaultsOnly (IsDefect file) (buildItem part) := by
  obtain ⟨rule, made⟩ := isOf.forall_mem_children (by decide) part mem
  simp only [Format.body, Format.item, Expr.calls, HAndThen.hAndThen, AndThen.andThen,
    HOrElse.hOrElse, OrElse.orElse, List.nil_append, List.cons_append, List.mem_cons,
    List.not_mem_nil, or_false] at rule
  unfold buildItem
  rcases rule with rule | rule | rule | rule | rule | rule | rule
  all_goals rw [rule]
  · refine .bind (.mapM fun entry inside fault failed => ?_) fun _ _ => .ok _
    have entryOf : IsOf .optionEntry entry :=
      IsOf.forall_children ⟨rule, made⟩ (by decide) (by decide) entry inside
    exact .integer mem rule inside ((buildEntry_eq_error_iff entryOf).mp failed)
  · refine .bind (fun fault failed => ?_) fun _ _ => .ok _
    exact .ending mem rule ((buildParserUnit_eq_error_iff ⟨rule, made⟩).mp failed)
  · exact .ok _
  · exact .ok _
  · obtain ⟨header, descriptor, block, rest, parts⟩ :=
      exists_isProduction_of_javacode ⟨rule, made⟩
    exact .bind (faultsOnly_buildProduction parts) fun _ _ => .ok _
  · obtain ⟨header, descriptor, block, rest, parts⟩ := exists_isProduction_of_bnf ⟨rule, made⟩
    exact .bind (faultsOnly_buildProduction parts) fun _ _ => .ok _
  · exact .ok _

theorem faultsOnly_build {name : String} {file : Part} (isOf : IsOf .file file) :
    FaultsOnly (IsDefect file) (build name file) :=
  .bind (.mapM fun _ mem => faultsOnly_buildItem isOf mem) fun _ _ => .ok _

theorem exists_error_of_isDefect {name : String} {file : Part} (isOf : IsOf .file file)
    {fault : Fault} (defect : IsDefect file fault) :
    ∃ other, build name file = .error other := by
  have areMade := (isOf.parts (by decide)).2
  suffices failed : ∃ part ∈ file.children, ∃ problem, buildItem part = .error problem by
    obtain ⟨part, mem, problem, failed⟩ := failed
    obtain ⟨other, failed⟩ := exists_error_of_mapM mem failed
    exact ⟨other, by rw [build, failed]; rfl⟩
  cases defect with
  | @integer block entry fault listed options inside tooLarge =>
      have entryOf : IsOf .optionEntry entry :=
        IsOf.forall_children ⟨options, areMade block listed⟩ (by decide) (by decide) entry inside
      obtain ⟨other, failed⟩ :=
        exists_error_of_mapM inside ((buildEntry_eq_error_iff entryOf).mpr tooLarge)
      exact ⟨block, listed, other, by rw [buildItem, options]; dsimp only; rw [failed]; rfl⟩
  | @ending decl fault listed parser misnamed =>
      have failed := (buildParserUnit_eq_error_iff ⟨parser, areMade decl listed⟩).mpr misnamed
      exact ⟨decl, listed, fault, by rw [buildItem, parser]; dsimp only; rw [failed]; rfl⟩

def IsSyntaxFault (fault : Fault) : Prop :=
  fault.phase = readingPhase ∧ ∃ message, fault.cause = .malformed message

theorem IsDefect.isSyntaxFault {file : Part} {fault : Fault} (defect : IsDefect file fault) :
    IsSyntaxFault fault := by
  rcases defect with ⟨_, _, _, ⟨⟩⟩ | ⟨_, _, ⟨⟩⟩
  all_goals exact ⟨rfl, _, rfl⟩

/-- Of a file whose parts are all there a grammar is built, unless it has a defect. -/
theorem build_cases (name : String) {file : Part} (isOf : IsOf .file file) :
    ((∃ g, build name file = .ok g) ∧ ∀ fault, ¬ IsDefect file fault) ∨
      ∃ fault, build name file = .error fault ∧ IsDefect file fault := by
  cases built : build name file with
  | ok g =>
      refine .inl ⟨⟨g, rfl⟩, fun fault defect => ?_⟩
      obtain ⟨other, failed⟩ := exists_error_of_isDefect isOf defect
      cases failed.symm.trans built
  | error fault => exact .inr ⟨fault, rfl, faultsOnly_build isOf fault built⟩

/-- Reading comes to an end, and fails in the syntax only. Either the rules do not accept the text,
or they leave a file with all parts that they ask for; a grammar is read then, unless an option is
no integer of 64 bits or the parser ends under another name. -/
theorem read_fails_in_syntax_only (name text : String) :
    Format.rules.Settles (Rules.depthFor text.toList.length) .spaced (.rule .file)
      (.start text) ∧
    ((∃ furthest, Format.rules.parse .file text = .error furthest ∧
        read name text = .error (readFault (.malformed (expectationMessage furthest.rules))
          ⟨furthest.offset, 0⟩)) ∨
      ∃ file, Format.rules.parse .file text = .ok file ∧ file.rule = .file ∧
        Format.rules.IsComplete file ∧
        (((∃ g, read name text = .ok g) ∧ ∀ fault, ¬ IsDefect file fault) ∨
          ∃ fault, read name text = .error fault ∧ IsDefect file fault)) ∧
    ∀ fault, read name text = .error fault → IsSyntaxFault fault := by
  refine ⟨settles_file text, ?_⟩
  unfold read
  cases parsed : Format.rules.parse .file text with
  | error furthest =>
      refine ⟨.inl ⟨furthest, rfl, rfl⟩, ?_⟩
      rintro fault ⟨⟩
      exact ⟨rfl, _, rfl⟩
  | ok file =>
      have isOf := Rules.makes_of_parse isRuleFree_blank (by decide) parsed
      have complete := isOf.2.isComplete callsShow (by rw [isOf.1]; decide)
      exact ⟨.inr ⟨file, rfl, isOf.1, complete, build_cases name isOf⟩, fun fault failed =>
        (faultsOnly_build isOf fault failed).isSyntaxFault⟩

end NodeWeave.Grammar
