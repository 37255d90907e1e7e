import NodeWeave.Proofs.Grammar.Wholes
import NodeWeave.Proofs.Woven.Generated
import NodeWeave.Proofs.Woven.UnitLines

/-!
Woven expansions are read again. Main statement: where what the host language gives to an expansion
closes all that it opens, the lines that are woven of the expansion are alternatives that stand
between two brackets, and no descriptor is among them.
-/

namespace NodeWeave

open Grammar Grammar.Format Text

/-! ### Clauses -/

theorem trimLines_braced {front body rest : List Char} :
    trimLines (front ++ '\x7b' :: (body ++ '\x7d' :: rest)) =
      trimLines front ++ '\x7b' :: (trimLines body ++ '\x7d' :: trimLines rest) := by
  rw [trimLines_append_solid rfl, trimLines_append_solid rfl]

theorem trimLines_catch {parameter body rest : List Char} :
    trimLines (" catch (".toList ++ parameter ++ ") \x7b".toList ++ body ++ '\x7d' :: rest) =
      " catch (".toList ++ trimLines parameter ++ ") \x7b".toList ++ trimLines body ++
        '\x7d' :: trimLines rest := by
  have whole (parameter body rest : List Char) :
      " catch (".toList ++ parameter ++ ") \x7b".toList ++ body ++ '\x7d' :: rest =
        " catch ".toList ++ '(' ::
          (parameter ++ ')' :: ([' '] ++ '\x7b' :: (body ++ '\x7d' :: rest))) := by simp
  have word : trimLines " catch ".toList = " catch ".toList := trimLines_of_not_mem (by decide)
  have space : trimLines [' '] = [' '] := trimLines_of_not_mem (by decide)
  rw [whole, whole, trimLines_append_solid rfl, trimLines_append_solid rfl, trimLines_braced, word,
    space]

theorem trimLines_finally {body : List Char} :
    trimLines (" finally \x7b".toList ++ body ++ ['\x7d']) =
      " finally \x7b".toList ++ trimLines body ++ ['\x7d'] := by
  have whole (body : List Char) : " finally \x7b".toList ++ body ++ ['\x7d'] =
      " finally ".toList ++ '\x7b' :: (body ++ ['\x7d']) := by simp
  have word : trimLines " finally ".toList = " finally ".toList := trimLines_of_not_mem (by decide)
  rw [whole, whole, trimLines_braced, word, trimLines_nil]

namespace Grammar

structure CatchClause.IsClosed (clause : CatchClause) : Prop where
  parameter : Bracket.paren.lexis.Closes 0 clause.parameter.toList
  body : Bracket.brace.lexis.Closes 0 clause.body.toList

end Grammar

def Woven.clauses (catches : List CatchClause) (finallyCode : Option String) : String :=
  String.join (catches.map fun c => " catch (" ++ c.parameter ++ ") \x7b" ++ c.body ++ "\x7d") ++
    (match finallyCode with
    | some code => " finally \x7b" ++ code ++ "\x7d"
    | none => "")

theorem Woven.clausesText_eq (catches : List CatchClause) (finallyCode : Option String) :
    Woven.clausesText catches finallyCode = "\x7d" ++ Woven.clauses catches finallyCode :=
  String.append_assoc

theorem Woven.toList_clauses_cons (c : CatchClause) (catches : List CatchClause)
    (finallyCode : Option String) : (Woven.clauses (c :: catches) finallyCode).toList =
      " catch (".toList ++ c.parameter.toList ++ ") \x7b".toList ++ c.body.toList ++
        '\x7d' :: (Woven.clauses catches finallyCode).toList := by
  simp [Woven.clauses, String.join_cons]

theorem Woven.toList_clauses_finally (code : String) : (Woven.clauses [] (some code)).toList =
    " finally \x7b".toList ++ code.toList ++ ['\x7d'] := by
  simp [Woven.clauses]

theorem Woven.isClausesText_clauses {catches : List CatchClause} {finallyCode : Option String}
    (caught : ∀ c ∈ catches, c.IsClosed)
    (cleaned : ∀ code ∈ finallyCode, Bracket.brace.lexis.Closes 0 code.toList) :
    IsClausesText (trimLines (Woven.clauses catches finallyCode).toList) := by
  induction catches with
  | nil =>
      cases finallyCode with
      | none => exact isClausesText_nil
      | some code =>
          rw [Woven.toList_clauses_finally, trimLines_finally]
          exact isClausesText_finally (closes_trimLines (cleaned code rfl))
  | cons c rest ih =>
      rw [List.forall_mem_cons] at caught
      rw [Woven.toList_clauses_cons, trimLines_catch]
      exact (ih caught.2).catch (closes_trimLines caught.1.parameter)
        (closes_trimLines caught.1.body)

theorem Woven.getLast?_clauses (catches : List CatchClause) (finallyCode : Option String) :
    ("\x7d" ++ Woven.clauses catches finallyCode).toList.getLast? = some '\x7d' := by
  have ends : ∀ c ∈ (Woven.clauses catches finallyCode).toList.getLast?, c = '\x7d' := by
    induction catches with
    | nil =>
        cases finallyCode with
        | none => exact nofun
        | some code =>
            intro c last
            rw [Woven.toList_clauses_finally, List.getLast?_append] at last
            exact (Option.some.inj last).symm
    | cons c rest ih =>
        intro d last
        rw [Woven.toList_clauses_cons, List.getLast?_append, List.getLast?_cons] at last
        cases tail : (Woven.clauses rest finallyCode).toList.getLast? with
        | none =>
            rw [tail] at last
            simpa [eq_comm] using last
        | some e =>
            rw [tail] at last
            have := ih e tail
            simpa [this, eq_comm] using last
  rw [String.toList_append, List.getLast?_append]
  cases last : (Woven.clauses catches finallyCode).toList.getLast? with
  | none => rfl
  | some c => rw [ends c last]; rfl

/-! ### Single lines -/

/-- The text begins and ends with characters that are no blanks, and without the blanks at the ends
of its lines it is that of a unit. -/
structure IsUnitLine (text : String) : Prop where
  first : ∃ c, text.toList.head? = some c ∧ isBlank c = false
  last : ∃ c, text.toList.getLast? = some c ∧ isBlank c = false
  unit : IsUnitText (trimLines text.toList)

namespace IsUnitLine

theorem units {text : String} (is : IsUnitLine text) (level : Nat) :
    Units (Piece.written [Piece.line level text]) := by
  obtain ⟨c, first, solidFirst⟩ := is.first
  obtain ⟨d, last, solidLast⟩ := is.last
  exact Piece.units_line first last solidFirst solidLast is.unit

theorem action {code : String} (closes : Bracket.brace.lexis.Closes 0 code.toList) :
    IsUnitLine ("\x7b" ++ code ++ "\x7d") := by
  have whole : ("\x7b" ++ code ++ "\x7d").toList = '\x7b' :: code.toList ++ ['\x7d'] := by simp
  refine ⟨⟨'\x7b', by rw [whole]; rfl, rfl⟩,
    ⟨'\x7d', by rw [whole, List.getLast?_append]; rfl, rfl⟩, ?_⟩
  rw [whole, trimLines_between rfl rfl]
  exact isUnitText_action (closes_trimLines closes)

theorem lookahead {text : String} (is : IsLookahead text.toList) : IsUnitLine text := by
  have trimmed := isUnitText_lookahead is.trimLines
  obtain ⟨gap, inner, whole, -, -⟩ := is
  refine ⟨⟨'L', by rw [whole]; rfl, rfl⟩, ⟨')', ?_, rfl⟩, trimmed⟩
  rw [whole, List.getLast?_append, List.getLast?_append, List.getLast?_append]
  rfl

end IsUnitLine

/-- The text of a reference or a terminal without a target. -/
structure IsSymbol (text : List Char) : Prop where
  first : ∃ c rest, text = c :: rest ∧ isBlank c = false
  last : ∃ c, text.getLast? = some c ∧ isBlank c = false
  symbol : IsSymbolText (trimLines text)

namespace IsSymbol

theorem terminal {text : List Char} (is : IsTerminal text) : IsSymbol text := by
  have trimmed := isSymbolText_terminal is.trimLines
  rcases is with ⟨inner, rfl, -⟩ | ⟨inner, rfl, -⟩
  · exact ⟨⟨'"', _, rfl, rfl⟩, ⟨'"', List.getLast?_concat, rfl⟩, trimmed⟩
  · exact ⟨⟨'<', _, rfl, rfl⟩, ⟨'>', List.getLast?_concat, rfl⟩, trimmed⟩

theorem trimLines_referenceText {name arguments : List Char}
    (identifier : isIdentifier name = true) :
    trimLines (referenceText name arguments) = referenceText name (trimLines arguments) := by
  rw [referenceText, trimLines_append_name (isDotted_of_isIdentifier identifier),
    ← List.cons_append, trimLines_between rfl rfl]
  rfl

theorem getLast?_referenceText (name arguments : List Char) :
    (referenceText name arguments).getLast? = some ')' := by
  rw [referenceText, ← List.cons_append, ← List.append_assoc, List.getLast?_concat]

theorem first_of_isIdentifier {name rest : List Char} (identifier : isIdentifier name = true) :
    ∃ c more, name ++ rest = c :: more ∧ isBlank c = false := by
  obtain ⟨c, more, rfl, first, -⟩ := exists_cons_of_isIdentifier identifier
  exact ⟨c, more ++ rest, rfl, IsDottedChar.solid (.inr (isNameChar_of_isNameStart first))⟩

theorem reference {name arguments : List Char} (identifier : isIdentifier name = true)
    (closes : Bracket.paren.lexis.Closes 0 arguments) :
    IsSymbol (referenceText name arguments) := by
  refine ⟨first_of_isIdentifier identifier, ⟨')', getLast?_referenceText name arguments, rfl⟩, ?_⟩
  rw [trimLines_referenceText identifier]
  exact isSymbolText_reference identifier (closes_trimLines closes)

end IsSymbol

theorem first_of_isTarget {target : List Char} (is : IsTarget target) (rest : List Char) :
    ∃ c more, target ++ rest = c :: more ∧ isBlank c = false := by
  obtain ⟨name, indices, rfl, dotted, -⟩ := is
  rw [List.append_assoc]
  rcases isDotted_cases dotted with identifier | ⟨first, more, rfl, identifier, -⟩
  · exact IsSymbol.first_of_isIdentifier identifier
  · rw [List.append_assoc]
    exact IsSymbol.first_of_isIdentifier identifier

theorem isKept_of_isTarget {target : List Char} (is : IsTarget target) :
    ∀ c ∈ target.getLast?, IsKept c := by
  obtain ⟨name, indices, rfl, dotted, are⟩ := is
  have named : ∀ c ∈ name.getLast?, IsKept c := fun c last =>
    .inl (isDottedChar_of_mem dotted (List.mem_of_mem_getLast? last)).solid
  have closed : ∀ c ∈ indices.getLast?, c = ']' := by
    clear named
    induction are with
    | nil => exact nofun
    | @cons index rest _ _ ih =>
        intro c last
        rw [List.getLast?_append, List.getLast?_cons] at last
        cases tail : rest.getLast? with
        | none =>
            rw [tail] at last
            exact (Option.some.inj last).symm
        | some d =>
            rw [tail] at last
            exact (Option.some.inj last) ▸ ih d tail
  intro c last
  rw [List.getLast?_append] at last
  cases tail : indices.getLast? with
  | none =>
      rw [tail] at last
      exact named c last
  | some d =>
      rw [tail] at last
      rw [← Option.some.inj last, closed d tail]
      exact .inl rfl

theorem IsUnitLine.assigned {target : String} {text : String} (is : IsTarget target.toList)
    (symbol : IsSymbol text.toList) : IsUnitLine (assigned (some target) text) := by
  have whole : (NodeWeave.assigned (some target) text).toList =
      target.toList ++ (" = ".toList ++ text.toList) := by
    rw [NodeWeave.assigned, String.toList_append, String.toList_append, List.append_assoc]
  obtain ⟨c, rest, begins, solid⟩ := symbol.first
  obtain ⟨d, last, solidLast⟩ := symbol.last
  obtain ⟨e, more, front, solidFirst⟩ := first_of_isTarget is (" = ".toList ++ text.toList)
  refine ⟨⟨e, by rw [whole, front]; rfl, solidFirst⟩, ⟨d, ?_, solidLast⟩, ?_⟩
  · rw [whole, List.getLast?_append, List.getLast?_append, last]
    rfl
  · have sign : trimLines " = ".toList = " = ".toList := trimLines_of_not_mem (by decide)
    have border : (trimLines text.toList).head? ≠ some '\n' := by
      rw [begins, trimLines_cons_of_solid solid]
      rintro ⟨⟩
      cases solid
    rw [whole, trimLines_append (.inl (isKept_of_isTarget is)), trimLines_append (.inr border),
      sign, ← List.append_assoc]
    exact isUnitText_assigned is.trimLines symbol.symbol

theorem IsUnitLine.terminal {text : String} (is : IsTerminal text.toList) : IsUnitLine text := by
  obtain ⟨⟨c, rest, begins, solid⟩, last, -⟩ := IsSymbol.terminal is
  exact ⟨⟨c, by rw [begins]; rfl, solid⟩, last, isUnitText_terminal is.trimLines⟩

theorem toList_reference (name arguments : String) :
    (name ++ "(" ++ arguments ++ ")").toList = referenceText name.toList arguments.toList := by
  simp [referenceText]

theorem IsUnitLine.reference {name arguments : String}
    (identifier : isIdentifier name.toList = true) (noClause : name ≠ "catch")
    (closes : Bracket.paren.lexis.Closes 0 arguments.toList) :
    IsUnitLine (name ++ "(" ++ arguments ++ ")") := by
  have is := IsSymbol.reference identifier closes
  obtain ⟨⟨c, rest, begins, solid⟩, last, -⟩ := is
  rw [← toList_reference] at begins last
  refine ⟨⟨c, by rw [begins]; rfl, solid⟩, last, ?_⟩
  rw [toList_reference, IsSymbol.trimLines_referenceText identifier]
  refine isUnitText_reference identifier (fun same => noClause ?_) (closes_trimLines closes)
  exact String.toList_inj.mp same

/-! ### Expansions -/

namespace Grammar

/-- The condition closes all that it opens, and the comment with the descriptor goes up to its own
end. -/
structure Descriptor.IsClosed (node : Descriptor) : Prop where
  closes : ∀ condition ∈ node.condition, Bracket.brace.lexis.Closes 0 condition.text.toList
  openLabel : ∀ condition ∈ node.condition, IsOpenLabel condition.text

/-- What the host language gives to the expansion itself closes all that it opens, and names are
names. -/
def Expansion.IsClosedHere (style : ScopeStyle) : Expansion → Prop
  | .lookahead text => IsLookahead text.toList
  | .action code => Bracket.brace.lexis.Closes 0 code.toList
  | .reference target name arguments =>
      (∀ t ∈ target, IsTarget t.toList) ∧ isIdentifier name.toList = true ∧
        (target = none → name ≠ "catch") ∧ Bracket.paren.lexis.Closes 0 arguments.toList
  | .terminal target text => (∀ t ∈ target, IsTarget t.toList) ∧ IsTerminal text.toList
  | .annotated _ node => node.isVoid = false → style.Names node.name ∧ node.IsClosed
  | .guarded _ catches finallyCode => (∀ c ∈ catches, c.IsClosed) ∧
      ∀ code ∈ finallyCode, Bracket.brace.lexis.Closes 0 code.toList
  | .sequence _ | .choice _ | .group _ _ | .optional _ => True

/-- What the host language gives to the expansion closes all that it opens. -/
def Expansion.IsClosed (style : ScopeStyle) (e : Expansion) : Prop :=
  ∀ inner ∈ e.preorder, inner.IsClosedHere style

namespace Expansion

variable {style : ScopeStyle} {e inner : Expansion} {es : List Expansion}

theorem IsClosed.here (closed : e.IsClosed style) : e.IsClosedHere style :=
  closed e e.mem_preorder_self

theorem IsClosed.inside (closed : e.IsClosed style)
    (within : ∀ x ∈ inner.preorder, x ∈ e.preorder) : inner.IsClosed style :=
  fun x mem => closed x (within x mem)

theorem mem_preorderAll_of_mem (mem : e ∈ es) {x : Expansion} (within : x ∈ e.preorder) :
    x ∈ preorderAll es := by
  induction es with
  | nil => cases mem
  | cons first rest ih =>
      rw [preorderAll, List.mem_append]
      rcases List.mem_cons.mp mem with rfl | later
      · exact .inl within
      · exact .inr (ih later)

end Expansion

end Grammar

namespace Scope

variable {scope : Scope}

theorem isOpenLabel_nodeName (dotted : Dotted scope.nodeName.toList) :
    IsOpenLabel scope.nodeName := by
  intro mark
  exact absurd (dotted _ (mark.subset List.mem_cons_self)) (by decide)

theorem isOpenLabel_description (dotted : Dotted scope.nodeName.toList)
    (openLabel : ∀ condition ∈ scope.opener.condition?, IsOpenLabel condition.text) :
    IsOpenLabel scope.description := by
  have filled : ['*', '/'] ≠ [] := List.cons_ne_nil _ _
  have named : ¬ ['*', '/'] <:+: '#' :: scope.nodeName.toList := by
    intro mark
    have mem := mark.subset (List.mem_cons_of_mem '*' (List.mem_singleton_self '/'))
    rcases List.mem_cons.mp mem with same | mem
    · cases same
    · exact absurd (dotted _ mem) (by decide)
  unfold description
  split
  · rw [IsOpenLabel, String.toList_append]
    exact named
  · next condition found =>
      have closed : ¬ ['*', '/'] <:+: condition.text.toList ++ ')' :: [] := by
        rw [infix_append_cons_iff filled (by decide), not_or]
        exact ⟨openLabel condition found, by decide⟩
      split
      · have whole : ("#" ++ scope.nodeName ++ "(> " ++ condition.text ++ ")").toList =
            '#' :: scope.nodeName.toList ++ '(' ::
                (['>'] ++ ' ' :: (condition.text.toList ++ ')' :: [])) := by
          simp
        rw [IsOpenLabel, whole, infix_append_cons_iff filled (by decide),
          infix_append_cons_iff filled (by decide), not_or, not_or]
        exact ⟨named, by decide, closed⟩
      · have whole : ("#" ++ scope.nodeName ++ "(" ++ condition.text ++ ")").toList =
            '#' :: scope.nodeName.toList ++ '(' :: (condition.text.toList ++ ')' :: []) := by
          simp
        rw [IsOpenLabel, whole, infix_append_cons_iff filled (by decide), not_or]
        exact ⟨named, closed⟩

end Scope

theorem closes_resolveClause {scope : Option Scope} (named : ∀ s ∈ scope, s.IsNamed)
    {clause : CatchClause} (closed : clause.IsClosed) : (resolveClause scope clause).IsClosed :=
  ⟨closed.parameter, Scope.closes_resolveIn named closed.body⟩

/-! ### Expansions in a style -/

/-- The names that the options and the grammar give to scopes bring no brackets and no quotes. -/
structure ScopeStyle.Suits (style : ScopeStyle) (g : Grammar) : Prop where
  options : style.options.IsInert
  throws : ∀ q ∈ g.productions, ∀ exception ∈ q.throws, isDotted exception.toList = true

section

variable (g : Grammar) (style : ScopeStyle) (p : Production)

theorem units_weaveAction {scope : Option Scope} (braced : ∀ s ∈ scope, s.IsBraced) (atEnd : Bool)
    (level : Nat) {code : String} (closes : Bracket.brace.lexis.Closes 0 code.toList) :
    Units (Piece.written ((weaveAction style scope atEnd code).pieces level)) := by
  have resolved : IsUnitLine ("\x7b" ++ Scope.resolveIn scope code ++ "\x7d") :=
    .action (Scope.closes_resolveIn (fun s mem => (braced s mem).toIsNamed) closes)
  have action : Units (Piece.written
      ((Woven.action (Scope.resolveIn scope code)).pieces level)) := by
    rw [Woven.pieces]
    exact resolved.units level
  unfold weaveAction
  cases scope with
  | none => exact action
  | some scope =>
      dsimp only
      split
      · have closing : ∀ statement ∈ style.closing scope false, statement.IsBraced :=
          ScopeStyle.isBraced_closing (braced scope rfl) false
        have block := Piece.units_block level (Statement.shift_piecesAll closing (level + 1))
        have region : Units (Piece.written
            ((Woven.earlyClose (style.closing scope false)).pieces level)) := by
          rw [Woven.pieces, ← List.singleton_append, Piece.written_append, Piece.written_append]
          exact ((Piece.isGap_regionStart level none nofun).units.append block).append
            (Piece.isGap_regionStop level).units
        rw [Woven.pieces, Woven.piecesAll, Woven.piecesAll, Woven.piecesAll, List.append_nil,
          Piece.written_append]
        exact region.append action
      · exact action

theorem units_weaveSequence {scope : Option Scope} {level : Nat} {units : List Expansion}
    (each : ∀ e ∈ units, ∀ atEnd,
      Units (Piece.written ((g.weaveExpansion style p scope atEnd e).pieces level)))
      (atEnd : Bool) :
    Units (Piece.written (Woven.piecesAll level (g.weaveSequence style p scope atEnd units))) := by
  induction units with
  | nil => exact isGap_nil.units
  | cons e rest ih =>
      rw [List.forall_mem_cons] at each
      cases rest with
      | nil =>
          rw [weaveSequence, Woven.piecesAll, Woven.piecesAll, List.append_nil]
          exact each.1 atEnd
      | cons f rest =>
          rw [weaveSequence, Woven.piecesAll, Piece.written_append]
          · exact (each.1 false).append (ih each.2)
          · exact List.cons_ne_nil f rest

/-- The lines of a choice are those of its alternatives, with bars between them. -/
theorem choices_weaveChoices {scope : Option Scope} {level : Nat} {alternatives : List Expansion}
    (filled : alternatives ≠ []) (atEnd : Bool) (each : ∀ e ∈ alternatives,
      Units (Piece.written ((g.weaveExpansion style p scope atEnd e).pieces level))) :
    Choices (Piece.written
      (Woven.alternativePieces level (g.weaveChoices style p scope atEnd alternatives))) := by
  induction alternatives with
  | nil => exact absurd rfl filled
  | cons e rest ih =>
      rw [List.forall_mem_cons] at each
      cases rest with
      | nil =>
          rw [weaveChoices, weaveChoices, Woven.alternativePieces]
          exact each.1.choices
      | cons f rest =>
          have others := isGap_newline.choices (ih (List.cons_ne_nil f rest) each.2)
          have barred := (each.1.append (isGap_spaces (2 * level)).units).bar others
          have listed : Woven.alternativePieces level
              (g.weaveChoices style p scope atEnd (e :: f :: rest)) =
                (g.weaveExpansion style p scope atEnd e).pieces level ++ [Piece.line level "|"] ++
                  Woven.alternativePieces level
                    (g.weaveChoices style p scope atEnd (f :: rest)) := by
            rw [weaveChoices, weaveChoices, Woven.alternativePieces]
            · simp
            · exact List.cons_ne_nil _ _
          rw [listed, Piece.written_append, Piece.written_append,
            Piece.written_sign (c := '|') rfl rfl]
          simpa using barred

/-- The texts of names that are thrown have no brackets and no quotes. -/
theorem ScopeStyle.Suits.inert_exceptionSet {style : ScopeStyle} {g : Grammar} {p : Production}
    (suits : style.Suits g) (declared : p ∈ g.productions) (e : Expansion) :
    ∀ exception ∈ g.exceptionSet (some p) e, Inert exception :=
  forall_mem_exceptionSet (by decide) declared
    (fun q listed exception mem =>
      (dotted_of_isDotted (suits.throws q listed exception mem)).inert) e

theorem isBraced_of_annotated {style : ScopeStyle} {g : Grammar} (suits : style.Suits g)
    {node : Descriptor} {opened : Scope} {depth : Nat}
    (opens : style.open? (.unit node) depth = some opened)
    (closed : node.isVoid = false → style.Names node.name ∧ node.IsClosed) :
    opened.IsBraced ∧ IsOpenLabel opened.description := by
  have open' : node.isVoid = false := by
    cases void : node.isVoid with
    | false => rfl
    | true => simp [ScopeStyle.open?, Opener.nodeName?, void] at opens
  obtain ⟨named, closed⟩ := closed open'
  have braced : opened.IsBraced := by
    refine ScopeStyle.isBraced_of_open? opens suits.options (fun name found => ?_) closed.closes
    rw [Opener.nodeName?, open'] at found
    cases found
    exact named
  refine ⟨braced, Scope.isOpenLabel_description (dotted_of_isDotted braced.nodeName) ?_⟩
  rw [ScopeStyle.open?_opener opens]
  exact closed.openLabel

mutual
theorem units_of_isBare {e : Expansion} {scope : Option Scope} (suits : style.Suits g)
    (declared : p ∈ g.productions) (braced : ∀ s ∈ scope, s.IsBraced)
    (atEnd : Bool) (level : Nat) : e.IsBare → e.IsClosed style →
      Units (Piece.written ((g.weaveExpansion style p scope atEnd e).pieces level))
  | .lookahead _, closed => by
      rw [weaveExpansion, Woven.pieces]
      exact (IsUnitLine.lookahead closed.here).units level
  | .action _, closed => by
      rw [weaveExpansion]
      exact units_weaveAction style braced atEnd level closed.here
  | @Expansion.IsBare.reference target _ _ _, closed => by
      obtain ⟨targets, identifier, noClause, closes⟩ := closed.here
      rw [weaveExpansion, Woven.pieces]
      refine IsUnitLine.units ?_ level
      cases target with
      | none => exact .reference identifier (noClause rfl) closes
      | some target =>
          refine .assigned (targets target rfl) ?_
          rw [toList_reference]
          exact .reference identifier closes
  | @Expansion.IsBare.terminal target _ _, closed => by
      obtain ⟨targets, is⟩ := closed.here
      rw [weaveExpansion, Woven.pieces]
      refine IsUnitLine.units ?_ level
      cases target with
      | none => exact .terminal is
      | some target => exact .assigned (targets target rfl) (.terminal is)
  | .group whole occurrence, closed => by
      rw [weaveExpansion, Woven.pieces]
      exact Piece.units_group (choices_of_isWhole suits declared braced _ (level + 1) whole
        (closed.inside fun x mem => by rw [Expansion.preorder]; exact List.mem_cons_of_mem _ mem))
        occurrence
  | .optional whole, closed => by
      rw [weaveExpansion, Woven.pieces]
      exact Piece.units_optional (choices_of_isWhole suits declared braced _ (level + 1) whole
        (closed.inside fun x mem => by rw [Expansion.preorder]; exact List.mem_cons_of_mem _ mem))
  | .guarded whole catches finallyCode, closed => by
      obtain ⟨caught, cleaned⟩ := closed.here
      rw [weaveExpansion, Woven.pieces, Woven.clausesText_eq]
      have named : ∀ s ∈ scope, s.IsNamed := fun s mem => (braced s mem).toIsNamed
      refine Piece.units_guarded (choices_of_isWhole suits declared braced _ (level + 1) whole
        (closed.inside fun x mem => by rw [Expansion.preorder]; exact List.mem_cons_of_mem _ mem))
        (Woven.getLast?_clauses _ _) rfl (Woven.isClausesText_clauses ?_ ?_)
      · rw [List.forall_mem_map]
        exact fun c mem => closes_resolveClause named (caught c mem)
      · intro code mem
        obtain ⟨given, listed, rfl⟩ := Option.map_eq_some_iff.mp mem
        exact Scope.closes_resolveIn named (cleaned given listed)

theorem units_of_isUnit {e : Expansion} {scope : Option Scope} (suits : style.Suits g)
    (declared : p ∈ g.productions) (braced : ∀ s ∈ scope, s.IsBraced)
    (atEnd : Bool) (level : Nat) : e.IsUnit → e.IsClosed style →
      Units (Piece.written ((g.weaveExpansion style p scope atEnd e).pieces level))
  | .bare bare, closed => units_of_isBare suits declared braced atEnd level bare closed
  | .annotated bare node, closed => by
      have inside : Expansion.IsClosed style _ :=
        closed.inside fun x mem => by rw [Expansion.preorder]; exact List.mem_cons_of_mem _ mem
      rw [weaveExpansion]
      cases opens : style.open? (.unit node) (Scope.depthInside scope) with
      | none => exact units_of_isBare suits declared braced atEnd level bare inside
      | some opened =>
          obtain ⟨inside', openLabel⟩ := isBraced_of_annotated suits opens closed.here
          refine Woven.units_scope openLabel
            (ScopeStyle.isBraced_opening inside' suits.options.nodeFactory)
            (units_of_isBare suits declared (by rintro _ ⟨⟩; exact inside') true (level + 1)
              bare inside).choices
            inside'.exception ?_ (ScopeStyle.isBraced_cleanup inside')
          exact Scope.isBraced_handler inside' (suits.inert_exceptionSet declared _)

theorem units_of_isAlternative {e : Expansion} {scope : Option Scope} (suits : style.Suits g)
    (declared : p ∈ g.productions) (braced : ∀ s ∈ scope, s.IsBraced) (atEnd : Bool) (level : Nat) :
    e.IsAlternative → e.IsClosed style →
      Units (Piece.written ((g.weaveExpansion style p scope atEnd e).pieces level))
  | .unit unit, closed => units_of_isUnit suits declared braced atEnd level unit closed
  | .sequence _ each, closed => by
      rw [weaveExpansion, Woven.pieces]
      refine units_weaveSequence g style p (fun e mem atEnd => ?_) atEnd
      refine units_of_isUnit suits declared braced atEnd level (each e mem)
        (closed.inside fun x within => ?_)
      rw [Expansion.preorder]
      exact List.mem_cons_of_mem _ (Expansion.mem_preorderAll_of_mem mem within)

theorem choices_of_isWhole {e : Expansion} {scope : Option Scope} (suits : style.Suits g)
    (declared : p ∈ g.productions) (braced : ∀ s ∈ scope, s.IsBraced)
    (atEnd : Bool) (level : Nat) : e.IsWhole → e.IsClosed style →
      Choices (Piece.written ((g.weaveExpansion style p scope atEnd e).pieces level))
  | .alternative alternative, closed =>
      (units_of_isAlternative suits declared braced atEnd level alternative closed).choices
  | .choice several each, closed => by
      rw [weaveExpansion, Woven.pieces]
      refine choices_weaveChoices g style p (fun none => ?_) atEnd fun e mem => ?_
      · rw [none] at several
        exact absurd several (by decide)
      · refine units_of_isAlternative suits declared braced atEnd level (each e mem)
          (closed.inside fun x within => ?_)
        rw [Expansion.preorder]
        exact List.mem_cons_of_mem _ (Expansion.mem_preorderAll_of_mem mem within)
end

end

end NodeWeave
