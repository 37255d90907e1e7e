import NodeWeave.Proofs.Grammar.TokenTexts
import NodeWeave.Proofs.Scope.SelfWord
import NodeWeave.Proofs.Woven.Rendering
import NodeWeave.Woven.Printer

/-!
The names of the variables of a scope are names, and code that is resolved in a scope closes what it
closed before. The one exception are names of variables that read as a reference from their first
character on: what is put in for such a name may be empty, and what stood around the word comes
together.
-/

namespace NodeWeave

open Grammar Grammar.Format Text

/-- All characters of the text may stand in dotted names. -/
def Dotted (text : List Char) : Prop :=
  ∀ c ∈ text, IsDottedChar c

instance (text : List Char) : Decidable (Dotted text) :=
  inferInstanceAs (Decidable (∀ c ∈ text, IsDottedChar c))

theorem dotted_append {text more : List Char} :
    Dotted (text ++ more) ↔ Dotted text ∧ Dotted more :=
  List.forall_mem_append

theorem dotted_of_isDotted {name : List Char} (dotted : isDotted name = true) : Dotted name :=
  fun _ mem => isDottedChar_of_mem dotted mem

theorem IsDottedChar.isInertChar {c : Char} (named : IsDottedChar c) :
    NodeWeave.isInertChar c = true :=
  named.elim (P := fun c => NodeWeave.isInertChar c = true) (by decide)

theorem Dotted.inert {text : String} (dotted : Dotted text.toList) : Inert text :=
  fun c mem => IsDottedChar.isInertChar (dotted c mem)

theorem IsDottedChar.isCalm {c : Char} (named : IsDottedChar c) :
    Bracket.brace.lexis.IsCalm c where
  toIsPlain := IsCode.isPlain_of_isInertChar (IsDottedChar.isInertChar named)
  other := named.elim (P := fun c => c ∉ ['"', '\'', '\\', '/', '*', '\n', '\r']) (by decide)

/-! ### Names of variables -/

namespace VariableNames

/-- The part of a node's name that variables are named for does not begin like a reference. -/
def IsSteady (nodeName : String) : Prop :=
  (JavaName.splitChars nodeName.toList).2.head? ≠ some '$'

instance (nodeName : String) : Decidable (IsSteady nodeName) :=
  inferInstanceAs (Decidable (_ ≠ _))

theorem dotted_digits (n : Nat) : Dotted (toString n).toList := by
  intro c mem
  right
  simp [isNameChar, Char.isAlphanum, isDigit_of_mem_digits mem]

theorem dotted_depthDigits (depth : Nat) : Dotted (depthDigits depth).toList := by
  intro c mem
  right
  simp [isNameChar, Char.isAlphanum, isDigit_of_mem_depthDigits mem]

theorem mem_of_mem_splitChars {name : List Char} {c : Char}
    (mem : c ∈ (JavaName.splitChars name).2) : c ∈ name :=
  List.mem_reverse.mp (List.takeWhile_subset _ (List.mem_reverse.mp mem))

theorem lowerChar_of_isDottedChar {c : Char} (named : IsDottedChar c) :
    lowerChar c = [c.toLower] := by
  rw [lowerChar, if_pos named.small]

theorem isDottedChar_toLower {c : Char} (named : IsDottedChar c) : IsDottedChar c.toLower :=
  named.elim (P := fun c => IsDottedChar c.toLower) (by decide)

theorem dotted_baseName {nodeName : String} (dotted : isDotted nodeName.toList = true) :
    Dotted (baseName nodeName).toList := by
  unfold baseName
  split
  · decide
  · next first rest split_eq =>
      have named : ∀ c ∈ first :: rest, IsDottedChar c := fun c mem =>
        isDottedChar_of_mem dotted (mem_of_mem_splitChars (split_eq ▸ mem))
      rw [List.forall_mem_cons] at named
      rw [String.toList_ofList, lowerChar_of_isDottedChar named.1]
      exact List.forall_mem_cons.mpr ⟨isDottedChar_toLower named.1, named.2⟩

/-- The base begins with a character that begins no reference. -/
theorem exists_baseName {nodeName : String} (dotted : isDotted nodeName.toList = true)
    (steady : IsSteady nodeName) : ∃ c rest, (baseName nodeName).toList = c :: rest ∧ c ≠ '$' := by
  unfold baseName
  unfold IsSteady at steady
  split
  · exact ⟨'n', ['o', 'd', 'e'], by decide, by decide⟩
  · next first rest split_eq =>
      rw [split_eq] at steady
      have named : IsDottedChar first :=
        isDottedChar_of_mem dotted (mem_of_mem_splitChars (split_eq ▸ List.mem_cons_self))
      have other : first ≠ '$' → first.toLower ≠ '$' :=
        named.elim (P := fun c => c ≠ '$' → c.toLower ≠ '$') (by decide)
      rw [String.toList_ofList, lowerChar_of_isDottedChar named]
      exact ⟨first.toLower, rest, rfl, other fun same => steady (by rw [same]; rfl)⟩

end VariableNames

/-- The variables of the scope have names of their own. -/
structure Scope.IsNamed (scope : Scope) : Prop where
  node : Dotted scope.names.node.toList
  flag : Dotted scope.names.flag.toList
  exception : Dotted scope.names.exception.toList
  begins : ∃ c rest, scope.names.node.toList = c :: rest ∧ c ≠ '$'

theorem ScopeStyle.isNamed_of_open? {style : ScopeStyle} {opener : Opener} {depth : Nat}
    {scope : Scope} (opened : style.open? opener depth = some scope)
    (dotted : ∀ name ∈ opener.nodeName? style.options.defaultVoid, isDotted name.toList = true)
    (steady : style.switches.descriptiveNames = true →
      ∀ name ∈ opener.nodeName? style.options.defaultVoid, VariableNames.IsSteady name) :
    scope.IsNamed := by
  simp only [open?, Option.map_eq_some_iff] at opened
  obtain ⟨name, found, rfl⟩ := opened
  have base := VariableNames.dotted_baseName (dotted name found)
  have numbered (front : String) (plain : Dotted front.toList) :
      Dotted (front ++ VariableNames.depthDigits depth).toList := by
    rw [String.toList_append, dotted_append]
    exact ⟨plain, VariableNames.dotted_depthDigits depth⟩
  have suffix : Dotted (if depth = 0 then "" else toString depth).toList := by
    split
    · decide
    · exact VariableNames.dotted_digits depth
  have descriptive (back : String) (plain : Dotted back.toList) :
      Dotted (VariableNames.baseName name ++ (if depth = 0 then "" else toString depth) ++
        back).toList := by
    rw [String.toList_append, String.toList_append, dotted_append, dotted_append]
    exact ⟨⟨base, suffix⟩, plain⟩
  by_cases descriptiveNames : style.switches.descriptiveNames = true
  · refine ⟨?_, ?_, ?_, ?_⟩
    all_goals rw [if_pos descriptiveNames]
    · have plain := descriptive "" (by decide)
      rw [String.append_empty] at plain
      exact plain
    · exact descriptive "NeedsClose" (by decide)
    · exact descriptive "Exception" (by decide)
    · obtain ⟨c, rest, same, other⟩ := VariableNames.exists_baseName (dotted name found)
        (steady descriptiveNames name found)
      refine ⟨c, rest ++ (if depth = 0 then "" else toString depth).toList, ?_, other⟩
      rw [VariableNames.descriptive, String.toList_append, same]
      rfl
  · refine ⟨?_, ?_, ?_, ?_⟩
    all_goals rw [if_neg descriptiveNames]
    · exact numbered "jjtn" (by decide)
    · exact numbered "jjtc" (by decide)
    · exact numbered "jjte" (by decide)
    · exact ⟨'j', _, by rw [VariableNames.numbered, String.toList_append]; rfl, by decide⟩

/-! ### Resolved code -/

namespace Text

theorem mem_partText {matched name : List Char} {c : Char} (mem : c ∈ partText matched name) :
    c ∈ matched := by
  unfold partText at mem
  dsimp only at mem
  split at mem
  · split at mem
    · exact mem
    · cases mem
  · split at mem
    · exact mem
    · cases mem

/-- Expanding references brings in characters of the match only. -/
theorem mem_of_mem_expandParts {matched text : List Char} {bound : Nat} {c : Char}
    (mem : c ∈ expandParts matched bound text) : c ∈ text ∨ c ∈ matched := by
  fun_induction expandParts matched bound text with
  | case1 | case2 => cases mem
  | case3 bound more ih => grind
  | case4 bound more name following split ih =>
      have cut := eq_of_splitFirst? split
      rcases List.mem_append.mp mem with inside | later
      · exact .inr (mem_partText inside)
      · rcases ih later with listed | listed
        · exact .inl (by rw [cut]; simp [listed])
        · exact .inr listed
  | case5 bound more _ ih => grind
  | case6 bound rest _ _ _ ih => grind
  | case7 bound rest _ _ _ ih =>
      split at mem
      · next none => contradiction
      rcases List.mem_append.mp mem with inside | later
      · exact .inr (mem_partText inside)
      · exact (ih later).imp_left fun listed =>
          List.mem_cons_of_mem _ ((List.dropWhile_sublist _).subset listed)
  | case8 bound c rest _ ih => grind

/-- What does not begin like a reference comes out with its first character. -/
theorem expandReplacement_ne_nil {matched rest : List Char} {c : Char} (other : c ≠ '$') :
    expandReplacement matched (c :: rest) ≠ [] := by
  rw [expandReplacement, List.length_cons, expandParts_cons_of_ne other]
  exact List.cons_ne_nil _ _

end Text

namespace Scope

variable {scope : Scope}

/-- What is put in for the word for the current node is a word, too. -/
theorem IsNamed.replacement (named : scope.IsNamed) :
    scope.replacement ≠ [] ∧ Dotted scope.replacement := by
  constructor
  · obtain ⟨c, rest, same, other⟩ := named.begins
    rw [Scope.replacement, same]
    exact expandReplacement_ne_nil other
  · intro c mem
    have word : Dotted selfWord.toList := by decide
    exact (mem_of_mem_expandParts mem).elim (named.node c) (word c)

theorem scan_fill {parting : Parting} {first second : List Char} {s : Lexis.Place × Nat}
    (same : ∀ s, Bracket.brace.lexis.scan s first = Bracket.brace.lexis.scan s second) :
    Bracket.brace.lexis.scan s (parting.fill first) =
      Bracket.brace.lexis.scan s (parting.fill second) := by
  obtain ⟨front, others⟩ := parting
  rw [Parting.fill, Parting.fill, Lexis.scan_append, Lexis.scan_append]
  congr 1
  funext s
  induction others generalizing s with
  | nil => rfl
  | cons part others ih =>
      simp only [List.flatMap_cons, Lexis.scan_append, same]
      congr 1
      funext s
      exact ih s

/-- A scan of code goes the same way once the code is resolved: one word gives way to another
one. -/
theorem IsNamed.scan_resolve (named : scope.IsNamed) (code : String) (s : Lexis.Place × Nat) :
    Bracket.brace.lexis.scan s (scope.resolve code).toList =
      Bracket.brace.lexis.scan s code.toList := by
  obtain ⟨parting, resolves⟩ := scope.exists_resolves code
  obtain ⟨filled, dotted⟩ := named.replacement
  have word : Dotted selfWord.toList := by decide
  have calm {text : List Char} (dotted : Dotted text) : ∀ c ∈ text, Bracket.brace.lexis.IsCalm c :=
    fun c mem => IsDottedChar.isCalm (dotted c mem)
  rw [resolves.resolve_eq, ← resolves.parts.fill_eq]
  refine scan_fill fun s => ?_
  rw [Lexis.scan_of_isCalm rfl filled (calm dotted),
    Lexis.scan_of_isCalm rfl (by decide) (calm word)]

theorem IsNamed.closes_resolve (named : scope.IsNamed) {code : String}
    (closes : Bracket.brace.lexis.Closes 0 code.toList) :
    Bracket.brace.lexis.Closes 0 (scope.resolve code).toList := by
  obtain ⟨place, scanned, rested⟩ := closes
  exact ⟨place, by rw [named.scan_resolve, scanned], rested⟩

theorem closes_resolveIn {scope : Option Scope} (named : ∀ s ∈ scope, s.IsNamed) {code : String}
    (closes : Bracket.brace.lexis.Closes 0 code.toList) :
    Bracket.brace.lexis.Closes 0 (resolveIn scope code).toList := by
  cases scope with
  | none => exact closes
  | some s => exact (named s rfl).closes_resolve closes

end Scope

end NodeWeave

/-! Generated code closes its braces, whatever the names and the condition of its scope. -/

namespace NodeWeave

open Grammar Grammar.Format Text

/-! ### Statements -/

/-- The lines of the statement close all braces that they open. -/
def Statement.IsBraced (statement : Statement) : Prop :=
  ∀ level, Piece.Shift (statement.pieces level) 0 0

namespace Statement

variable {level : Nat}

theorem isBraced_of_code {statement : Statement} (code : IsCode statement.code.toList)
    (simple : ∀ level, statement.pieces level = [.line level statement.code]) :
    statement.IsBraced := by
  intro level
  rw [simple]
  exact Piece.shift_line _ (.of_isCode code)

theorem shift_piecesAll {statements : List Statement}
    (braced : ∀ statement ∈ statements, statement.IsBraced) (level : Nat) :
    Piece.Shift (piecesAll level statements) 0 0 := by
  induction statements with
  | nil => exact .of_isCode .nil
  | cons statement rest ih =>
      rw [List.forall_mem_cons] at braced
      rw [piecesAll]
      exact (braced.1 level).append (ih braced.2)

theorem shift_inside {pieces : List Piece} (braced : Piece.Shift pieces 0 0) :
    Piece.Shift pieces 1 1 :=
  .of_isCode braced.isCode

theorem shifts_head (head : String) (inert : Inert head) : Shifts (head ++ " \x7b").toList 0 1 := by
  have brace : " \x7b".toList = [' '] ++ ['\x7b'] := by decide
  rw [String.toList_append, brace]
  exact (Shifts.of_isCode inert.isCode).append
    ((Shifts.of_isCode (.of_forall (by decide))).append .opening)

theorem shifts_last : Shifts "\x7d".toList 1 0 := .closing

theorem shift_block {head : String} {body : List Piece} (inert : Inert head)
    (braced : Piece.Shift body 0 0) : Piece.Shift (Piece.block level head body) 0 0 := by
  rw [Piece.block, List.cons_append]
  refine .cons (Piece.shift_line _ ?_)
    ((shift_inside braced).append (Piece.shift_line _ shifts_last))
  split
  · exact .opening
  · exact shifts_head _ inert

theorem isBraced_ifFlag {flag : String} {body : List Statement} (inert : Inert flag)
    (braced : ∀ statement ∈ body, statement.IsBraced) : (ifFlag flag body).IsBraced := by
  intro level
  rw [pieces]
  exact shift_block ((Inert.append (by decide) inert).append (by decide))
    (shift_piecesAll braced (level + 1))

theorem shifts_otherwise : Shifts "\x7d else \x7b".toList 1 1 := by
  have whole : "\x7d else \x7b".toList = ['\x7d'] ++ (" else ".toList ++ ['\x7b']) := by decide
  rw [whole]
  exact .append .closing ((Shifts.of_isCode (.of_forall (by decide))).append .opening)

theorem isBraced_ifFlagElse {flag : String} {body otherwise : List Statement} (inert : Inert flag)
    (braced : ∀ statement ∈ body, statement.IsBraced)
    (bracedOtherwise : ∀ statement ∈ otherwise, statement.IsBraced) :
    (ifFlagElse flag body otherwise).IsBraced := by
  intro level
  have head : "if (" ++ flag ++ ") \x7b" = "if (" ++ flag ++ ")" ++ " \x7b" := by
    rw [String.append_assoc, String.append_assoc]
    rfl
  rw [pieces, head]
  have inside : Inert ("if (" ++ flag ++ ")") := (Inert.append (by decide) inert).append (by decide)
  have body := shift_inside (shift_piecesAll braced (level + 1))
  have others := shift_inside (shift_piecesAll bracedOtherwise (level + 1))
  exact ((Piece.Shift.cons (Piece.shift_line _ (shifts_head _ inside)) body).append
    (.cons (Piece.shift_line _ shifts_otherwise) others)).append (Piece.shift_line _ shifts_last)

theorem isBraced_rethrow {exception type : String} (inertException : Inert exception)
    (inertType : Inert type) : (rethrow exception type).IsBraced := by
  intro level
  rw [pieces]
  refine shift_block ?_ (Piece.shift_line _ (.of_isCode (Inert.isCode ?_)))
  · exact ((Inert.append (by decide) inertException).append (by decide) |>.append
      inertType).append (by decide)
  · exact ((Inert.append (by decide) inertType).append (by decide) |>.append
      inertException).append (by decide)

end Statement

/-! ### Statements of a scope -/

/-- What the code of a scope is made of closes its braces. -/
structure Scope.IsBraced (scope : Scope) : Prop extends scope.IsNamed where
  nodeName : isDotted scope.nodeName.toList = true
  variableType : Inert scope.variableType
  condition : ∀ condition ∈ scope.opener.condition?,
    Bracket.brace.lexis.Closes 0 condition.text.toList

namespace Scope

variable {scope : Scope}

theorem isBraced_handler (braced : scope.IsBraced) {exceptions : List String}
    (inert : ∀ type ∈ exceptions, Inert type) :
    ∀ statement ∈ scope.handler exceptions, statement.IsBraced := by
  have node := braced.node.inert
  have flag := braced.flag.inert
  have exception := braced.exception.inert
  intro statement mem
  simp only [handler, List.cons_append, List.mem_cons, List.mem_append, List.mem_map,
    List.not_mem_nil, or_false] at mem
  rcases mem with rfl | ⟨type, listed, rfl⟩ | rfl
  · refine Statement.isBraced_ifFlagElse flag ?_ ?_
    · intro inner listed
      simp only [List.mem_cons, List.not_mem_nil, or_false] at listed
      rcases listed with rfl | rfl
      · exact Statement.isBraced_of_code
          ((Inert.append (by decide) node).append (by decide)).isCode fun _ => rfl
      · exact Statement.isBraced_of_code (flag.append (by decide)).isCode fun _ => rfl
    · intro inner listed
      rw [List.mem_singleton.mp listed]
      exact Statement.isBraced_of_code (Inert.isCode (by decide)) fun _ => rfl
  · exact Statement.isBraced_rethrow exception (inert type listed)
  · exact Statement.isBraced_of_code
      ((Inert.append (by decide) exception).append (by decide)).isCode fun _ => rfl

end Scope

namespace ScopeStyle

variable {style : ScopeStyle} {scope : Scope}

theorem inert_newNode (braced : scope.IsBraced) (factory : Inert style.options.nodeFactory) :
    Inert (style.newNode scope) := by
  have constant : Inert (nodeConstant scope.nodeName) :=
    (dotted_of_isDotted
      (isDotted_of_isIdentifier (isIdentifier_nodeConstant braced.nodeName))).inert
  have type := braced.variableType
  have cast : Inert ("(" ++ scope.variableType ++ ") ") :=
    (Inert.append (by decide) type).append (by decide)
  have arguments : Inert (if style.options.usesParser
      then "(this, " ++ nodeConstant scope.nodeName ++ ")"
      else "(" ++ nodeConstant scope.nodeName ++ ")") := by
    split
    · exact (Inert.append (by decide) constant).append (by decide)
    · exact (Inert.append (by decide) constant).append (by decide)
  unfold newNode
  dsimp only
  split
  · exact (Inert.append (by decide) type).append arguments
  · exact ((cast.append type).append (by decide)).append arguments
  · exact ((cast.append factory).append (by decide)).append arguments

/-- The condition under which a scope keeps its node closes its braces. -/
theorem closes_closeCondition (braced : scope.IsBraced) :
    Bracket.brace.lexis.Closes 0 (style.closeCondition scope).toList := by
  unfold closeCondition
  split
  · exact IsCode.closes (Inert.isCode (by decide))
  · next condition found =>
      have text : Bracket.brace.lexis.Closes 0
          (style.conditionText scope condition.text).toList := by
        unfold conditionText
        split
        · exact braced.closes_resolve (braced.condition condition found)
        · exact braced.condition condition found
      dsimp only
      split
      · obtain ⟨place, scanned, rested⟩ := text
        have arity : IsCode "jjtree.nodeArity() > ".toList := Inert.isCode (by decide)
        exact ⟨place,
          by rw [String.toList_append, Lexis.scan_append_of_eq (arity 0), scanned], rested⟩
      · exact text

theorem isBraced_closeScope (braced : scope.IsBraced) : (style.closeScope scope).IsBraced := by
  have call : Inert ("jjtree.closeNodeScope(" ++ scope.names.node ++ ", ") :=
    (Inert.append (by decide) braced.node.inert).append (by decide)
  have whole : (style.closeScope scope).code.toList =
      ("jjtree.closeNodeScope(" ++ scope.names.node ++ ", ").toList ++
        (((style.closeCondition scope).toList ++ [')']) ++ [';']) := by
    have code : (style.closeScope scope).code = "jjtree.closeNodeScope(" ++ scope.names.node ++
      ", " ++ style.closeCondition scope ++ ");" := rfl
    have closed : ");".toList = [')', ';'] := by decide
    simp [code, closed]
  refine Statement.isBraced_of_code ?_ fun _ => rfl
  rw [whole]
  exact call.isCode.append ((IsCode.of_closes (closes_closeCondition braced) rfl (by decide)).append
    (.of_forall (by decide)))

theorem isBraced_opening (braced : scope.IsBraced) (factory : Inert style.options.nodeFactory) :
    ∀ statement ∈ style.opening scope, statement.IsBraced := by
  have node := braced.node.inert
  have made : (style.makeNode scope).IsBraced :=
    Statement.isBraced_of_code (((braced.variableType.append (by decide)).append node |>.append
      (by decide)).append (inert_newNode braced factory) |>.append (by decide)).isCode
      fun _ => rfl
  have raised : (Statement.raiseFlag scope.names.flag).IsBraced :=
    Statement.isBraced_of_code
      ((Inert.append (by decide) braced.flag.inert).append (by decide)).isCode fun _ => rfl
  have hooked : (Statement.openHook scope.names.node).IsBraced :=
    Statement.isBraced_of_code
      ((Inert.append (by decide) node).append (by decide)).isCode fun _ => rfl
  have tracked : (Statement.firstToken scope.names.node).IsBraced :=
    Statement.isBraced_of_code (node.append (by decide)).isCode fun _ => rfl
  have opened : scope.openCall.IsBraced :=
    Statement.isBraced_of_code
      ((Inert.append (by decide) node).append (by decide)).isCode fun _ => rfl
  intro statement mem
  unfold opening firstToken? openHook? at mem
  grind

theorem isBraced_closing (braced : scope.IsBraced) (final : Bool) :
    ∀ statement ∈ style.closing scope final, statement.IsBraced := by
  have node := braced.node.inert
  have lowered : (Statement.lowerFlag scope.names.flag).IsBraced :=
    Statement.isBraced_of_code (braced.flag.inert.append (by decide)).isCode fun _ => rfl
  have hooked : (Statement.closeHook scope.names.node).IsBraced :=
    Statement.isBraced_of_code
      ((Inert.append (by decide) node).append (by decide)).isCode fun _ => rfl
  have tracked : (Statement.lastToken scope.names.node).IsBraced :=
    Statement.isBraced_of_code (node.append (by decide)).isCode fun _ => rfl
  have closed := @isBraced_closeScope style scope braced
  intro statement mem
  unfold closing lastToken? closeHook? at mem
  grind

theorem isBraced_cleanup (braced : scope.IsBraced) :
    ∀ statement ∈ style.cleanup scope, statement.IsBraced := by
  intro statement mem
  rw [List.mem_singleton.mp mem]
  exact Statement.isBraced_ifFlag braced.flag.inert (isBraced_closing braced true)

end ScopeStyle

/-! ### Options -/

/-- The options that come into generated code. -/
structure Grammar.NodeOptions.IsInert (o : NodeOptions) : Prop where
  nodeClass : Inert o.nodeClass
  nodePrefix : Inert o.nodePrefix
  nodeFactory : Inert o.nodeFactory

/-- The part of a node's name that variables are named for begins no reference, if they are. -/
def ScopeStyle.Names (style : ScopeStyle) (name : String) : Prop :=
  isDotted name.toList = true ∧
    (style.switches.descriptiveNames = true → VariableNames.IsSteady name)

theorem ScopeStyle.isBraced_of_open? {style : ScopeStyle} {opener : Opener} {depth : Nat}
    {scope : Scope} (opened : style.open? opener depth = some scope)
    (inert : style.options.IsInert)
    (names : ∀ name ∈ opener.nodeName? style.options.defaultVoid, style.Names name)
    (condition : ∀ condition ∈ opener.condition?,
      Bracket.brace.lexis.Closes 0 condition.text.toList) : scope.IsBraced := by
  have named := isNamed_of_open? opened (fun name found => (names name found).1)
    fun descriptive name found => (names name found).2 descriptive
  have found := open?_nodeName opened
  have dotted := (names _ found).1
  simp only [open?, Option.map_eq_some_iff] at opened
  obtain ⟨name, -, rfl⟩ := opened
  refine ⟨named, dotted, ?_, condition⟩
  dsimp only
  split
  · exact inert.nodeClass
  · exact inert.nodePrefix.append (dotted_of_isDotted dotted).inert

theorem ScopeStyle.open?_opener {style : ScopeStyle} {opener : Opener} {depth : Nat}
    {scope : Scope} (opened : style.open? opener depth = some scope) : scope.opener = opener := by
  simp only [open?, Option.map_eq_some_iff] at opened
  obtain ⟨name, -, rfl⟩ := opened
  rfl

end NodeWeave
