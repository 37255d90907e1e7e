import NodeWeave.Proofs.Scope.Names
import NodeWeave.Proofs.Woven.Fragment

/-! Generated code holds no marks besides those around it. -/

namespace NodeWeave

open Grammar Mark

/-! ### Texts without slashes -/

theorem SlashFree.isFree {text : String} (plain : SlashFree text) : IsFree text.toList :=
  isFree_of_no_slash plain

theorem SlashFree.append {first second : String} (left : SlashFree first)
    (right : SlashFree second) : SlashFree (first ++ second) := by
  rw [SlashFree, String.toList_append, List.mem_append, not_or]
  exact ⟨left, right⟩

theorem slashFree_ofList {text : List Char} (plain : '/' ∉ text) :
    SlashFree (String.ofList text) := by
  rwa [SlashFree, String.toList_ofList]

theorem slashFree_digits (n : Nat) : SlashFree (toString n) :=
  Text.not_mem_digits (by decide) n

theorem slashFree_int (n : Int) : SlashFree (toString n) := by
  cases n with
  | ofNat n => exact slashFree_digits n
  | negSucc n => exact .append (by decide) (slashFree_digits (n + 1))

/-! ### Names of scopes -/

theorem slashFree_nodeConstant {raw : String} (plain : SlashFree raw) :
    SlashFree (nodeConstant raw) := by
  refine .append (by decide) (slashFree_ofList fun mem => ?_)
  obtain ⟨c, listed, same⟩ := List.mem_map.mp mem
  split at same
  · cases same
  · exact Text.not_mem_upper (by decide) plain (same ▸ listed)

/-- From the names and the condition of a scope no mark arises. -/
structure Scope.IsClean (scope : Scope) : Prop where
  node : SlashFree scope.names.node
  flag : SlashFree scope.names.flag
  exception : SlashFree scope.names.exception
  nodeName : SlashFree scope.nodeName
  variableType : SlashFree scope.variableType
  condition : ∀ condition ∈ scope.opener.condition?,
    IsFree (condition.text ++ ")").toList ∧ IsWordless condition.text

theorem ScopeStyle.isClean_of_open? {style : ScopeStyle} {opener : Opener} {depth : Nat}
    {scope : Scope} (opened : style.open? opener depth = some scope)
    (optionNames : ∀ name ∈ style.options.names, SlashFree name)
    (nodeName : ∀ name ∈ opener.nodeName? style.options.defaultVoid, SlashFree name)
    (condition : ∀ condition ∈ opener.condition?,
      IsFree (condition.text ++ ")").toList ∧ Scope.IsWordless condition.text) :
    scope.IsClean := by
  simp only [open?, Option.map_eq_some_iff] at opened
  obtain ⟨name, found, rfl⟩ := opened
  have named := nodeName name found
  have base : SlashFree (VariableNames.baseName name) :=
    VariableNames.not_mem_baseName (by decide) named
  have numbered : ∀ front : String, SlashFree front →
      SlashFree (front ++ VariableNames.depthDigits depth) := fun front plain =>
    plain.append (VariableNames.not_mem_depthDigits (by decide) depth)
  have descriptive : SlashFree (VariableNames.baseName name ++
      if depth = 0 then "" else toString depth) := by
    refine base.append ?_
    split
    · decide
    · exact slashFree_digits depth
  have classFree : SlashFree style.options.nodeClass :=
    optionNames _ (by simp [NodeOptions.names])
  have prefixFree : SlashFree style.options.nodePrefix :=
    optionNames _ (by simp [NodeOptions.names])
  refine ⟨?_, ?_, ?_, named, ?_, condition⟩
  · dsimp only
    split
    · exact descriptive
    · exact numbered "jjtn" (by decide)
  · dsimp only
    split
    · exact descriptive.append (by decide)
    · exact numbered "jjtc" (by decide)
  · dsimp only
    split
    · exact descriptive.append (by decide)
    · exact numbered "jjte" (by decide)
  · dsimp only
    split
    · exact classFree
    · exact prefixFree.append named

/-! ### Exceptions -/

namespace Grammar

theorem mem_productions_of_mem_reachable {g : Grammar} {visited pending : List String}
    {p : Production} (reached : p ∈ g.reachable visited pending) : p ∈ g.productions := by
  induction visited, pending using reachable.induct g with
  | case1 visited =>
      rw [reachable] at reached
      cases reached
  | case2 visited name pending seen ih =>
      rw [reachable] at reached
      grind
  | case3 visited name pending fresh missing ih =>
      rw [reachable] at reached
      grind
  | case4 visited name pending fresh q declared ih =>
      have listed : q ∈ g.productions := List.mem_of_find?_eq_some declared
      rw [reachable] at reached
      grind

theorem forall_mem_withStandardExceptions {P : String → Prop} {thrown : List String}
    (standard : P runtimeException ∧ P parseException) (each : ∀ exception ∈ thrown, P exception) :
    ∀ exception ∈ withStandardExceptions thrown, P exception := by
  intro exception mem
  rw [withStandardExceptions, List.mem_cons, List.mem_cons, List.mem_filter,
    mem_sortedDistinct] at mem
  rcases mem with rfl | rfl | ⟨listed, _⟩
  · exact standard.1
  · exact standard.2
  · exact each exception listed

theorem forall_mem_exceptionSet {P : String → Prop} {g : Grammar} {p : Production}
    (standard : P runtimeException ∧ P parseException) (declared : p ∈ g.productions)
    (each : ∀ q ∈ g.productions, ∀ exception ∈ q.throws, P exception) (e : Expansion) :
    ∀ exception ∈ g.exceptionSet (some p) e, P exception := by
  refine forall_mem_withStandardExceptions standard fun exception mem => ?_
  rcases List.mem_append.mp mem with own | reached
  · exact each p declared exception own
  · obtain ⟨q, listed, thrown⟩ := List.mem_flatMap.mp reached
    exact each q (mem_productions_of_mem_reachable listed) exception thrown

theorem slashFree_withStandardExceptions {thrown : List String}
    (free : ∀ exception ∈ thrown, SlashFree exception) :
    ∀ exception ∈ withStandardExceptions thrown, SlashFree exception :=
  forall_mem_withStandardExceptions (by decide) free

theorem slashFree_exceptionSet {g : Grammar} {p : Production} (declared : p ∈ g.productions)
    (free : ∀ q ∈ g.productions, ∀ exception ∈ q.throws, SlashFree exception) (e : Expansion) :
    ∀ exception ∈ g.exceptionSet (some p) e, SlashFree exception :=
  forall_mem_exceptionSet (by decide) declared free e

end Grammar

/-! ### Statements -/

def Statement.IsPlain (statement : Statement) : Prop :=
  ∀ level, ∀ piece ∈ statement.pieces level, piece.IsPlain

namespace Statement

theorem isPlain_of_code {statement : Statement} (free : IsFree statement.code.toList)
    (simple : ∀ level, statement.pieces level = [.line level statement.code]) :
    statement.IsPlain := by
  intro level piece mem
  rw [simple, List.mem_singleton] at mem
  rw [mem]
  exact Piece.isPlain_line level free

theorem isPlain_piecesAll {statements : List Statement}
    (plain : ∀ statement ∈ statements, statement.IsPlain) (level : Nat) :
    ∀ piece ∈ piecesAll level statements, piece.IsPlain := by
  induction statements with
  | nil => exact nofun
  | cons statement rest ih =>
      intro piece mem
      rw [piecesAll] at mem
      rcases List.mem_append.mp mem with first | later
      · exact plain statement List.mem_cons_self level piece first
      · exact ih (fun other listed => plain other (List.mem_cons_of_mem _ listed)) piece later

theorem isPlain_block {level : Nat} {head : String} {body : List Piece} (free : SlashFree head)
    (plain : ∀ piece ∈ body, piece.IsPlain) :
    ∀ piece ∈ Piece.block level head body, piece.IsPlain := by
  intro piece mem
  rw [Piece.block, List.cons_append, List.mem_cons, List.mem_append, List.mem_singleton] at mem
  rcases mem with rfl | mem | rfl
  · refine Piece.isPlain_line level (SlashFree.isFree ?_)
    split
    · decide
    · exact free.append (by decide)
  · exact plain piece mem
  · exact Piece.isPlain_line level (SlashFree.isFree (by decide))

theorem isPlain_ifFlag {flag : String} {body : List Statement} (free : SlashFree flag)
    (plain : ∀ statement ∈ body, statement.IsPlain) : (ifFlag flag body).IsPlain := by
  intro level
  rw [pieces]
  refine isPlain_block ?_ (isPlain_piecesAll plain (level + 1))
  exact (SlashFree.append (by decide) free).append (by decide)

theorem isPlain_ifFlagElse {flag : String} {body otherwise : List Statement}
    (free : SlashFree flag) (plain : ∀ statement ∈ body, statement.IsPlain)
    (plainOtherwise : ∀ statement ∈ otherwise, statement.IsPlain) :
    (ifFlagElse flag body otherwise).IsPlain := by
  intro level piece mem
  simp only [pieces, List.cons_append, List.mem_cons, List.mem_append, List.not_mem_nil,
    or_false] at mem
  rcases mem with rfl | (mem | rfl | mem) | rfl
  · refine Piece.isPlain_line level (SlashFree.isFree ?_)
    exact (SlashFree.append (by decide) free).append (by decide)
  · exact isPlain_piecesAll plain (level + 1) piece mem
  · exact Piece.isPlain_line level (SlashFree.isFree (by decide))
  · exact isPlain_piecesAll plainOtherwise (level + 1) piece mem
  · exact Piece.isPlain_line level (SlashFree.isFree (by decide))

theorem isPlain_rethrow {exception type : String} (freeException : SlashFree exception)
    (freeType : SlashFree type) : (rethrow exception type).IsPlain := by
  intro level
  rw [pieces]
  refine isPlain_block ?_ fun piece mem => ?_
  · exact ((SlashFree.append (by decide) freeException |>.append (by decide)).append
      freeType).append (by decide)
  · rw [List.mem_singleton.mp mem]
    refine Piece.isPlain_line (level + 1) (SlashFree.isFree ?_)
    exact ((SlashFree.append (by decide) freeType).append (by decide) |>.append
      freeException).append (by decide)

end Statement

/-! ### Statements of a scope -/

namespace Scope

variable {scope : Scope}

theorem isFree_description (clean : scope.IsClean) : IsFree scope.description.toList := by
  have named : SlashFree ("#" ++ scope.nodeName) := .append (by decide) clean.nodeName
  unfold description
  split
  · exact named.isFree
  · next condition found =>
      have free := (clean.condition condition found).1
      split
      · rw [String.append_assoc, String.toList_append]
        exact free.prepend (named.append (by decide))
      · rw [String.append_assoc, String.toList_append]
        exact free.prepend (named.append (by decide))

theorem isPlain_openCall (clean : scope.IsClean) : scope.openCall.IsPlain :=
  Statement.isPlain_of_code
    ((SlashFree.append (by decide) clean.node).append (by decide)).isFree fun _ => rfl

theorem isPlain_handler (clean : scope.IsClean) {exceptions : List String}
    (free : ∀ type ∈ exceptions, SlashFree type) :
    ∀ statement ∈ scope.handler exceptions, statement.IsPlain := by
  intro statement mem
  simp only [handler, List.cons_append, List.mem_cons, List.mem_append, List.mem_map,
    List.not_mem_nil, or_false] at mem
  rcases mem with rfl | ⟨type, listed, rfl⟩ | rfl
  · refine Statement.isPlain_ifFlagElse clean.flag ?_ ?_
    · intro inner listed
      simp only [List.mem_cons, List.not_mem_nil, or_false] at listed
      rcases listed with rfl | rfl
      · exact Statement.isPlain_of_code
          ((SlashFree.append (by decide) clean.node).append (by decide)).isFree fun _ => rfl
      · exact Statement.isPlain_of_code (clean.flag.append (by decide)).isFree fun _ => rfl
    · intro inner listed
      rw [List.mem_singleton.mp listed]
      exact Statement.isPlain_of_code (SlashFree.isFree (by decide)) fun _ => rfl
  · exact Statement.isPlain_rethrow clean.exception (free type listed)
  · exact Statement.isPlain_of_code
      ((SlashFree.append (by decide) clean.exception).append (by decide)).isFree fun _ => rfl

end Scope

namespace ScopeStyle

variable {style : ScopeStyle} {scope : Scope}

theorem slashFree_newNode (clean : scope.IsClean)
    (factory : SlashFree style.options.nodeFactory) : SlashFree (style.newNode scope) := by
  have constant := slashFree_nodeConstant clean.nodeName
  have type := clean.variableType
  have cast : SlashFree ("(" ++ scope.variableType ++ ") ") :=
    (SlashFree.append (by decide) type).append (by decide)
  have arguments : SlashFree (if style.options.usesParser
      then "(this, " ++ nodeConstant scope.nodeName ++ ")"
      else "(" ++ nodeConstant scope.nodeName ++ ")") := by
    split
    · exact (SlashFree.append (by decide) constant).append (by decide)
    · exact (SlashFree.append (by decide) constant).append (by decide)
  unfold newNode
  dsimp only
  split
  · exact (SlashFree.append (by decide) type).append arguments
  · exact ((cast.append type).append (by decide)).append arguments
  · exact ((cast.append factory).append (by decide)).append arguments

/-- With the parenthesis behind it the condition of a scope holds no mark. -/
theorem isFree_closeCondition (clean : scope.IsClean) :
    IsFree (style.closeCondition scope ++ ")").toList := by
  unfold closeCondition
  split
  · exact SlashFree.isFree (by decide)
  · next condition found =>
      obtain ⟨free, wordless⟩ := clean.condition condition found
      have same : style.conditionText scope condition.text = condition.text := by
        unfold conditionText
        split
        · exact scope.resolve_of_wordless wordless
        · rfl
      rw [same]
      dsimp only
      split
      · rw [String.append_assoc, String.toList_append]
        exact free.prepend (by decide)
      · exact free

theorem isPlain_closeScope (clean : scope.IsClean) : (style.closeScope scope).IsPlain := by
  have call : SlashFree ("jjtree.closeNodeScope(" ++ scope.names.node ++ ", ") :=
    (SlashFree.append (by decide) clean.node).append (by decide)
  have closed : ");".toList = ")".toList ++ [';'] := by decide
  have whole : (style.closeScope scope).code.toList =
      ("jjtree.closeNodeScope(" ++ scope.names.node ++ ", ").toList ++
        ((style.closeCondition scope ++ ")").toList ++ [';']) := by
    have code : (style.closeScope scope).code = "jjtree.closeNodeScope(" ++ scope.names.node ++
      ", " ++ style.closeCondition scope ++ ");" := rfl
    simp only [code, String.toList_append, closed, List.append_assoc]
  refine Statement.isPlain_of_code ?_ fun _ => rfl
  rw [whole]
  exact ((isFree_closeCondition clean).append_separator isFree_nil (by decide)).prepend call

theorem isPlain_opening (clean : scope.IsClean) (factory : SlashFree style.options.nodeFactory) :
    ∀ statement ∈ style.opening scope, statement.IsPlain := by
  have node := clean.node
  have made : (style.makeNode scope).IsPlain :=
    Statement.isPlain_of_code (((clean.variableType.append (by decide)).append node |>.append
      (by decide)).append (slashFree_newNode clean factory) |>.append (by decide)).isFree
      fun _ => rfl
  have raised : (Statement.raiseFlag scope.names.flag).IsPlain :=
    Statement.isPlain_of_code
      ((SlashFree.append (by decide) clean.flag).append (by decide)).isFree fun _ => rfl
  have hooked : (Statement.openHook scope.names.node).IsPlain :=
    Statement.isPlain_of_code
      ((SlashFree.append (by decide) node).append (by decide)).isFree fun _ => rfl
  have tracked : (Statement.firstToken scope.names.node).IsPlain :=
    Statement.isPlain_of_code (node.append (by decide)).isFree fun _ => rfl
  have opened := Scope.isPlain_openCall clean
  intro statement mem
  unfold opening firstToken? openHook? at mem
  grind

theorem isPlain_closing (clean : scope.IsClean) (final : Bool) :
    ∀ statement ∈ style.closing scope final, statement.IsPlain := by
  have node := clean.node
  have lowered : (Statement.lowerFlag scope.names.flag).IsPlain :=
    Statement.isPlain_of_code (clean.flag.append (by decide)).isFree fun _ => rfl
  have hooked : (Statement.closeHook scope.names.node).IsPlain :=
    Statement.isPlain_of_code
      ((SlashFree.append (by decide) node).append (by decide)).isFree fun _ => rfl
  have tracked : (Statement.lastToken scope.names.node).IsPlain :=
    Statement.isPlain_of_code (node.append (by decide)).isFree fun _ => rfl
  have closed := @isPlain_closeScope style scope clean
  intro statement mem
  unfold closing lastToken? closeHook? at mem
  grind

theorem isPlain_cleanup (clean : scope.IsClean) :
    ∀ statement ∈ style.cleanup scope, statement.IsPlain := by
  intro statement mem
  rw [List.mem_singleton.mp mem]
  exact Statement.isPlain_ifFlag clean.flag (isPlain_closing clean true)

end ScopeStyle

end NodeWeave
