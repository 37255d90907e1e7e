import NodeWeave.Proofs.Grammar.TokenTexts

/-!
Texts of units and of what they make up, as the rules of grammar files read them. Main statements:
units one behind the other are read as such, whatever follows that does not go on with the last one;
alternatives with bars between them are read up to the bracket behind them; and no reading of these
texts has a descriptor.
-/

namespace NodeWeave.Grammar

open Peg

/-- No expansion inside has a descriptor. -/
def Expansion.HasNoNodes (e : Expansion) : Prop :=
  ∀ inner node, .annotated inner node ∉ e.preorder

namespace Expansion

variable {units : List Expansion} {e inner : Expansion}

theorem hasNoNodes_all (each : ∀ unit ∈ units, unit.HasNoNodes) (inside : Expansion)
    (node : Descriptor) : .annotated inside node ∉ preorderAll units := by
  induction units with
  | nil => exact nofun
  | cons unit rest ih =>
      rw [List.forall_mem_cons] at each
      rw [preorderAll, List.mem_append, not_or]
      exact ⟨each.1 inside node, ih each.2⟩

theorem hasNoNodes_sequence (each : ∀ unit ∈ units, unit.HasNoNodes) :
    (sequence units).HasNoNodes := by
  intro inside node mem
  rw [preorder, List.mem_cons] at mem
  rcases mem with ⟨⟨⟩⟩ | mem
  exact hasNoNodes_all each inside node mem

theorem hasNoNodes_choice (each : ∀ unit ∈ units, unit.HasNoNodes) : (choice units).HasNoNodes := by
  intro inside node mem
  rw [preorder, List.mem_cons] at mem
  rcases mem with ⟨⟨⟩⟩ | mem
  exact hasNoNodes_all each inside node mem

theorem hasNoNodes_of_preorder (same : e.preorder = e :: inner.preorder) (inside : inner.HasNoNodes)
    (other : ∀ i node, .annotated i node ≠ e) : e.HasNoNodes := by
  intro i node mem
  rw [same, List.mem_cons] at mem
  exact mem.elim (other i node) (inside i node)

end Expansion

namespace Format

open Peg.Expr Peg.Rules Lexis Text

variable {t u v w front text inner : List Char} {c : Char}

/-! ### Rows of trees -/

/-- A single tree from which this is built, without descriptors. -/
def Builds (build : Part → Except Fault Expansion) (trees : List Part) : Prop :=
  ∃ part e, trees = [part] ∧ build part = .ok e ∧ e.HasNoNodes

theorem exists_buildUnits {trees : List Part} (each : Each (Builds buildAnnotated) trees) :
    ∃ es, buildUnits trees = .ok es ∧ ∀ e ∈ es, e.HasNoNodes := by
  obtain ⟨rows, rfl, all⟩ := each
  induction rows with
  | nil => exact ⟨[], rfl, nofun⟩
  | cons row rows ih =>
      rw [List.forall_mem_cons] at all
      obtain ⟨part, e, rfl, built, plain⟩ := all.1
      obtain ⟨es, builtRest, each⟩ := ih all.2
      refine ⟨e :: es, ?_, List.forall_mem_cons.mpr ⟨plain, each⟩⟩
      rw [List.flatten_cons, List.singleton_append, buildUnits, built, builtRest]
      rfl

theorem exists_buildSequences {trees : List Part} (each : Each (Builds buildSequence) trees) :
    ∃ es, buildSequences trees = .ok es ∧ ∀ e ∈ es, e.HasNoNodes := by
  obtain ⟨rows, rfl, all⟩ := each
  induction rows with
  | nil => exact ⟨[], rfl, nofun⟩
  | cons row rows ih =>
      rw [List.forall_mem_cons] at all
      obtain ⟨part, e, rfl, built, plain⟩ := all.1
      obtain ⟨es, builtRest, each⟩ := ih all.2
      refine ⟨e :: es, ?_, List.forall_mem_cons.mpr ⟨plain, each⟩⟩
      rw [List.flatten_cons, List.singleton_append, buildSequences, built, builtRest]
      rfl

/-! ### Units -/

/-- What stands here does not go on with a unit in front of it. -/
structure Follows (t : List Char) : Prop where
  solid : Solid t
  noOccurrence : Rejects (.rule .occurrence) t
  noDescriptor : Rejects (.rule .nodeDescriptor) t
  noCatch : Rejects (.rule .catchClause) t
  noFinally : Rejects (.rule .finallyClause) t

theorem rejects_word (o : Char) {w : String} (begins : w.toList.head? = some o)
    (other : t.head? ≠ some o) : Rejects (word w) t := by
  refine .text ?_
  rintro ⟨more, rfl⟩
  obtain ⟨behind, same⟩ := List.head?_eq_some_iff.mp begins
  rw [same] at other
  exact other rfl

theorem rejects_catchClause (other : t.head? ≠ some 'c') : Rejects (.rule .catchClause) t :=
  rejects_rule rfl (.seq (rejects_word 'c' rfl other))

theorem rejects_finallyClause (other : t.head? ≠ some 'f') : Rejects (.rule .finallyClause) t :=
  rejects_rule rfl (.seq (rejects_word 'f' rfl other))

theorem rejects_nodeDescriptor (other : t.head? ≠ some '#') :
    Rejects (.rule .nodeDescriptor) t := by
  refine .rule (.seq (.text ?_))
  rintro ⟨more, rfl⟩
  exact other rfl

theorem rejects_occurrence (other : ∀ c ∈ t.head?, c ∉ ['?', '*', '+']) :
    Rejects (.rule .occurrence) t := by
  have apart (o : Char) (listed : o ∈ ['?', '*', '+']) : t.head? ≠ some o :=
    fun same => other o same listed
  exact rejects_token rfl (.alt (refuses_word '?' rfl (apart '?' (by simp)))
    (.alt (refuses_word '*' rfl (apart '*' (by simp)))
      (refuses_word '+' rfl (apart '+' (by simp)))))

theorem follows_of_head (solid : Solid t)
    (other : ∀ c ∈ t.head?, c ∉ ['?', '*', '+', '#', 'c', 'f']) : Follows t where
  solid := solid
  noOccurrence := rejects_occurrence fun c first listed =>
    other c first (by simp at listed ⊢; tauto)
  noDescriptor := rejects_nodeDescriptor fun same => other '#' same (by simp)
  noCatch := rejects_catchClause fun same => other 'c' same (by simp)
  noFinally := rejects_finallyClause fun same => other 'f' same (by simp)

/-- Blanks and comments, whatever stands behind them. -/
def IsGap (text : List Char) : Prop :=
  ∀ ⦃u v : List Char⦄, Skipped u v → Skipped (text ++ u) v

theorem IsGap.append {more : List Char} (first : IsGap text) (second : IsGap more) :
    IsGap (text ++ more) := by
  intro u v skipped
  rw [List.append_assoc]
  exact first (second skipped)

theorem isGap_nil : IsGap [] := fun _ _ skipped => skipped

theorem isGap_blanks (blank : ∀ c ∈ text, isGapChar c = true) : IsGap text := by
  intro u v skipped
  induction text with
  | nil => exact skipped
  | cons c rest ih =>
      rw [List.forall_mem_cons] at blank
      exact .blank blank.1 (ih blank.2)

def Units (text : List Char) : Prop :=
  ∀ ⦃u v w : List Char⦄, Skipped u v → Follows v →
    Repeats (.rule .scopedUnit) (Builds buildAnnotated) v w →
      ∃ t, Skipped (text ++ u) t ∧ Follows t ∧
        Repeats (.rule .scopedUnit) (Builds buildAnnotated) t w

theorem IsGap.units (gap : IsGap text) : Units text :=
  fun _ _ _ skipped follows repeats => ⟨_, gap skipped, follows, repeats⟩

theorem Units.append {more : List Char} (first : Units text) (second : Units more) :
    Units (text ++ more) := by
  intro u v w skipped follows repeats
  obtain ⟨t, skippedSecond, followsSecond, repeatsSecond⟩ := second skipped follows repeats
  rw [List.append_assoc]
  exact first skippedSecond followsSecond repeatsSecond

def IsUnitText (text : List Char) : Prop :=
  ∀ ⦃u v : List Char⦄, Skipped u v → Follows v →
    Follows (text ++ u) ∧ Gets expansionUnit (text ++ u) v (Builds buildUnit)

theorem IsUnitText.units (is : IsUnitText text) : Units text := by
  intro u v w skipped follows repeats
  obtain ⟨followsFirst, gets⟩ := is skipped follows
  refine ⟨_, .here followsFirst.solid, followsFirst, .next ?_ repeats⟩
  have whole := Gets.seq gets (.noOpt follows.solid follows.noDescriptor)
  refine (Gets.rule .scopedUnit rfl whole).imp ?_
  rintro _ ⟨front, start, stop, _, rfl, _, _, rfl, ⟨part, e, rfl, built, plain⟩, rfl⟩
  refine ⟨_, e, rfl, ?_, plain⟩
  rw [List.append_nil, buildAnnotated, built]
  rfl

theorem gets_expansionSequence
    (repeats : Repeats (.rule .scopedUnit) (Builds buildAnnotated) t v) :
    Gets (.rule .expansionSequence) t v (Builds buildSequence) := by
  refine (Gets.rule .expansionSequence rfl repeats.star).imp ?_
  rintro _ ⟨front, start, stop, trees, rfl, each⟩
  obtain ⟨es, built, plain⟩ := exists_buildUnits each
  match es, built, plain with
  | [only], built, plain =>
      exact ⟨_, only, rfl, by rw [buildSequence, built]; rfl,
        plain only (List.mem_singleton_self _)⟩
  | [], built, plain | _ :: _ :: _, built, plain =>
      exact ⟨_, _, rfl, by rw [buildSequence, built]; rfl, Expansion.hasNoNodes_sequence plain⟩

/-! ### Alternatives -/

def Ends (t : List Char) : Prop :=
  ∃ c rest, t = c :: rest ∧ c ∈ [')', ']', '\x7d']

/-- The first characters with which a unit may begin, apart from names. -/
theorem rejects_scopedUnit (solid : Solid t) (noName : ∀ c ∈ t.head?, isNameStart c = false)
    (other : ∀ c ∈ t.head?, c ∉ ['\x7b', '(', '[', '"', '<']) : Rejects (.rule .scopedUnit) t := by
  have apart (o : Char) (listed : o ∈ ['\x7b', '(', '[', '"', '<']) : t.head? ≠ some o :=
    fun same => other o same listed
  have noLetter (o : Char) (letter : isNameStart o = true) : t.head? ≠ some o := by
    intro same
    have := noName o same
    rw [letter] at this
    cases this
  have noLookahead : Rejects (.rule .localLookahead) t :=
    rejects_token rfl (.seq (refuses_word 'L' rfl (noLetter 'L' rfl)))
  have noBlock : Rejects (.rule .javaBlock) t := .rule (.seq (.text (by
    rintro ⟨more, rfl⟩
    exact apart '\x7b' (by simp) rfl)))
  have noAction : Rejects (.rule .action) t := rejects_rule rfl noBlock
  have noTry : Rejects (.rule .tryUnit) t :=
    rejects_rule rfl (.seq (rejects_word 't' rfl (noLetter 't' rfl)))
  have noParen : Rejects (.rule .parenUnit) t :=
    rejects_rule rfl (.seq (rejects_word '(' rfl (apart '(' (by simp))))
  have noOptional : Rejects (.rule .optionalUnit) t :=
    rejects_rule rfl (.seq (rejects_word '[' rfl (apart '[' (by simp))))
  have noLhs : Rejects (.rule .lhs) t :=
    rejects_token rfl (.seq (.rule (refuses_qualifiedName noName)))
  have noTerminal : Rejects (.rule .terminal) t :=
    rejects_token rfl (.alt (refuses_literal .double (apart '"' (by simp)))
      (.seq (refuses_word '<' rfl (apart '<' (by simp)))))
  have noNonterminal : Rejects (.rule .nonterminal) t :=
    rejects_rule rfl (.seq (rejects_token rfl (.seq (.one noName))))
  have noAssigned : Rejects (.rule .assignedUnit) t :=
    rejects_rule rfl (rejects_seq (.noOpt solid (.seq noLhs)) (.alt noTerminal noNonterminal))
  exact rejects_rule rfl (.seq (.alt noLookahead (.alt noAction (.alt noTry (.alt noParen
    (.alt noOptional noAssigned))))))

/-- A bar, or a bracket that closes, ends a row of units. -/
theorem follows_of_end (listed : c ∈ ['|', ')', ']', '\x7d']) :
    Follows (c :: t) ∧ Rejects (.rule .scopedUnit) (c :: t) := by
  have signs : ∀ d ∈ ['|', ')', ']', '\x7d'], isGapChar d = false ∧ d ≠ '/' ∧
      d ∉ ['?', '*', '+', '#', 'c', 'f'] ∧ isNameStart d = false ∧
        d ∉ ['\x7b', '(', '[', '"', '<'] := by decide
  obtain ⟨noGap, noSlash, noFollow, noName, noBracket⟩ := signs c listed
  have solid : Solid (c :: t) := solid_cons noGap noSlash
  refine ⟨follows_of_head solid ?_, rejects_scopedUnit solid ?_ ?_⟩
  all_goals
    rintro _ ⟨⟩
    assumption

/-- The text is read as alternatives, up to the bracket that closes behind it. -/
def Choices (text : List Char) : Prop :=
  ∀ ⦃u v : List Char⦄, Skipped u v → Ends v → ∃ t m, Skipped (text ++ u) t ∧
    Gets (.rule .expansionSequence) t m (Builds buildSequence) ∧
      Repeats (word "|" >> .rule .expansionSequence) (Builds buildSequence) m v

theorem Ends.follows (ends : Ends v) : Follows v ∧ Rejects (.rule .scopedUnit) v := by
  obtain ⟨c, rest, rfl, listed⟩ := ends
  exact follows_of_end (List.mem_cons_of_mem '|' listed)

theorem Ends.rejects_bar (ends : Ends v) : Rejects (word "|" >> .rule .expansionSequence) v := by
  obtain ⟨c, rest, rfl, listed⟩ := ends
  refine .seq (rejects_word '|' rfl ?_)
  rintro ⟨⟩
  simp at listed

theorem Units.choices (units : Units text) : Choices text := by
  intro u v skipped ends
  obtain ⟨follows, rejected⟩ := ends.follows
  obtain ⟨t, skippedText, -, repeats⟩ := units skipped follows (.stop follows.solid rejected)
  exact ⟨t, v, skippedText, gets_expansionSequence repeats, .stop follows.solid ends.rejects_bar⟩

theorem Units.bar {more : List Char} (units : Units text) (choices : Choices more) :
    Choices (text ++ '|' :: more) := by
  intro u v skipped ends
  obtain ⟨t, m, skippedMore, gets, repeats⟩ := choices skipped ends
  have bar : Skipped ('|' :: (more ++ u)) ('|' :: (more ++ u)) := .here (solid_cons rfl (by decide))
  obtain ⟨follows, rejected⟩ := follows_of_end (t := more ++ u) (c := '|') (by simp)
  obtain ⟨s, skippedText, -, repeatsUnits⟩ := units bar follows (.stop follows.solid rejected)
  refine ⟨s, _, by simpa using skippedText, gets_expansionSequence repeatsUnits, .next ?_ repeats⟩
  refine (Gets.seq ((passes_word "|").gets skippedMore) gets).imp ?_
  rintro _ ⟨_, _, rfl, rfl, built⟩
  exact built

theorem IsGap.choices {gap : List Char} (isGap : IsGap gap) (choices : Choices text) :
    Choices (gap ++ text) := by
  intro u v skipped ends
  obtain ⟨t, m, skippedText, read⟩ := choices skipped ends
  exact ⟨t, m, by rw [List.append_assoc]; exact isGap skippedText, read⟩

theorem Choices.append_gap {gap : List Char} (choices : Choices text) (isGap : IsGap gap) :
    Choices (text ++ gap) := by
  intro u v skipped ends
  obtain ⟨t, m, skippedText, read⟩ := choices (isGap skipped) ends
  exact ⟨t, m, by rwa [List.append_assoc], read⟩

theorem Choices.exists_gets (choices : Choices text) (skipped : Skipped u v) (ends : Ends v) :
    ∃ t, Skipped (text ++ u) t ∧ Gets (.rule .expansionChoices) t v (Builds buildChoices) := by
  obtain ⟨t, m, skippedText, gets, repeats⟩ := choices skipped ends
  refine ⟨t, skippedText, ?_⟩
  refine (Gets.rule .expansionChoices rfl (gets.seq repeats.star)).imp ?_
  rintro _ ⟨front, start, stop, _, rfl, first, others, rfl, ⟨part, e, rfl, built, plain⟩, each⟩
  have whole : Each (Builds buildSequence) ([part] ++ others) :=
    each.cons ⟨part, e, rfl, built, plain⟩
  obtain ⟨es, builtAll, plainAll⟩ := exists_buildSequences whole
  match es, builtAll, plainAll with
  | [only], built, plain =>
      exact ⟨_, only, rfl, by rw [buildChoices, built]; rfl, plain only (List.mem_singleton_self _)⟩
  | [], built, plain | _ :: _ :: _, built, plain =>
      exact ⟨_, _, rfl, by rw [buildChoices, built]; rfl, Expansion.hasNoNodes_choice plain⟩

end Format

end NodeWeave.Grammar

/-!
## Kinds of units

The kinds of units, and the texts that are read as one of them: actions, lookaheads, groups,
optional and guarded units, references and terminals. What stands in the brackets of a unit is
whatever is read as alternatives.
-/

namespace NodeWeave.Grammar.Format

open Peg Peg.Expr Peg.Rules Lexis Text

variable {t u v front text inner : List Char} {c : Char}

/-! ### Rejected kinds -/

theorem head?_append_of_head? {begin : Char} (begins : text.head? = some begin) (u : List Char) :
    (text ++ u).head? = some begin := by
  obtain ⟨rest, rfl⟩ := List.head?_eq_some_iff.mp begins
  rfl

theorem rejects_localLookahead (other : t.head? ≠ some 'L') : Rejects (.rule .localLookahead) t :=
  rejects_token rfl (.seq (refuses_word 'L' rfl other))

theorem rejects_javaBlock (other : t.head? ≠ some '\x7b') : Rejects (.rule .javaBlock) t := by
  refine .rule (.seq (.text ?_))
  rintro ⟨more, rfl⟩
  exact other rfl

theorem rejects_action (other : t.head? ≠ some '\x7b') : Rejects (.rule .action) t :=
  rejects_rule rfl (rejects_javaBlock other)

theorem rejects_tryUnit (other : t.head? ≠ some 't') : Rejects (.rule .tryUnit) t :=
  rejects_rule rfl (.seq (rejects_word 't' rfl other))

theorem rejects_parenUnit (other : t.head? ≠ some '(') : Rejects (.rule .parenUnit) t :=
  rejects_rule rfl (.seq (rejects_word '(' rfl other))

theorem rejects_optionalUnit (other : t.head? ≠ some '[') : Rejects (.rule .optionalUnit) t :=
  rejects_rule rfl (.seq (rejects_word '[' rfl other))

/-! ### Actions and lookaheads -/

theorem isUnitText_action (closes : Bracket.brace.lexis.Closes 0 inner) :
    IsUnitText ('\x7b' :: inner ++ ['\x7d']) := by
  intro u v skipped follows
  have whole : '\x7b' :: inner ++ ['\x7d'] ++ u = '\x7b' :: inner ++ '\x7d' :: u := by simp
  rw [whole]
  have solid : Solid ('\x7b' :: inner ++ '\x7d' :: u) := solid_cons rfl (by decide)
  refine ⟨follows_of_head solid (by rintro _ ⟨⟩; decide),
    .altSecond (rejects_localLookahead (by simp)) (.altFirst ?_)⟩
  have block := (passes_javaBlock (u := u) closes).gets skipped
  refine (Gets.rule .action rfl block).imp ?_
  rintro _ ⟨front, start, stop, _, rfl, part, rfl, -, -⟩
  refine ⟨_, .action part.blockText, rfl, rfl, ?_⟩
  rintro _ _ ⟨⟩
  contradiction

theorem hasNoNodes_of_preorder_eq {e : Expansion} (alone : e.preorder = [e])
    (other : ∀ i node, .annotated i node ≠ e) : e.HasNoNodes := by
  intro i node mem
  rw [alone, List.mem_singleton] at mem
  exact other i node mem

theorem isUnitText_lookahead (is : IsLookahead text) : IsUnitText text := by
  intro u v skipped follows
  have passes := (passes_token .localLookahead rfl (takes_lookahead (u := u) is)).gets skipped
  obtain ⟨gap, inner, rfl, -, -⟩ := is
  refine ⟨follows_of_head (solid_cons rfl (by decide)) (by rintro _ ⟨⟩; decide), .altFirst ?_⟩
  refine passes.imp ?_
  rintro _ ⟨start, stop, _, rfl, rfl⟩
  exact ⟨_, _, rfl, by rw [buildUnit], hasNoNodes_of_preorder_eq rfl fun _ _ same => by cases same⟩

/-! ### Brackets -/

/-- How often a group is taken, if the text says so, behind its closing parenthesis. -/
theorem gets_occurrence (occurrence : Option Occurrence) (skipped : Skipped u v)
    (follows : Follows v) :
    ∃ w, Skipped (((occurrence.map Occurrence.symbol).getD "").toList ++ u) w ∧
      Gets (.opt (.rule .occurrence)) w v fun _ => True := by
  have single (c : Char) (solid : Solid (c :: u)) (taken : Takes (Format.body .occurrence) [c] u) :
      ∃ w, Skipped (c :: u) w ∧ Gets (.opt (.rule .occurrence)) w v fun _ => True :=
    ⟨_, .here solid, .opt (((passes_token .occurrence rfl taken).gets skipped).imp
      fun _ _ => trivial)⟩
  have other {c o : Char} (apart : c ≠ o) : ([c] ++ u).head? ≠ some o := by simpa using apart
  cases occurrence with
  | none =>
      exact ⟨v, skipped, (Gets.noOpt follows.solid follows.noOccurrence).imp fun _ _ => trivial⟩
  | some occurrence =>
      cases occurrence with
      | optional => exact single '?' (solid_cons rfl (by decide)) (.altFirst .text)
      | many =>
          exact single '*' (solid_cons rfl (by decide))
            (.altSecond (refuses_word '?' rfl (other (by decide))) (.altFirst .text))
      | some =>
          exact single '+' (solid_cons rfl (by decide))
            (.altSecond (refuses_word '?' rfl (other (by decide)))
              (.altSecond (refuses_word '*' rfl (other (by decide))) .text))

theorem isUnitText_group (choices : Choices inner) (occurrence : Option Occurrence) :
    IsUnitText ('(' :: inner ++ ')' :: ((occurrence.map Occurrence.symbol).getD "").toList) := by
  intro u v skipped follows
  obtain ⟨w, skippedOccurrence, often⟩ := gets_occurrence occurrence skipped follows
  generalize ((occurrence.map Occurrence.symbol).getD "").toList = symbol at skippedOccurrence ⊢
  have whole : '(' :: inner ++ ')' :: symbol ++ u = '(' :: (inner ++ ')' :: (symbol ++ u)) := by
    simp
  rw [whole]
  have solid : Solid ('(' :: (inner ++ ')' :: (symbol ++ u))) := solid_cons rfl (by decide)
  obtain ⟨t, skippedText, gets⟩ :=
    choices.exists_gets (.here (solid_cons rfl (by decide))) ⟨')', symbol ++ u, rfl, by simp⟩
  refine ⟨follows_of_head solid (by rintro _ ⟨⟩; decide),
    .altSecond (rejects_localLookahead (by simp)) (.altSecond (rejects_action (by simp))
      (.altSecond (rejects_tryUnit (by simp)) (.altFirst ?_)))⟩
  have row := Gets.seq ((passes_word "(").gets skippedText)
    (gets.seq (((passes_word ")").gets skippedOccurrence).seq often))
  refine (Gets.rule .parenUnit rfl row).imp ?_
  rintro _ ⟨front, start, stop, _, rfl, _, _, rfl, rfl, _, _, rfl, ⟨part, e, rfl, built, plain⟩,
    _, others, rfl, rfl, -⟩
  refine ⟨_, .group e (buildOccurrence others), rfl, ?_, ?_⟩
  · rw [List.nil_append, List.nil_append, List.singleton_append, buildUnit, built]
    rfl
  · exact Expansion.hasNoNodes_of_preorder rfl plain fun _ _ same => by cases same

theorem isUnitText_optional (choices : Choices inner) : IsUnitText ('[' :: inner ++ [']']) := by
  intro u v skipped follows
  have whole : '[' :: inner ++ [']'] ++ u = '[' :: (inner ++ ']' :: u) := by simp
  rw [whole]
  have solid : Solid ('[' :: (inner ++ ']' :: u)) := solid_cons rfl (by decide)
  have closing : Skipped (']' :: u) (']' :: u) := .here (solid_cons rfl (by decide))
  obtain ⟨t, skippedText, gets⟩ := choices.exists_gets closing ⟨']', u, rfl, by simp⟩
  refine ⟨follows_of_head solid (by rintro _ ⟨⟩; decide),
    .altSecond (rejects_localLookahead (by simp)) (.altSecond (rejects_action (by simp))
      (.altSecond (rejects_tryUnit (by simp)) (.altSecond (rejects_parenUnit (by simp))
        (.altFirst ?_))))⟩
  have row := Gets.seq ((passes_word "[").gets skippedText)
    (gets.seq ((passes_word "]").gets skipped))
  refine (Gets.rule .optionalUnit rfl row).imp ?_
  rintro _ ⟨front, start, stop, _, rfl, _, _, rfl, rfl, _, _, rfl,
    ⟨part, e, rfl, built, plain⟩, rfl⟩
  refine ⟨_, .optional e, rfl, ?_, ?_⟩
  · rw [List.nil_append, List.append_nil, buildUnit, built]
    rfl
  · exact Expansion.hasNoNodes_of_preorder rfl plain fun _ _ same => by cases same

/-! ### Guarded units -/

/-- The trees are of clauses, whatever clauses stand behind them. -/
def Clauses (trees : List Part) : Prop :=
  ∀ ⦃rest : List Part⦄, (∃ clauses, buildClauses rest = .ok clauses) →
    ∃ clauses, buildClauses (trees ++ rest) = .ok clauses

theorem clauses_of_each {trees : List Part} (each : Each Clauses trees) : Clauses trees := by
  obtain ⟨rows, rfl, all⟩ := each
  intro rest built
  induction rows with
  | nil => exact built
  | cons row rows ih =>
      rw [List.forall_mem_cons] at all
      rw [List.flatten_cons, List.append_assoc]
      exact all.1 (ih all.2)

/-- The text is read as the clauses of a guarded unit. -/
def IsClausesText (text : List Char) : Prop :=
  ∀ ⦃u v : List Char⦄, Skipped u v → Follows v → ∃ t m, Skipped (text ++ u) t ∧
    Repeats (.rule .catchClause) Clauses t m ∧ Gets (.opt (.rule .finallyClause)) m v Clauses

theorem isClausesText_nil : IsClausesText [] := by
  intro u v skipped follows
  refine ⟨v, v, skipped, .stop follows.solid follows.noCatch,
    (Gets.noOpt follows.solid follows.noFinally).imp ?_⟩
  rintro _ rfl _ built
  exact built

theorem passes_catchClause {parameter block : List Char}
    (parameters : Bracket.paren.lexis.Closes 0 parameter)
    (code : Bracket.brace.lexis.Closes 0 block) (skipped : Skipped u v) :
    Gets (.rule .catchClause)
      ("catch (".toList ++ parameter ++ ") \x7b".toList ++ block ++ '\x7d' :: u) v Clauses := by
  have whole : "catch (".toList ++ parameter ++ ") \x7b".toList ++ block ++ '\x7d' :: u =
      "catch".toList ++ (' ' :: '(' :: (parameter ++ ')' :: ' ' ::
          ('\x7b' :: block ++ '\x7d' :: u))) := by
    simp
  rw [whole]
  have opening : Skipped ('(' :: (parameter ++ ')' :: ' ' :: ('\x7b' :: block ++ '\x7d' :: u))) _ :=
    .here (solid_cons rfl (by decide))
  have closing : Skipped (')' :: ' ' :: ('\x7b' :: block ++ '\x7d' :: u)) _ :=
    .here (solid_cons rfl (by decide))
  have braces : Skipped ('\x7b' :: block ++ '\x7d' :: u) _ := .here (solid_cons rfl (by decide))
  obtain ⟨t, skippedContent, content⟩ :=
    passes_parenContent (u := ' ' :: ('\x7b' :: block ++ '\x7d' :: u)) parameters
  have row := ((passes_word "catch").gets (.space opening)).seq
    (((passes_word "(").gets skippedContent).seq ((content.gets closing).seq
      (((passes_word ")").gets (.space braces)).seq ((passes_javaBlock code).gets skipped))))
  refine (Gets.rule .catchClause rfl row).imp ?_
  rintro _ ⟨front, start, stop, _, rfl, _, _, rfl, rfl, _, _, rfl, rfl, _, _, rfl,
    ⟨content, _, _, _, rfl, rfl⟩, _, _, rfl, rfl, part, rfl, -, -⟩ rest ⟨clauses, built⟩
  rw [List.singleton_append, buildClauses, built]
  exact ⟨_, rfl⟩

theorem passes_finallyClause {block : List Char} (code : Bracket.brace.lexis.Closes 0 block)
    (skipped : Skipped u v) :
    Gets (.rule .finallyClause) ("finally \x7b".toList ++ block ++ '\x7d' :: u) v Clauses := by
  have whole : "finally \x7b".toList ++ block ++ '\x7d' :: u =
      "finally".toList ++ (' ' :: ('\x7b' :: block ++ '\x7d' :: u)) := by simp
  rw [whole]
  have braces : Skipped ('\x7b' :: block ++ '\x7d' :: u) _ := .here (solid_cons rfl (by decide))
  have row := ((passes_word "finally").gets (.space braces)).seq
    ((passes_javaBlock code).gets skipped)
  refine (Gets.rule .finallyClause rfl row).imp ?_
  rintro _ ⟨front, start, stop, _, rfl, _, _, rfl, rfl, part, rfl, -, -⟩ rest ⟨clauses, built⟩
  rw [List.singleton_append, buildClauses, built]
  exact ⟨_, rfl⟩

theorem isClausesText_finally {block : List Char} (code : Bracket.brace.lexis.Closes 0 block) :
    IsClausesText (" finally \x7b".toList ++ block ++ ['\x7d']) := by
  intro u v skipped follows
  have solid : Solid ("finally \x7b".toList ++ block ++ '\x7d' :: u) :=
    solid_cons rfl (by decide)
  have noCatch : Rejects (.rule .catchClause) ("finally \x7b".toList ++ block ++ '\x7d' :: u) :=
    rejects_catchClause (by simp)
  refine ⟨_, _, ?_, .stop solid noCatch, (passes_finallyClause code skipped).opt⟩
  simpa using Skipped.space (.here solid)

theorem IsClausesText.catch {parameter block text : List Char}
    (parameters : Bracket.paren.lexis.Closes 0 parameter)
    (code : Bracket.brace.lexis.Closes 0 block) (clauses : IsClausesText text) :
    IsClausesText
      (" catch (".toList ++ parameter ++ ") \x7b".toList ++ block ++ '\x7d' :: text) := by
  intro u v skipped follows
  obtain ⟨t, m, skippedText, repeats, gets⟩ := clauses skipped follows
  have solid : Solid ("catch (".toList ++ parameter ++ ") \x7b".toList ++ block ++
      '\x7d' :: (text ++ u)) := solid_cons rfl (by decide)
  refine ⟨_, m, ?_, .next (passes_catchClause parameters code skippedText) repeats, gets⟩
  simpa using Skipped.space (.here solid)

theorem isUnitText_guarded {clauses : List Char} (choices : Choices inner)
    (are : IsClausesText clauses) :
    IsUnitText ("try \x7b".toList ++ inner ++ '\x7d' :: clauses) := by
  intro u v skipped follows
  obtain ⟨w, m, skippedClauses, repeats, last⟩ := are skipped follows
  have closing : Skipped ('\x7d' :: (clauses ++ u)) _ := .here (solid_cons rfl (by decide))
  obtain ⟨t, skippedText, gets⟩ := choices.exists_gets closing ⟨'\x7d', clauses ++ u, rfl, by simp⟩
  have braces : Skipped ('\x7b' :: (inner ++ '\x7d' :: (clauses ++ u))) _ :=
    .here (solid_cons rfl (by decide))
  have whole : "try \x7b".toList ++ inner ++ '\x7d' :: clauses ++ u =
      "try".toList ++ (' ' :: '\x7b' :: (inner ++ '\x7d' :: (clauses ++ u))) := by simp
  rw [whole]
  have solid : Solid ("try".toList ++ (' ' :: '\x7b' :: (inner ++ '\x7d' :: (clauses ++ u)))) :=
    solid_cons rfl (by decide)
  refine ⟨follows_of_head solid (by rintro _ ⟨⟩; decide),
    .altSecond (rejects_localLookahead (by simp)) (.altSecond (rejects_action (by simp))
      (.altFirst ?_))⟩
  have row := ((passes_word "try").gets (.space braces)).seq
    (((passes_word "\x7b").gets skippedText).seq (gets.seq
      (((passes_word "\x7d").gets skippedClauses).seq (repeats.star.seq last))))
  refine (Gets.rule .tryUnit rfl row).imp ?_
  rintro _ ⟨front, start, stop, _, rfl, _, _, rfl, rfl, _, _, rfl, rfl, _, _, rfl,
    ⟨part, e, rfl, built, plain⟩, _, _, rfl, rfl, catches, cleaned, rfl, each, rest⟩
  obtain ⟨⟨caught, finallyCode⟩, builtClauses⟩ :=
    clauses_of_each each (@rest [] ⟨([], none), rfl⟩)
  refine ⟨_, .guarded e caught finallyCode, rfl, ?_, ?_⟩
  · rw [List.append_nil] at builtClauses
    rw [List.nil_append, List.nil_append, List.nil_append, List.singleton_append, buildUnit, built,
      builtClauses]
    rfl
  · exact Expansion.hasNoNodes_of_preorder rfl plain fun _ _ same => by cases same

/-! ### Names in front -/

/-- A word is in front of a text that begins with a name only if it is in front of the name. -/
theorem exists_of_prefix {w n s : List Char} (named : ∀ c ∈ w, isNameChar c = true)
    (stop : ∀ c ∈ s.head?, isNameChar c = false) (front : w <+: n ++ s) : ∃ m, n = w ++ m := by
  rcases List.prefix_or_prefix_of_prefix front (List.prefix_append n s) with ⟨m, same⟩ | ⟨m, rfl⟩
  · exact ⟨m, same.symm⟩
  · rw [List.prefix_append_right_inj] at front
    cases m with
    | nil => exact ⟨[], by simp⟩
    | cons c m =>
        obtain ⟨more, rfl⟩ := front
        have := stop c rfl
        rw [named c (by simp)] at this
        cases this

/-- The text begins with a name and behind it a sign, with which no clause, no block and no
lookahead goes on. -/
def StartsNamed (t : List Char) : Prop :=
  ∃ name gap c rest, t = name ++ (gap ++ c :: rest) ∧ isIdentifier name = true ∧
    (∀ b ∈ gap, b = ' ') ∧ c ∈ ['=', '[', '.', '('] ∧
      (c = '(' → name ≠ "catch".toList ∧ name ≠ "LOOKAHEAD".toList)

theorem skipped_spaces {gap : List Char} (spaces : ∀ b ∈ gap, b = ' ') (solid : Solid t) :
    Skipped (gap ++ t) t := by
  induction gap with
  | nil => exact .here solid
  | cons b gap ih =>
      rw [List.forall_mem_cons] at spaces
      obtain ⟨rfl, spaces⟩ := spaces
      exact .space (ih spaces)

/-- A character with which a name goes on is no blank, and no comment begins with it. -/
theorem solid_of_isNameChar (named : isNameChar c = true) : Solid (c :: t) := by
  have other : isGapChar c = false ∧ c ≠ '/' :=
    of_small (P := fun c => isNameChar c = true → isGapChar c = false ∧ c ≠ '/') (by decide)
      (small_of_isNameChar named) named
  exact solid_cons other.1 other.2

theorem exists_cons_of_isIdentifier {name : List Char} (identifier : isIdentifier name = true) :
    ∃ c rest, name = c :: rest ∧ isNameStart c = true ∧ ∀ d ∈ name, isNameChar d = true := by
  cases name with
  | nil => cases identifier
  | cons c rest =>
      rw [isIdentifier, Bool.and_eq_true, List.all_eq_true] at identifier
      exact ⟨c, rest, rfl, identifier.1,
        List.forall_mem_cons.mpr ⟨isNameChar_of_isNameStart identifier.1, identifier.2⟩⟩

theorem noName_of_spaces {gap rest : List Char} (spaces : ∀ b ∈ gap, b = ' ')
    (sign : isNameChar c = false) : ∀ d ∈ (gap ++ c :: rest).head?, isNameChar d = false := by
  intro d first
  cases gap with
  | nil =>
      cases first
      exact sign
  | cons b gap =>
      cases first
      rw [spaces d List.mem_cons_self]
      rfl

/-- A word in front of a name leads nowhere, if neither the rest of the name nor what stands behind
the name goes on. -/
theorem rejects_keyword {w : String} {next : Expr Rule} {name s : List Char}
    (named : ∀ c ∈ w.toList, isNameChar c = true) (stop : ∀ c ∈ s.head?, isNameChar c = false)
    (skipped : Skipped s t) (longer : ∀ {d more}, isNameChar d = true → Rejects next (d :: more))
    (same : name = w.toList → Rejects next t) (all : ∀ d ∈ name, isNameChar d = true) :
    Rejects (word w >> next) (name ++ s) := by
  by_cases front : w.toList <+: name ++ s
  · obtain ⟨m, rfl⟩ := exists_of_prefix named stop front
    rw [List.append_assoc]
    cases m with
    | nil =>
        rw [List.nil_append]
        exact rejects_seq ((passes_word w).gets skipped) (same (by simp))
    | cons d more =>
        have goes := all d (by simp)
        exact rejects_seq ((passes_word w).gets (.here (solid_of_isNameChar goes))) (longer goes)
  · exact .seq (.text front)

theorem sign_of_mem (listed : c ∈ ['=', '[', '.', '(']) :
    isNameChar c = false ∧ Solid (c :: t) := by
  have signs : ∀ d ∈ ['=', '[', '.', '('],
      isNameChar d = false ∧ isGapChar d = false ∧ d ≠ '/' := by
    decide
  obtain ⟨noName, noGap, noSlash⟩ := signs c listed
  exact ⟨noName, solid_cons noGap noSlash⟩

theorem head?_cons_ne_of_isNameChar {o : Char} (sign : isNameChar o = false)
    (named : isNameChar c = true) : (c :: t).head? ≠ some o := by
  rintro ⟨⟩
  rw [named] at sign
  cases sign

namespace StartsNamed

theorem exists_cons (starts : StartsNamed t) : ∃ c rest, t = c :: rest ∧ isNameStart c = true := by
  obtain ⟨name, gap, c, rest, rfl, identifier, -⟩ := starts
  obtain ⟨d, more, rfl, first, -⟩ := exists_cons_of_isIdentifier identifier
  exact ⟨d, _, rfl, first⟩

theorem solid (starts : StartsNamed t) : Solid t := by
  obtain ⟨c, rest, rfl, first⟩ := starts.exists_cons
  exact solid_of_isNameChar (isNameChar_of_isNameStart first)

theorem head?_ne (starts : StartsNamed t) {o : Char} (sign : isNameStart o = false) :
    t.head? ≠ some o := by
  obtain ⟨c, rest, rfl, first⟩ := starts.exists_cons
  rintro ⟨⟩
  rw [first] at sign
  cases sign

theorem rejects_rule_word {next : Expr Rule} {w : String} {o : Char} (starts : StartsNamed t)
    (named : ∀ c ∈ w.toList, isNameChar c = true) (sign : isNameChar o = false)
    (begins : ∀ {u}, u.head? ≠ some o → Rejects next u)
    (apart : o ∈ ['=', '[', '.', '('] → o = '(' ∧ w = "catch") : Rejects (word w >> next) t := by
  obtain ⟨name, gap, c, rest, rfl, identifier, spaces, listed, other⟩ := starts
  obtain ⟨_, _, -, -, all⟩ := exists_cons_of_isIdentifier identifier
  obtain ⟨noName, solid⟩ := sign_of_mem (t := rest) listed
  refine rejects_keyword named (noName_of_spaces spaces noName) (skipped_spaces spaces solid)
    (fun goes => begins (head?_cons_ne_of_isNameChar sign goes)) (fun same => begins ?_) all
  rintro ⟨⟩
  obtain ⟨rfl, rfl⟩ := apart listed
  exact (other rfl).1 same

theorem follows (starts : StartsNamed t) : Follows t where
  solid := starts.solid
  noOccurrence := by
    refine rejects_occurrence fun c first listed => ?_
    have signs : ∀ d ∈ ['?', '*', '+'], isNameStart d = false := by decide
    exact starts.head?_ne (signs c listed) first
  noDescriptor := rejects_nodeDescriptor (starts.head?_ne rfl)
  noCatch := by
    refine rejects_rule rfl
      (starts.rejects_rule_word (o := '(') (by decide) rfl ?_ fun _ => ⟨rfl, rfl⟩)
    exact fun other => .seq (rejects_word '(' rfl other)
  noFinally := rejects_rule rfl
    (starts.rejects_rule_word (o := '\x7b') (by decide) rfl rejects_javaBlock (by decide))

theorem rejects_tryUnit (starts : StartsNamed t) : Rejects (.rule .tryUnit) t := by
  refine rejects_rule rfl (starts.rejects_rule_word (o := '\x7b') (by decide) rfl ?_ (by decide))
  exact fun other => .seq (rejects_word '\x7b' rfl other)

theorem rejects_localLookahead (starts : StartsNamed t) : Rejects (.rule .localLookahead) t := by
  obtain ⟨name, gap, c, rest, rfl, identifier, spaces, listed, other⟩ := starts
  obtain ⟨_, _, -, -, all⟩ := exists_cons_of_isIdentifier identifier
  refine rejects_token rfl ?_
  by_cases front : "LOOKAHEAD".toList <+: name ++ (gap ++ c :: rest)
  · obtain ⟨m, rfl⟩ :=
      exists_of_prefix (by decide)
        (noName_of_spaces spaces (sign_of_mem (t := rest) listed).1) front
    rw [List.append_assoc]
    refine .seqSecond token_ne_spaced .text ?_
    cases m with
    | nil =>
        rw [List.nil_append]
        have gaps : ∀ b ∈ gap, isLookaheadGap b = true := by
          intro b mem
          rw [spaces b mem]
          rfl
        have apart : c ≠ '(' := fun same => (other same).2 (by simp)
        refine .seqSecond token_ne_spaced (takes_lookaheadGap gaps ?_)
          (.seq (refuses_word '(' rfl (by simpa using apart)))
        have signs : ∀ d ∈ ['=', '[', '.', '('], isLookaheadGap d = false := by decide
        rintro _ ⟨⟩
        exact signs c listed
    | cons d more =>
        have goes := all d (by simp)
        have noGap : isLookaheadGap d = false :=
          of_small (P := fun c => isNameChar c = true → isLookaheadGap c = false) (by decide)
            (small_of_isNameChar goes) goes
        refine .seqSecond (w := []) token_ne_spaced (takes_lookaheadGap nofun ?_)
          (.seq (refuses_word '(' rfl (head?_cons_ne_of_isNameChar rfl goes)))
        rintro _ ⟨⟩
        exact noGap
  · exact .seq (.text front)

end StartsNamed

/-! ### References and terminals -/

/-- A single tree of a reference or a terminal, whatever its target. -/
def Assigns (trees : List Part) : Prop :=
  ∃ part, trees = [part] ∧
    ∀ whole target, ∃ e, buildAssigned whole target [part] = .ok e ∧ e.HasNoNodes

/-- The text is that of a reference or a terminal without a target. -/
def IsSymbolText (text : List Char) : Prop :=
  ∀ ⦃u v : List Char⦄, Skipped u v → Solid (text ++ u) ∧
    Gets (.rule .terminal <|> .rule .nonterminal) (text ++ u) v Assigns

theorem IsTerminal.head (is : IsTerminal text) :
    ∃ c rest, text = c :: rest ∧ (c = '"' ∨ c = '<') := by
  rcases is with ⟨inner, rfl, -⟩ | ⟨inner, rfl, -⟩
  · exact ⟨'"', _, rfl, .inl rfl⟩
  · exact ⟨'<', _, rfl, .inr rfl⟩

theorem isSymbolText_terminal (is : IsTerminal text) : IsSymbolText text := by
  intro u v skipped
  have passes := passes_token .terminal rfl (takes_terminal (u := u) is)
  obtain ⟨c, rest, rfl, listed⟩ := is.head
  refine ⟨solid_cons ?_ ?_, .altFirst ((passes.gets skipped).imp ?_)⟩
  · rcases listed with rfl | rfl <;> rfl
  · rcases listed with rfl | rfl <;> decide
  · rintro _ ⟨start, stop, _, rfl, rfl⟩
    refine ⟨_, rfl, fun whole target => ⟨_, rfl, hasNoNodes_of_preorder_eq rfl ?_⟩⟩
    exact fun _ _ same => by cases same

theorem gets_nonterminal {name arguments : List Char} (identifier : isIdentifier name = true)
    (closes : Bracket.paren.lexis.Closes 0 arguments) (skipped : Skipped u v) :
    Gets (.rule .nonterminal) (name ++ '(' :: (arguments ++ ')' :: u)) v Assigns := by
  have opening : Skipped ('(' :: (arguments ++ ')' :: u)) ('(' :: (arguments ++ ')' :: u)) :=
    .here (solid_cons rfl (by decide))
  obtain ⟨t, skippedContent, content⟩ := passes_parenContent (u := u) closes
  have closing : Skipped (')' :: u) (')' :: u) := .here (solid_cons rfl (by decide))
  have named := passes_token .identifier rfl
    (takes_identifier (u := '(' :: (arguments ++ ')' :: u)) identifier (by rintro _ ⟨⟩; rfl))
  have row := (named.gets opening).seq (((passes_word "(").gets skippedContent).seq
    ((content.gets closing).seq ((passes_word ")").gets skipped)))
  refine (Gets.rule .nonterminal rfl row).imp ?_
  rintro _ ⟨front, start, stop, _, rfl, _, _, rfl, ⟨_, _, _, rfl, rfl⟩, _, _, rfl, rfl, _, _, rfl,
    ⟨content, _, _, _, rfl, rfl⟩, rfl⟩
  refine ⟨_, rfl, fun whole target => ⟨_, rfl, hasNoNodes_of_preorder_eq rfl ?_⟩⟩
  exact fun _ _ same => by cases same

def referenceText (name arguments : List Char) : List Char :=
  name ++ '(' :: (arguments ++ [')'])

theorem referenceText_append {name arguments : List Char} :
    referenceText name arguments ++ u = name ++ '(' :: (arguments ++ ')' :: u) := by
  simp [referenceText]

theorem isSymbolText_reference {name arguments : List Char} (identifier : isIdentifier name = true)
    (closes : Bracket.paren.lexis.Closes 0 arguments) :
    IsSymbolText (referenceText name arguments) := by
  intro u v skipped
  rw [referenceText_append]
  have gets := gets_nonterminal identifier closes skipped
  obtain ⟨c, rest, rfl, first, -⟩ := exists_cons_of_isIdentifier identifier
  have noStart {o : Char} (sign : isNameStart o = false) : c ≠ o := by
    rintro rfl
    rw [first] at sign
    cases sign
  have refused : Rejects (.rule .terminal) (c :: rest ++ '(' :: (arguments ++ ')' :: u)) :=
    rejects_token rfl (.alt (refuses_literal .double (by simpa [Quote.char] using noStart rfl))
      (.seq (refuses_word '<' rfl (by simpa using noStart rfl))))
  exact ⟨solid_of_isNameChar (isNameChar_of_isNameStart first), .altSecond refused gets⟩

theorem builds_of_assigns {trees : List Part} (assigns : Assigns trees) (start stop : Nat)
    (front : String) : Builds buildUnit [.node .assignedUnit start stop front trees] := by
  obtain ⟨part, rfl, builds⟩ := assigns
  obtain ⟨e, built, plain⟩ := builds (.node .assignedUnit start stop front [part]) none
  exact ⟨_, e, rfl, by rw [buildUnit, built], plain⟩

theorem gets_assigned (follows : Follows t) (noLookahead : Rejects (.rule .localLookahead) t)
    (noTry : Rejects (.rule .tryUnit) t) (other : ∀ c ∈ t.head?, c ∉ ['\x7b', '(', '['])
    (unit : Gets (.rule .assignedUnit) t v (Builds buildUnit)) :
    Follows t ∧ Gets expansionUnit t v (Builds buildUnit) := by
  have apart (o : Char) (listed : o ∈ ['\x7b', '(', '[']) : t.head? ≠ some o :=
    fun same => other o same listed
  exact ⟨follows, .altSecond noLookahead (.altSecond (rejects_action (apart _ (by simp)))
    (.altSecond noTry (.altSecond (rejects_parenUnit (apart _ (by simp)))
      (.altSecond (rejects_optionalUnit (apart _ (by simp))) unit))))⟩

theorem isUnitText_terminal (is : IsTerminal text) : IsUnitText text := by
  intro u v skipped follows
  obtain ⟨solid, gets⟩ := isSymbolText_terminal is skipped
  obtain ⟨c, rest, rfl, listed⟩ := is.head
  have first {P : Char → Prop} (all : P '"' ∧ P '<') : ∀ d ∈ (c :: rest ++ u).head?, P d := by
    rintro _ ⟨⟩
    rcases listed with rfl | rfl
    · exact all.1
    · exact all.2
  have apart {o : Char} (other : '"' ≠ o ∧ '<' ≠ o) : (c :: rest ++ u).head? ≠ some o := by
    intro same
    rcases listed with rfl | rfl
    · exact other.1 (Option.some.inj same)
    · exact other.2 (Option.some.inj same)
  have noLhs : Rejects (.rule .lhs >> word "=") (c :: rest ++ u) :=
    .seq (rejects_token rfl (.seq (.rule (refuses_qualifiedName (first (by decide))))))
  refine gets_assigned (follows_of_head solid (first (by decide)))
    (rejects_localLookahead (apart (by decide))) (rejects_tryUnit (apart (by decide)))
    (first (by decide)) ?_
  refine (Gets.rule .assignedUnit rfl ((Gets.noOpt solid noLhs).seq gets)).imp ?_
  rintro _ ⟨front, start, stop, _, rfl, _, _, rfl, rfl, assigns⟩
  exact builds_of_assigns assigns start stop _

theorem StartsNamed.gets_assigned (starts : StartsNamed t)
    (unit : Gets (.rule .assignedUnit) t v (Builds buildUnit)) :
    Follows t ∧ Gets expansionUnit t v (Builds buildUnit) := by
  refine Format.gets_assigned starts.follows starts.rejects_localLookahead starts.rejects_tryUnit
    (fun c first listed => ?_) unit
  have signs : ∀ d ∈ ['\x7b', '(', '['], isNameStart d = false := by decide
  exact starts.head?_ne (signs c listed) first

theorem isTarget_of_isIdentifier {name : List Char} (identifier : isIdentifier name = true) :
    IsTarget name :=
  ⟨name, [], by simp, isDotted_of_isIdentifier identifier, .nil⟩

/-- A reference without a target. One that is called like the word in front of lookaheads is read as
a lookahead. -/
theorem isUnitText_reference {name arguments : List Char} (identifier : isIdentifier name = true)
    (noClause : name ≠ "catch".toList) (closes : Bracket.paren.lexis.Closes 0 arguments) :
    IsUnitText (referenceText name arguments) := by
  intro u v skipped follows
  by_cases lookahead : name = "LOOKAHEAD".toList
  · subst lookahead
    exact isUnitText_lookahead ⟨[], arguments, rfl, nofun, closes⟩ skipped follows
  · obtain ⟨solid, gets⟩ := isSymbolText_reference identifier closes skipped
    rw [referenceText_append] at solid gets ⊢
    have starts : StartsNamed (name ++ '(' :: (arguments ++ ')' :: u)) :=
      ⟨name, [], '(', _, rfl, identifier, nofun, by simp, fun _ => ⟨noClause, lookahead⟩⟩
    have ends : EndsTarget ('(' :: (arguments ++ ')' :: u)) :=
      ⟨by rintro _ ⟨⟩; decide, by simp⟩
    have target := passes_token .lhs rfl (takes_lhs (isTarget_of_isIdentifier identifier) ends)
    have noLhs : Rejects (.rule .lhs >> word "=") (name ++ '(' :: (arguments ++ ')' :: u)) :=
      rejects_seq (target.gets (.here (solid_cons rfl (by decide))))
        (rejects_word '=' rfl (by simp))
    refine starts.gets_assigned ?_
    refine (Gets.rule .assignedUnit rfl ((Gets.noOpt solid noLhs).seq gets)).imp ?_
    rintro _ ⟨front, start, stop, _, rfl, _, _, rfl, rfl, assigns⟩
    exact builds_of_assigns assigns start stop _

theorem startsNamed_target {target : List Char} (is : IsTarget target) :
    StartsNamed (target ++ (' ' :: '=' :: t)) := by
  obtain ⟨name, indices, rfl, dotted, are⟩ := is
  rcases isDotted_cases dotted with identifier | ⟨first, rest, rfl, identifier, -⟩
  · cases are with
    | nil =>
        exact ⟨name, [' '], '=', t, by simp, identifier, by simp, by simp, by simp⟩
    | @cons index rest _ _ =>
        exact ⟨name, [], '[', index ++ ']' :: rest ++ ' ' :: '=' :: t, by simp, identifier, nofun,
          by simp, by simp⟩
  · exact ⟨first, [], '.', rest ++ indices ++ ' ' :: '=' :: t, by simp, identifier, nofun, by simp,
      by simp⟩

theorem isUnitText_assigned {target : List Char} (is : IsTarget target)
    (symbol : IsSymbolText text) : IsUnitText (target ++ " = ".toList ++ text) := by
  intro u v skipped follows
  have whole : target ++ " = ".toList ++ text ++ u =
      target ++ (' ' :: '=' :: ' ' :: (text ++ u)) := by
    simp
  rw [whole]
  obtain ⟨solid, gets⟩ := symbol skipped
  refine (startsNamed_target is).gets_assigned ?_
  have ends : EndsTarget (' ' :: '=' :: ' ' :: (text ++ u)) :=
    ⟨by rintro _ ⟨⟩; decide, by simp⟩
  have sign : Skipped ('=' :: ' ' :: (text ++ u)) ('=' :: ' ' :: (text ++ u)) :=
    .here (solid_cons rfl (by decide))
  have assigned := ((passes_token .lhs rfl (takes_lhs is ends)).gets (.space sign)).seq
    ((passes_word "=").gets (.space (.here solid)))
  refine (Gets.rule .assignedUnit rfl (assigned.opt.seq gets)).imp ?_
  rintro _ ⟨front, start, stop, _, rfl, _, _, rfl, ⟨_, _, rfl, ⟨_, _, _, rfl, rfl⟩, rfl⟩,
    part, rfl, builds⟩
  obtain ⟨e, built, plain⟩ := builds (.node .assignedUnit start stop (String.ofList front)
    [.node .lhs _ _ (String.ofList target) [], part]) (some (String.ofList target))
  exact ⟨_, e, rfl, by
    rw [List.append_nil, List.singleton_append, buildUnit, buildAssigned, ← built]
    rfl, plain⟩

end NodeWeave.Grammar.Format
