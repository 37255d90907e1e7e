import NodeWeave.Proofs.Grammar.Names
import NodeWeave.Proofs.Grammar.Wholes

/-!
What the reader builds prints unambiguously. Main statement: in the expansion of a production that
was read, every expansion has a role that admits it, and the lines that are woven of the whole are
grouped in the way of the expansion by the brackets and bars among them alone.
-/

namespace NodeWeave.Grammar

open Peg

/-! ### Lines of single units -/

def StartsName (text : String) : Prop :=
  ∃ first, text.toList.head? = some first ∧ Format.isNameStart first = true

theorem startsName_of_isIdentifier {name : List Char} (identifier : isIdentifier name = true)
    (more : List Char) {text : String} (whole : text.toList = name ++ more) : StartsName text := by
  cases name with
  | nil => cases identifier
  | cons first rest =>
      rw [isIdentifier, Bool.and_eq_true] at identifier
      exact ⟨first, by rw [whole]; rfl, identifier.1⟩

/-- A line that starts like a name is a unit, unless it is the start of a guarded one. -/
theorem StartsName.of_eq_unit {front behind : String} (named : StartsName front) {c : Char}
    (mem : c ∈ behind.toList) (other : c ∉ ['t', 'r', 'y', ' ', '\x7b']) :
    LineKind.of (front ++ behind) = .unit := by
  obtain ⟨first, starts, isStart⟩ := named
  refine LineKind.of_eq_unit first c ?_ ?_ ?_ other
  · rw [String.toList_append, List.head?_append, starts]
    rfl
  · intro special
    revert isStart
    simp only [List.mem_cons, List.not_mem_nil, or_false] at special
    rcases special with rfl | rfl | rfl | rfl | rfl | rfl <;> decide
  · rw [String.toList_append]
    exact List.mem_append_right _ mem

namespace IsOf

variable {part : Part}

theorem startsName_identifier (isOf : IsOf .identifier part) : StartsName part.text :=
  startsName_of_isIdentifier isOf.isIdentifier_text [] (List.append_nil _).symm

theorem startsName_lhs (isOf : IsOf .lhs part) : StartsName part.text := by
  obtain ⟨rule, made⟩ := isOf
  have read := made.reads (by rw [rule]; rfl)
  rw [rule] at read
  obtain ⟨front, back, whole, first, -⟩ := Rules.reads_seq_iff.mp read
  obtain ⟨name, more, rfl, start, -⟩ :=
    Rules.reads_seq_iff.mp ((Rules.reads_rule_iff rfl).mp first)
  have identifier :=
    isIdentifier_of_reads ((Rules.reads_rule_iff rfl).mp start)
  exact startsName_of_isIdentifier identifier (more ++ back) (by rw [whole, List.append_assoc])

theorem of_lookahead (isOf : IsOf .localLookahead part) : LineKind.of part.text = .unit := by
  obtain ⟨rule, made⟩ := isOf
  have read := made.reads (by rw [rule]; rfl)
  rw [rule] at read
  obtain ⟨front, back, whole, first, -⟩ := Rules.reads_seq_iff.mp read
  obtain rfl := Rules.reads_text_iff.mp first
  exact LineKind.of_eq_unit 'L' 'L' (by rw [whole]; rfl) (by decide)
    (by simp [whole]) (by decide)

theorem of_terminal (isOf : IsOf .terminal part) : LineKind.of part.text = .unit := by
  obtain ⟨rule, made⟩ := isOf
  have read := made.reads (by rw [rule]; rfl)
  rw [rule] at read
  rcases Rules.reads_alt_iff.mp read with quoted | angled
  · obtain ⟨front, back, whole, first, -⟩ :=
      Rules.reads_seq_iff.mp (quoted.body (by decide))
    obtain rfl := Rules.reads_text_iff.mp first
    exact LineKind.of_eq_unit '"' '"' (by rw [whole]; rfl) (by decide)
      (by simp [whole]) (by decide)
  · obtain ⟨front, back, whole, first, -⟩ := Rules.reads_seq_iff.mp angled
    obtain rfl := Rules.reads_text_iff.mp first
    exact LineKind.of_eq_unit '<' '<' (by rw [whole]; rfl) (by decide)
      (by simp [whole]) (by decide)

end IsOf

/-! ### What is built -/

open Expansion

theorem of_assigned {target : Option String} {text : String}
    (named : ∀ name ∈ target, StartsName name) (plain : LineKind.of text = .unit) :
    LineKind.of (assigned target text) = .unit := by
  cases target with
  | none => exact plain
  | some name =>
      rw [assigned, String.append_assoc]
      exact (named name rfl).of_eq_unit (c := '=') (by simp) (by decide)

theorem isBare_of_buildAssigned {part : Part} (isOf : IsOf .assignedUnit part) {e : Expansion}
    (built : buildAssigned part none part.children = .ok e) : e.IsBare := by
  obtain ⟨fills, made⟩ := isOf.parts (by decide)
  have called {target : Option String} (named : ∀ name ∈ target, StartsName name) {unit : Part}
      {rest : List Part} (mem : unit.rule ∈ [Rule.terminal, .nonterminal])
      (made : Format.rules.Makes unit) (built : buildAssigned part target (unit :: rest) = .ok e) :
      e.IsBare := by
    simp only [List.mem_cons, List.not_mem_nil, or_false] at mem
    rcases mem with rule | rule
    · rw [buildAssigned, rule] at built
      cases built
      exact .terminal (of_assigned named (IsOf.of_terminal ⟨rule, made⟩))
    · obtain ⟨⟨name, _, same, isName, arguments, _, rfl, -⟩, inside⟩ :=
        IsOf.parts ⟨rule, made⟩ (by decide)
      rw [buildAssigned, rule] at built
      dsimp only at built
      rw [same] at built
      cases built
      rw [same, List.forall_mem_cons] at inside
      have starts := IsOf.startsName_identifier ⟨List.mem_singleton.mp isName, inside.1⟩
      refine .reference (of_assigned named ?_)
      rw [String.append_assoc, String.append_assoc]
      exact starts.of_eq_unit (c := '(') (by simp) (by decide)
  rcases fills with ⟨unit, rest, same, mem, -⟩ | ⟨target, _, same, isLhs, unit, rest, rfl, mem, -⟩
  · rw [same] at made built
    exact called (fun _ none => by cases none) mem (made _ (by simp)) built
  · rw [same] at made built
    have rule := List.mem_singleton.mp isLhs
    rw [buildAssigned, rule] at built
    refine called ?_ mem (made _ (by simp)) built
    rintro _ ⟨⟩
    exact IsOf.startsName_lhs ⟨rule, made _ (by simp)⟩

theorem length_of_buildSequences {parts : List Part} {es : List Expansion}
    (built : buildSequences parts = .ok es) : es.length = parts.length := by
  induction parts generalizing es with
  | nil =>
      cases built
      rfl
  | cons part rest ih =>
      rw [buildSequences] at built
      obtain ⟨first, -, built⟩ := exists_of_bind_eq_ok built
      obtain ⟨others, builtRest, built⟩ := exists_of_bind_eq_ok built
      cases built
      rw [List.length_cons, List.length_cons, ih builtRest]

mutual
theorem isWhole_of_buildChoices {e : Expansion} : ∀ part : Part, IsOf .expansionChoices part →
    buildChoices part = .ok e → e.IsWhole
  | .node rule start stop text sequences, isOf, built => by
      obtain ⟨first, others, some, -⟩ := isOf.first (by decide) rfl
      rw [buildChoices] at built
      obtain ⟨alternatives, listed, built⟩ := exists_of_bind_eq_ok built
      have each := isAlternative_of_buildSequences sequences isOf.expansionChoices listed
      split at built
      · cases built
        exact .alternative (each _ (List.mem_singleton_self _))
      · next several =>
          cases built
          refine .choice ?_ each
          -- The rule asks for one sequence at least, and a single one has been taken out.
          have long := length_of_buildSequences listed
          match alternatives, several with
          | [], _ =>
              cases some
              cases long
          | [only], several => exact absurd rfl (several only)
          | _ :: _ :: _, _ => simp

theorem isAlternative_of_buildSequences {es : List Expansion} : ∀ parts : List Part,
    (∀ part ∈ parts, IsOf .expansionSequence part) → buildSequences parts = .ok es →
      ∀ e ∈ es, e.IsAlternative
  | [], _, built => by
      cases built
      exact nofun
  | part :: rest, areOf, built => by
      rw [buildSequences] at built
      obtain ⟨first, builtFirst, built⟩ := exists_of_bind_eq_ok built
      obtain ⟨others, builtRest, built⟩ := exists_of_bind_eq_ok built
      cases built
      rw [List.forall_mem_cons] at areOf ⊢
      exact ⟨isAlternative_of_buildSequence part areOf.1 builtFirst,
        isAlternative_of_buildSequences rest areOf.2 builtRest⟩

theorem isAlternative_of_buildSequence {e : Expansion} : ∀ part : Part,
    IsOf .expansionSequence part → buildSequence part = .ok e → e.IsAlternative
  | .node rule start stop text units, isOf, built => by
      rw [buildSequence] at built
      obtain ⟨listed, builtUnits, built⟩ := exists_of_bind_eq_ok built
      have each := isUnit_of_buildUnits units isOf.expansionSequence builtUnits
      split at built
      · cases built
        exact .unit (each _ (List.mem_singleton_self _))
      · next several =>
          cases built
          refine .sequence (fun single => ?_) each
          obtain ⟨only, rfl⟩ := List.length_eq_one_iff.mp single
          exact several only rfl

theorem isUnit_of_buildUnits {es : List Expansion} : ∀ parts : List Part,
    (∀ part ∈ parts, IsOf .scopedUnit part) → buildUnits parts = .ok es → ∀ e ∈ es, e.IsUnit
  | [], _, built => by
      cases built
      exact nofun
  | part :: rest, areOf, built => by
      rw [buildUnits] at built
      obtain ⟨first, builtFirst, built⟩ := exists_of_bind_eq_ok built
      obtain ⟨others, builtRest, built⟩ := exists_of_bind_eq_ok built
      cases built
      rw [List.forall_mem_cons] at areOf ⊢
      exact ⟨isUnit_of_buildAnnotated part areOf.1 builtFirst,
        isUnit_of_buildUnits rest areOf.2 builtRest⟩

theorem isUnit_of_buildAnnotated {e : Expansion} : ∀ part : Part, IsOf .scopedUnit part →
    buildAnnotated part = .ok e → e.IsUnit
  | .node _ _ _ _ [], _, built => by cases built
  | .node rule start stop text (unit :: rest), isOf, built => by
      obtain ⟨_, _, ⟨⟩, -, made, -⟩ := isOf.scopedUnit
      rw [buildAnnotated] at built
      obtain ⟨inner, builtUnit, built⟩ := exists_of_bind_eq_ok built
      have bare := isBare_of_buildUnit unit made builtUnit
      split at built
      · cases built
        exact .bare bare
      · obtain ⟨node, -, built⟩ := exists_of_bind_eq_ok built
        cases built
        exact .annotated bare node

theorem isBare_of_buildUnit {e : Expansion} (part : Part) (made : Format.rules.Makes part)
    (built : buildUnit part = .ok e) : e.IsBare := by
  unfold buildUnit at built
  split at built
  · cases built
    exact .lookahead (IsOf.of_lookahead ⟨rfl, made⟩)
  · obtain ⟨⟨block, others⟩, -, built⟩ := exists_of_bind_eq_ok built
    cases built
    exact .action _
  · next choices rest =>
      obtain ⟨_, _, ⟨⟩, isChoices, -⟩ :=
        (show IsOf .parenUnit _ from ⟨rfl, made⟩).first (by decide) rfl
      obtain ⟨inner, builtChoices, built⟩ := exists_of_bind_eq_ok built
      cases built
      exact .group (isWhole_of_buildChoices choices isChoices builtChoices) _
  · next choices rest =>
      obtain ⟨_, _, ⟨⟩, isChoices, -⟩ :=
        (show IsOf .optionalUnit _ from ⟨rfl, made⟩).first (by decide) rfl
      obtain ⟨inner, builtChoices, built⟩ := exists_of_bind_eq_ok built
      cases built
      exact .optional (isWhole_of_buildChoices choices isChoices builtChoices)
  · next choices rest =>
      obtain ⟨_, _, ⟨⟩, isChoices, -⟩ := IsOf.tryUnit ⟨rfl, made⟩
      obtain ⟨inner, builtChoices, built⟩ := exists_of_bind_eq_ok built
      obtain ⟨⟨catches, finallyCode⟩, -, built⟩ := exists_of_bind_eq_ok built
      cases built
      exact .guarded (isWhole_of_buildChoices choices isChoices builtChoices) _ _
  · exact isBare_of_buildAssigned ⟨rfl, made⟩ built
  all_goals cases built
end

/-! ### Expansions that were read -/

theorem isWhole_of_read {path text : String} {g : Grammar} (done : read path text = .ok g)
    {p : Production} (mem : p ∈ g.productions) {e : Expansion} (expands : p.expansion? = some e) :
    e.IsWhole := by
  obtain ⟨item, listed, same⟩ := List.mem_filterMap.mp mem
  obtain ⟨part, builtOf⟩ := exists_isBuiltOf_of_read done item listed
  cases builtOf with
  | options | verbatim | parser => cases same
  | production parts built =>
      cases same
      obtain ⟨-, -, -, -, expanded⟩ := exists_of_buildProduction parts built
      obtain ⟨choices, isChoices, builtChoices⟩ := expanded e expands
      exact isWhole_of_buildChoices choices isChoices builtChoices

/-- What is read prints unambiguously. In the expansion of each production choices have two or more
alternatives and are the whole of it or of what stands in brackets; sequences do not have just one
unit, and are such a whole or an alternative; and what is annotated is neither, nor annotated once
more. Therefore, however it is woven, its lines outside of generated regions are grouped by the
brackets and bars among them alone, into the sequences and choices of the expansion. -/
theorem read_prints_unambiguously {path text : String} {g : Grammar}
    (done : read path text = .ok g) {p : Production} (mem : p ∈ g.productions) {e : Expansion}
    (expands : p.expansion? = some e) :
    e.roles.map Prod.snd = e.preorder ∧
      (∀ role part, (role, part) ∈ e.roles → role.admits part = true) ∧
      ∀ (style : ScopeStyle) (scope : Option Scope) (atEnd : Bool) (level : Nat),
        Grouping.ofLines? (Piece.lineTexts
          (Piece.outside ((g.weaveExpansion style p scope atEnd e).pieces level))) =
            some (e.grouping style scope) := by
  have whole := isWhole_of_read done mem expands
  refine ⟨e.map_snd_roles, fun role part listed => whole.fits rfl (role, part) listed, ?_⟩
  intro style scope atEnd level
  rw [(prints_weaveExpansion g style p scope atEnd level e).eq]
  exact (whole.standsAsWhole style scope).ofLines?_lines

theorem exists_expansion_of_read (path text : String) {P : Expansion → Prop} [DecidablePred P]
    (holds : (match read path text with
      | .ok g => decide (∃ p ∈ g.productions, ∃ e ∈ p.expansion?, P e)
      | .error _ => false) = true) :
    ∃ g, read path text = .ok g ∧ ∃ p ∈ g.productions, ∃ e, p.expansion? = some e ∧ P e := by
  split at holds
  · next g done =>
      obtain ⟨p, mem, e, expands, kept⟩ := of_decide_eq_true holds
      exact ⟨g, done, p, mem, e, expands, kept⟩
  · cases holds

/-- Two alternatives: a repeated group with a node in it and an action behind it, and a guarded unit
with brackets in which nothing need stand. -/
def nestedText : String :=
  "PARSER_BEGIN(P)class P\x7b\x7dPARSER_END(P)void A():\x7b\x7d\x7b" ++
    "(\"a\"|x=b()#N \"c\")*\x7b\x7d|try\x7b[<D>|]\x7dfinally\x7b\x7d\x7d"

def nestedRoles : List Role :=
  [.production, .alternative, .unit, .group, .alternative, .alternative, .unit, .annotated, .unit,
    .unit, .alternative, .guarded, .optional, .alternative, .alternative]

def nestedLines : List String :=
  ["(", "\"a\"", "|", "x = b()", "\"c\"", ")*", "\x7b\x7d", "|", "try \x7b", "[", "<D>", "|", "]",
    "\x7d finally \x7b\x7d"]

theorem read_prints_unambiguously_nested : ∃ g : Grammar, read "G.jjt" nestedText = .ok g ∧
    ∃ p ∈ g.productions, ∃ e, p.expansion? = some e ∧ e.roles.map Prod.fst = nestedRoles ∧
      (∀ role part, (role, part) ∈ e.roles → role.admits part = true) ∧
      Grouping.ofLines? nestedLines = some (e.grouping ⟨{}, {}⟩ none) := by
  obtain ⟨g, done, p, mem, e, expands, roles, lines⟩ :=
    exists_expansion_of_read "G.jjt" nestedText (P := fun e =>
      e.roles.map Prod.fst = nestedRoles ∧ (e.grouping ⟨{}, {}⟩ none).lines = nestedLines)
      (by decide +kernel)
  obtain ⟨-, admitted, grouped⟩ := read_prints_unambiguously done mem expands
  refine ⟨g, done, p, mem, e, expands, roles, admitted, ?_⟩
  rw [← lines, ← (prints_weaveExpansion g ⟨{}, {}⟩ p none false 1 e).eq]
  exact grouped ⟨{}, {}⟩ none false 1

end NodeWeave.Grammar
