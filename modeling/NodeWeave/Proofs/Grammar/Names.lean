import NodeWeave.Grammar.Reader
import NodeWeave.Proofs.Peg.Parts
import NodeWeave.Proofs.Woven.Openings

/-!
The names in a grammar that was read. Main statement: productions and the parser have identifiers as
names, and nodes have identifiers with dots between them.
-/

namespace NodeWeave.Grammar

open Peg

/-! ### Identifiers -/

def isIdentifier : List Char → Bool
  | [] => false
  | first :: rest => Format.isNameStart first && rest.all Format.isNameChar

def isDotted (name : List Char) : Bool :=
  (name.splitOn '.').all isIdentifier

theorem isNameChar_of_isNameStart {c : Char} (start : Format.isNameStart c = true) :
    Format.isNameChar c = true := by
  simp only [Format.isNameStart, Bool.or_eq_true] at start
  simp only [Format.isNameChar, Char.isAlphanum, Bool.or_eq_true]
  exact start.imp_left (Or.imp_left .inl)

theorem isNameChar_of_mem {name : List Char} (identifier : isIdentifier name = true) {c : Char}
    (mem : c ∈ name) : Format.isNameChar c = true := by
  cases name with
  | nil => cases mem
  | cons first rest =>
      rw [isIdentifier, Bool.and_eq_true, List.all_eq_true] at identifier
      cases mem with
      | head => exact isNameChar_of_isNameStart identifier.1
      | tail _ mem => exact identifier.2 c mem

theorem isIdentifier_append {front back : List Char} (identifier : isIdentifier front = true)
    (more : back.all Format.isNameChar = true) : isIdentifier (front ++ back) = true := by
  cases front with
  | nil => cases identifier
  | cons first rest =>
      rw [isIdentifier, Bool.and_eq_true] at identifier
      rw [List.cons_append, isIdentifier, List.all_append, identifier.1, identifier.2, more]
      rfl

theorem dotFree_of_isIdentifier {name : List Char} (identifier : isIdentifier name = true) :
    '.' ∉ name := by
  intro mem
  exact absurd (isNameChar_of_mem identifier mem) (by decide)

theorem isDotted_of_isIdentifier {name : List Char} (identifier : isIdentifier name = true) :
    isDotted name = true := by
  rw [isDotted, List.splitOn_eq_singleton (dotFree_of_isIdentifier identifier)]
  simp [identifier]

theorem isDotted_append {front back : List Char} (first : isDotted front = true)
    (second : isDotted back = true) : isDotted (front ++ '.' :: back) = true := by
  rw [isDotted, List.splitOn_append_cons_self, List.all_append, Bool.and_eq_true]
  exact ⟨first, second⟩

/-! ### Texts of names -/

theorem isRuleFree_blank : Format.rules.blank.IsRuleFree := by
  simp [Format.rules, Format.blank, Format.comment, Format.newline, Expr.IsRuleFree,
    HAndThen.hAndThen, AndThen.andThen, HOrElse.hOrElse, OrElse.orElse, Expr.butNot, Expr.word]

theorem isIdentifier_of_reads {text : List Char}
    (read : Format.rules.Reads (Format.body .identifier) text) : isIdentifier text = true := by
  obtain ⟨front, back, rfl, first, rest⟩ := Rules.reads_seq_iff.mp read
  obtain ⟨c, start, rfl⟩ := Rules.reads_one_iff.mp first
  obtain ⟨parts, rfl, each⟩ := rest.exists_parts
  rw [List.singleton_append, isIdentifier, start, Bool.true_and, List.all_eq_true]
  intro d mem
  obtain ⟨part, listed, inside⟩ := List.mem_flatten.mp mem
  obtain ⟨e, further, rfl⟩ := Rules.reads_one_iff.mp (each part listed)
  rw [List.mem_singleton.mp inside]
  exact further

theorem isDotted_of_reads {text : List Char}
    (read : Format.rules.Reads (Format.body .qualifiedName) text) : isDotted text = true := by
  have identifier : ∀ {text}, Format.rules.Reads (.rule .identifier) text →
      isIdentifier text = true :=
    fun read => isIdentifier_of_reads ((Rules.reads_rule_iff rfl).mp read)
  obtain ⟨front, back, rfl, first, rest⟩ := Rules.reads_seq_iff.mp read
  obtain ⟨parts, rfl, each⟩ := rest.exists_parts
  have start := isDotted_of_isIdentifier (identifier first)
  clear first rest read
  induction parts generalizing front with
  | nil => simpa using start
  | cons part parts ih =>
      obtain ⟨here, later⟩ := List.forall_mem_cons.mp each
      obtain ⟨dot, name, rfl, isDot, isName⟩ := Rules.reads_seq_iff.mp here
      obtain rfl := Rules.reads_text_iff.mp isDot
      have next := isDotted_append start (isDotted_of_isIdentifier (identifier isName))
      simpa using ih _ later next


/-! ### Parts of parts -/

theorem callsShow : Format.rules.CallsShow := by
  intro name
  cases name <;> decide

def IsOf (rule : Rule) (part : Part) : Prop :=
  part.rule = rule ∧ Format.rules.Makes part

namespace IsOf

variable {part : Part} {rule : Rule}

theorem leaves (isOf : IsOf rule part) (showing : Format.kind rule ≠ .token) :
    (Format.body rule).Leaves Format.rules part.children := by
  obtain ⟨rfl, made⟩ := isOf
  exact made.leaves showing

theorem isIdentifier_text (isOf : IsOf .identifier part) :
    isIdentifier part.text.toList = true := by
  obtain ⟨rule, made⟩ := isOf
  have read := made.reads (by rw [rule]; rfl)
  rw [rule] at read
  exact isIdentifier_of_reads read

theorem isDotted_text (isOf : IsOf .nodeName part) : isDotted part.text.toList = true := by
  obtain ⟨rule, made⟩ := isOf
  have read := made.reads (by rw [rule]; rfl)
  rw [rule] at read
  exact isDotted_of_reads ((Rules.reads_rule_iff rfl).mp read)

section

variable (isOf : IsOf rule part) (shows : Format.kind rule ≠ .silent ∧ Format.kind rule ≠ .token)

include isOf shows

theorem forall_mem_children : ∀ inner ∈ part.children,
    inner.rule ∈ (Format.body rule).calls ∧ Format.rules.Makes inner :=
  (isOf.leaves shows.2).forall_mem (callsShow rule shows.1 shows.2)

theorem forall_children {called : Rule} (only : ∀ name ∈ (Format.body rule).calls, name = called) :
    ∀ inner ∈ part.children, IsOf called inner := fun inner mem =>
  (isOf.forall_mem_children shows inner mem).imp_left (only _)

theorem parts : Fills (Format.body rule).slots part.children ∧
    ∀ inner ∈ part.children, Format.rules.Makes inner :=
  ⟨(isOf.leaves shows.2).fills (callsShow rule shows.1 shows.2),
    fun inner mem => (isOf.forall_mem_children shows inner mem).2⟩

theorem first {called : Rule} {rest : List (Slot Rule)}
    (asked : (Format.body rule).slots = .one [called] :: rest) :
    ∃ inner others, part.children = inner :: others ∧ IsOf called inner ∧ Fills rest others ∧
      ∀ other ∈ others, Format.rules.Makes other := by
  obtain ⟨fills, made⟩ := isOf.parts shows
  rw [asked] at fills
  obtain ⟨inner, others, same, isCalled, fills⟩ := fills
  rw [same, List.forall_mem_cons] at made
  exact ⟨inner, others, same, ⟨List.mem_singleton.mp isCalled, made.1⟩, fills, made.2⟩

end

example : (Format.body .bnfProduction).slots =
    [.one [.productionHeader], .optional [.nodeDescriptor], .one [.javaBlock],
      .one [.expansionChoices]] := by decide

theorem optional {called : Rule} {parts : List Part} (fills : Fills [.optional [called]] parts)
    (made : ∀ inner ∈ parts, Format.rules.Makes inner) :
    parts = [] ∨ ∃ inner, parts = [inner] ∧ IsOf called inner := by
  rcases fills with rfl | ⟨inner, _, rfl, isCalled, rfl⟩
  · exact .inl rfl
  · exact .inr ⟨inner, rfl, List.mem_singleton.mp isCalled, List.forall_mem_singleton.mp made⟩

theorem expansionChoices (isOf : IsOf .expansionChoices part) :
    ∀ inner ∈ part.children, IsOf .expansionSequence inner :=
  isOf.forall_children (by decide) (by decide)

theorem expansionSequence (isOf : IsOf .expansionSequence part) :
    ∀ inner ∈ part.children, IsOf .scopedUnit inner :=
  isOf.forall_children (by decide) (by decide)

theorem scopedUnit (isOf : IsOf .scopedUnit part) :
    ∃ unit rest, part.children = unit :: rest ∧ unit.rule ∈ Format.expansionUnit.calls ∧
      Format.rules.Makes unit ∧
        (rest = [] ∨ ∃ descriptor, rest = [descriptor] ∧ IsOf .nodeDescriptor descriptor) := by
  obtain ⟨⟨unit, rest, same, isUnit, fills⟩, made⟩ := isOf.parts (by decide)
  rw [same, List.forall_mem_cons] at made
  exact ⟨unit, rest, same, isUnit, made.1, optional fills made.2⟩

theorem tryUnit (isOf : IsOf .tryUnit part) :
    ∃ choices clauses, part.children = choices :: clauses ∧ IsOf .expansionChoices choices ∧
      ∀ clause ∈ clauses, IsOf .catchClause clause ∨ IsOf .finallyClause clause := by
  obtain ⟨choices, _, same, isChoices, ⟨caught, last, rfl, areCaught, ending⟩, made⟩ :=
    isOf.first (by decide) rfl
  rw [List.forall_mem_append] at made
  refine ⟨choices, caught ++ last, same, isChoices, List.forall_mem_append.mpr ⟨?_, ?_⟩⟩
  · exact fun clause mem => .inl ⟨List.mem_singleton.mp (areCaught clause mem), made.1 clause mem⟩
  · rcases optional ending made.2 with rfl | ⟨clause, rfl, isEnding⟩
    · exact nofun
    · exact List.forall_mem_singleton.mpr (.inr isEnding)

end IsOf

/-- The parts of a production: its header, a descriptor if there is one, its block of code, and what
it expands to. -/
structure IsProduction (part header : Part) (descriptor : List Part) (block : Part)
    (rest : List Part) : Prop where
  children : part.children = header :: (descriptor ++ block :: rest)
  header : IsOf .productionHeader header
  descriptor : descriptor = [] ∨ ∃ d, descriptor = [d] ∧ IsOf .nodeDescriptor d
  block : IsOf .javaBlock block
  rest : part.rule = .javacodeProduction ∨ ∃ choices, rest = [choices] ∧
    IsOf .expansionChoices choices

/-- The rules of productions ask for a header, for a descriptor that may be left out, and for a
block. -/
theorem exists_isProduction {rule : Rule} {part : Part} {slots : List (Slot Rule)}
    (isOf : IsOf rule part) (shows : Format.kind rule ≠ .silent ∧ Format.kind rule ≠ .token)
    (asked : (Format.body rule).slots = .one [.productionHeader] :: .optional [.nodeDescriptor] ::
      .one [.javaBlock] :: slots)
    (expands : ∀ parts, Fills slots parts → (∀ inner ∈ parts, Format.rules.Makes inner) →
      part.rule = .javacodeProduction ∨ ∃ choices, parts = [choices] ∧
        IsOf .expansionChoices choices) :
    ∃ header descriptor block rest, IsProduction part header descriptor block rest := by
  obtain ⟨header, _, same, isHeader, fills, made⟩ := isOf.first shows asked
  rcases fills with ⟨block, rest, rfl, isBlock, fills⟩ |
    ⟨d, _, rfl, isDescriptor, block, rest, rfl, isBlock, fills⟩
  · rw [List.forall_mem_cons] at made
    exact ⟨header, [], block, rest,
      { children := same, header := isHeader, descriptor := .inl rfl
        block := ⟨List.mem_singleton.mp isBlock, made.1⟩, rest := expands rest fills made.2 }⟩
  · rw [List.forall_mem_cons, List.forall_mem_cons] at made
    exact ⟨header, [d], block, rest,
      { children := same, header := isHeader
        descriptor := .inr ⟨d, rfl, List.mem_singleton.mp isDescriptor, made.1⟩
        block := ⟨List.mem_singleton.mp isBlock, made.2.1⟩
        rest := expands rest fills made.2.2 }⟩

theorem exists_isProduction_of_bnf {part : Part} (isOf : IsOf .bnfProduction part) :
    ∃ header descriptor block rest, IsProduction part header descriptor block rest := by
  refine exists_isProduction isOf (by decide) rfl fun parts fills made => .inr ?_
  obtain ⟨choices, rfl, isChoices⟩ := fills.exists_single
  exact ⟨choices, rfl, List.mem_singleton.mp isChoices, List.forall_mem_singleton.mp made⟩

theorem exists_isProduction_of_javacode {part : Part} (isOf : IsOf .javacodeProduction part) :
    ∃ header descriptor block rest, IsProduction part header descriptor block rest :=
  exists_isProduction isOf (by decide) rfl fun _ _ _ => .inl isOf.1

/-! ### What is built of the parts -/

theorem eq_cons_of_next {part first : Part} {element : String} {parts rest : List Part}
    (next : part.next element parts = .ok (first, rest)) : parts = first :: rest := by
  cases parts with
  | nil => cases next
  | cons => cases next; rfl

theorem isDotted_of_buildDescriptor {part : Part} (isOf : IsOf .nodeDescriptor part)
    {d : Descriptor} (built : buildDescriptor part = .ok d) : isDotted d.name.toList = true := by
  obtain ⟨name, rest, same, isName, -⟩ := isOf.first (by decide) rfl
  suffices named : d.name = name.text by rw [named, isName.isDotted_text]
  obtain ⟨⟨first, others⟩, next, built⟩ := exists_of_bind_eq_ok built
  rw [same] at next
  cases eq_cons_of_next next
  cases rest with
  | nil =>
      cases built
      rfl
  | cons condition others =>
      obtain ⟨⟨body, left⟩, -, built⟩ := exists_of_bind_eq_ok built
      simp only at built
      split at built <;>
        cases built <;> rfl

/-- All descriptors that open a node have identifiers with dots between them as names. -/
def Expansion.HasNames (e : Expansion) : Prop :=
  ∀ node ∈ e.scopes, isDotted node.name.toList = true

namespace Expansion

theorem hasNames_sequence {units : List Expansion} (names : ∀ unit ∈ units, unit.HasNames) :
    (sequence units).HasNames := by
  intro node mem
  rw [scopes_sequence, List.mem_flatMap] at mem
  obtain ⟨unit, listed, inside⟩ := mem
  exact names unit listed node inside

theorem hasNames_choice {alternatives : List Expansion}
    (names : ∀ alternative ∈ alternatives, alternative.HasNames) :
    (choice alternatives).HasNames := by
  intro node mem
  rw [scopes_choice, List.mem_flatMap] at mem
  obtain ⟨alternative, listed, inside⟩ := mem
  exact names alternative listed node inside

theorem hasNames_annotated {inner : Expansion} {node : Descriptor} (names : inner.HasNames)
    (named : isDotted node.name.toList = true) : (annotated inner node).HasNames := by
  intro other mem
  rw [scopes_annotated] at mem
  split at mem
  · exact names other mem
  · rcases List.mem_cons.mp mem with rfl | inside
    · exact named
    · exact names other inside

theorem HasNames.of_scopes_eq {e inner : Expansion} (names : inner.HasNames)
    (same : e.scopes = inner.scopes) : e.HasNames := by
  rw [HasNames, same]
  exact names

theorem hasNames_of_scopes_eq_nil {e : Expansion} (none : e.scopes = []) : e.HasNames := by
  rw [HasNames, none]
  exact nofun

end Expansion

theorem scopes_of_buildAssigned {part : Part} {e : Expansion} {parts : List Part}
    {target : Option String} (built : buildAssigned part target parts = .ok e) :
    e.scopes = [] := by
  induction parts generalizing target with
  | nil => cases built
  | cons unit rest ih =>
      rw [buildAssigned] at built
      split at built
      · exact ih built
      · cases built
        rfl
      · obtain ⟨⟨name, inner⟩, -, built⟩ := exists_of_bind_eq_ok built
        obtain ⟨⟨arguments, others⟩, -, built⟩ := exists_of_bind_eq_ok built
        cases built
        rfl
      · cases built

mutual
theorem hasNames_of_buildChoices {e : Expansion} : ∀ part : Part, IsOf .expansionChoices part →
    buildChoices part = .ok e → e.HasNames
  | .node rule start stop text sequences, isOf, built => by
      rw [buildChoices] at built
      obtain ⟨alternatives, listed, built⟩ := exists_of_bind_eq_ok built
      have names := hasNames_of_buildSequences sequences isOf.expansionChoices listed
      split at built
      · cases built
        exact names _ (List.mem_singleton_self _)
      · cases built
        exact Expansion.hasNames_choice names

theorem hasNames_of_buildSequences {es : List Expansion} : ∀ parts : List Part,
    (∀ part ∈ parts, IsOf .expansionSequence part) → buildSequences parts = .ok es →
      ∀ e ∈ es, e.HasNames
  | [], _, built => by
      cases built
      exact nofun
  | part :: rest, areOf, built => by
      rw [buildSequences] at built
      obtain ⟨first, builtFirst, built⟩ := exists_of_bind_eq_ok built
      obtain ⟨others, builtRest, built⟩ := exists_of_bind_eq_ok built
      cases built
      rw [List.forall_mem_cons] at areOf ⊢
      exact ⟨hasNames_of_buildSequence part areOf.1 builtFirst,
        hasNames_of_buildSequences rest areOf.2 builtRest⟩

theorem hasNames_of_buildSequence {e : Expansion} : ∀ part : Part, IsOf .expansionSequence part →
    buildSequence part = .ok e → e.HasNames
  | .node rule start stop text units, isOf, built => by
      rw [buildSequence] at built
      obtain ⟨listed, builtUnits, built⟩ := exists_of_bind_eq_ok built
      have names := hasNames_of_buildUnits units isOf.expansionSequence builtUnits
      split at built
      · cases built
        exact names _ (List.mem_singleton_self _)
      · cases built
        exact Expansion.hasNames_sequence names

theorem hasNames_of_buildUnits {es : List Expansion} : ∀ parts : List Part,
    (∀ part ∈ parts, IsOf .scopedUnit part) → buildUnits parts = .ok es → ∀ e ∈ es, e.HasNames
  | [], _, built => by
      cases built
      exact nofun
  | part :: rest, areOf, built => by
      rw [buildUnits] at built
      obtain ⟨first, builtFirst, built⟩ := exists_of_bind_eq_ok built
      obtain ⟨others, builtRest, built⟩ := exists_of_bind_eq_ok built
      cases built
      rw [List.forall_mem_cons] at areOf ⊢
      exact ⟨hasNames_of_buildAnnotated part areOf.1 builtFirst,
        hasNames_of_buildUnits rest areOf.2 builtRest⟩

theorem hasNames_of_buildAnnotated {e : Expansion} : ∀ part : Part, IsOf .scopedUnit part →
    buildAnnotated part = .ok e → e.HasNames
  | .node _ _ _ _ [], _, built => by cases built
  | .node rule start stop text (unit :: rest), isOf, built => by
      obtain ⟨_, _, ⟨⟩, -, made, descriptor⟩ := isOf.scopedUnit
      rw [buildAnnotated] at built
      obtain ⟨inner, builtUnit, built⟩ := exists_of_bind_eq_ok built
      have names := hasNames_of_buildUnit unit made builtUnit
      split at built
      · cases built
        exact names
      · obtain ⟨d, builtDescriptor, built⟩ := exists_of_bind_eq_ok built
        cases built
        obtain ⟨_, ⟨⟩, isDescriptor⟩ := descriptor.resolve_left nofun
        exact Expansion.hasNames_annotated names
          (isDotted_of_buildDescriptor isDescriptor builtDescriptor)

theorem hasNames_of_buildUnit {e : Expansion} (part : Part) (made : Format.rules.Makes part)
    (built : buildUnit part = .ok e) : e.HasNames := by
  unfold buildUnit at built
  split at built
  · cases built
    exact Expansion.hasNames_of_scopes_eq_nil rfl
  · obtain ⟨⟨block, others⟩, -, built⟩ := exists_of_bind_eq_ok built
    cases built
    exact Expansion.hasNames_of_scopes_eq_nil rfl
  · next choices rest =>
      obtain ⟨_, _, ⟨⟩, isChoices, -⟩ :=
        (show IsOf .parenUnit _ from ⟨rfl, made⟩).first (by decide) rfl
      obtain ⟨inner, builtChoices, built⟩ := exists_of_bind_eq_ok built
      cases built
      exact (hasNames_of_buildChoices choices isChoices builtChoices).of_scopes_eq rfl
  · next choices rest =>
      obtain ⟨_, _, ⟨⟩, isChoices, -⟩ :=
        (show IsOf .optionalUnit _ from ⟨rfl, made⟩).first (by decide) rfl
      obtain ⟨inner, builtChoices, built⟩ := exists_of_bind_eq_ok built
      cases built
      exact (hasNames_of_buildChoices choices isChoices builtChoices).of_scopes_eq rfl
  · next choices rest =>
      obtain ⟨_, _, ⟨⟩, isChoices, -⟩ := IsOf.tryUnit ⟨rfl, made⟩
      obtain ⟨inner, builtChoices, built⟩ := exists_of_bind_eq_ok built
      obtain ⟨⟨catches, finallyCode⟩, -, built⟩ := exists_of_bind_eq_ok built
      cases built
      exact (hasNames_of_buildChoices choices isChoices builtChoices).of_scopes_eq rfl
  · exact Expansion.hasNames_of_scopes_eq_nil (scopes_of_buildAssigned built)
  all_goals cases built
end

/-! ### Productions -/

/-- The production has an identifier as name, and so have its nodes, but for dots. -/
structure Production.HasNames (p : Production) : Prop where
  name : isIdentifier p.name.toList = true
  descriptor : ∀ d ∈ p.descriptor, isDotted d.name.toList = true
  expansion : ∀ e ∈ p.expansion?, e.HasNames

theorem Production.HasNames.isDotted_of_mem_nodeNames {p : Production} (names : p.HasNames)
    {defaultVoid : Bool} {name : String} (mem : name ∈ p.nodeNames defaultVoid) :
    isDotted name.toList = true := by
  rcases List.mem_append.mp mem with own | inside
  · rw [Option.mem_toList, Production.nodeName?] at own
    split at own
    · next d described =>
        split at own <;> cases own
        exact names.descriptor d described
    · split at own <;> cases own
      exact isDotted_of_isIdentifier names.name
  · obtain ⟨node, opened, rfl⟩ := List.mem_map.mp inside
    cases expanded : p.expansion? with
    | none => simp [expanded] at opened
    | some e => exact names.expansion e expanded node (by simpa [expanded] using opened)

theorem isIdentifier_of_add {header later : Header} {part : Part} (made : Format.rules.Makes part)
    (named : ∀ name ∈ header.name, isIdentifier name.toList = true)
    (added : header.add part = .ok later) :
    ∀ name ∈ later.name, isIdentifier name.toList = true := by
  unfold Header.add at added
  split at added <;> cases added
  all_goals try exact named
  next rule =>
    rintro name ⟨⟩
    exact IsOf.isIdentifier_text ⟨rule, made⟩

/-- What every part of a header keeps, all of them keep together. -/
theorem holds_of_foldlM_add {P : Header → Prop} {header later : Header} {parts : List Part}
    (keeps : ∀ part ∈ parts, ∀ header later,
      P header → Header.add header part = .ok later → P later)
    (start : P header) (added : parts.foldlM Header.add header = .ok later) : P later := by
  induction parts generalizing header with
  | nil =>
      cases added
      exact start
  | cons part rest ih =>
      rw [List.foldlM_cons] at added
      obtain ⟨next, here, added⟩ := exists_of_bind_eq_ok added
      rw [List.forall_mem_cons] at keeps
      exact ih keeps.2 (keeps.1 header next start here) added

theorem isIdentifier_of_foldlM_add {header later : Header} {parts : List Part}
    (made : ∀ part ∈ parts, Format.rules.Makes part)
    (named : ∀ name ∈ header.name, isIdentifier name.toList = true)
    (added : parts.foldlM Header.add header = .ok later) :
    ∀ name ∈ later.name, isIdentifier name.toList = true :=
  holds_of_foldlM_add (P := fun header => ∀ name ∈ header.name, isIdentifier name.toList = true)
    (fun part mem _ _ named added => isIdentifier_of_add (made part mem) named added) named added

theorem isDotted_of_buildOptionalDescriptor {descriptor : List Part} {block : Part}
    {others rest : List Part} {node : Option Descriptor}
    (areOf : descriptor = [] ∨ ∃ d, descriptor = [d] ∧ IsOf .nodeDescriptor d)
    (isBlock : IsOf .javaBlock block)
    (built : buildOptionalDescriptor (descriptor ++ block :: others) = .ok (node, rest)) :
    rest = block :: others ∧ ∀ d ∈ node, isDotted d.name.toList = true := by
  rcases areOf with rfl | ⟨part, rfl, isPart⟩
  · rw [List.nil_append, buildOptionalDescriptor, if_neg (by rw [isBlock.1]; decide)] at built
    cases built
    exact ⟨rfl, nofun⟩
  · rw [List.singleton_append, buildOptionalDescriptor, if_pos isPart.1] at built
    obtain ⟨d, builtDescriptor, built⟩ := exists_of_bind_eq_ok built
    cases built
    refine ⟨rfl, ?_⟩
    rintro _ ⟨⟩
    exact isDotted_of_buildDescriptor isPart builtDescriptor

/-- A production takes over the header and the descriptor of its parts, and its expansion is built
of the alternatives behind its block. -/
theorem exists_of_buildProduction {part header block : Part} {descriptor rest : List Part}
    {p : Production} (parts : IsProduction part header descriptor block rest)
    (built : buildProduction part = .ok p) :
    ∃ written : Header, header.children.foldlM Header.add {} = .ok written ∧
      written.name = some p.name ∧
      buildOptionalDescriptor (descriptor ++ block :: rest) = .ok (p.descriptor, block :: rest) ∧
      ∀ e ∈ p.expansion?, ∃ choices, IsOf .expansionChoices choices ∧
        buildChoices choices = .ok e := by
  obtain ⟨⟨first, others⟩, next, built⟩ := exists_of_bind_eq_ok built
  rw [parts.children] at next
  cases eq_cons_of_next next
  obtain ⟨written, added, built⟩ := exists_of_bind_eq_ok built
  split at built
  · next name given =>
      obtain ⟨⟨node, behind⟩, described, built⟩ := exists_of_bind_eq_ok built
      obtain ⟨rfl, -⟩ :=
        isDotted_of_buildOptionalDescriptor parts.descriptor parts.block described
      obtain ⟨⟨code, expanded⟩, next, built⟩ := exists_of_bind_eq_ok built
      cases eq_cons_of_next next
      simp only at built
      split at built
      · cases built
        exact ⟨written, added, given, described, nofun⟩
      · next isBnf =>
          obtain ⟨⟨choices, none⟩, next, built⟩ := exists_of_bind_eq_ok built
          obtain ⟨e, builtChoices, built⟩ := exists_of_bind_eq_ok built
          cases built
          obtain ⟨_, rfl, isChoices⟩ := parts.rest.resolve_left isBnf
          cases eq_cons_of_next next
          refine ⟨written, added, given, described, ?_⟩
          rintro _ ⟨⟩
          exact ⟨choices, isChoices, builtChoices⟩
  · cases built

theorem hasNames_of_buildProduction {part header block : Part} {descriptor rest : List Part}
    {p : Production} (parts : IsProduction part header descriptor block rest)
    (built : buildProduction part = .ok p) : p.HasNames := by
  obtain ⟨written, added, given, described, expanded⟩ := exists_of_buildProduction parts built
  refine ⟨?_, ?_, fun e expands => ?_⟩
  · exact isIdentifier_of_foldlM_add (parts.header.parts (by decide)).2
      (fun name none => by cases none) added p.name given
  · exact (isDotted_of_buildOptionalDescriptor parts.descriptor parts.block described).2
  · obtain ⟨choices, isChoices, builtChoices⟩ := expanded e expands
    exact hasNames_of_buildChoices choices isChoices builtChoices

/-! ### Files -/

theorem isIdentifier_of_buildParserUnit {part : Part} {unit : ParserUnit}
    (isOf : IsOf .parserDecl part) (built : buildParserUnit part = .ok unit) :
    isIdentifier unit.name.toList = true := by
  obtain ⟨name, rest, same, isName, -⟩ := isOf.first (by decide) rfl
  obtain ⟨⟨opening, others⟩, next, built⟩ := exists_of_bind_eq_ok built
  rw [same] at next
  cases eq_cons_of_next next
  obtain ⟨⟨body, behind⟩, -, built⟩ := exists_of_bind_eq_ok built
  obtain ⟨⟨closing, others⟩, -, built⟩ := exists_of_bind_eq_ok built
  simp only at built
  split at built
  · cases built
    exact isName.isIdentifier_text
  · cases built

inductive IsBuiltOf (part : Part) : Item → Prop
  | options (entries : List OptionEntry) : IsBuiltOf part (.options entries)
  | parser {unit : ParserUnit} (isOf : IsOf .parserDecl part)
      (built : buildParserUnit part = .ok unit) : IsBuiltOf part (.parser unit)
  | verbatim (text : String) : IsBuiltOf part (.verbatim text)
  | production {header block : Part} {descriptor rest : List Part} {p : Production}
      (parts : IsProduction part header descriptor block rest)
      (built : buildProduction part = .ok p) : IsBuiltOf part (.production p)

theorem isBuiltOf_of_buildItem {part : Part} {item : Item} (made : Format.rules.Makes part)
    (built : buildItem part = .ok (some item)) : IsBuiltOf part item := by
  unfold buildItem at built
  split at built
  · obtain ⟨entries, -, built⟩ := exists_of_bind_eq_ok built
    cases built
    exact .options entries
  · next rule =>
      obtain ⟨unit, builtUnit, built⟩ := exists_of_bind_eq_ok built
      cases built
      exact .parser ⟨rule, made⟩ builtUnit
  · cases built
    exact .verbatim _
  · cases built
    exact .verbatim _
  · next rule =>
      obtain ⟨p, builtProduction, built⟩ := exists_of_bind_eq_ok built
      cases built
      obtain ⟨_, _, _, _, parts⟩ := exists_isProduction_of_bnf ⟨rule, made⟩
      exact .production parts builtProduction
  · next rule =>
      obtain ⟨p, builtProduction, built⟩ := exists_of_bind_eq_ok built
      cases built
      obtain ⟨_, _, _, _, parts⟩ := exists_isProduction_of_javacode ⟨rule, made⟩
      exact .production parts builtProduction
  all_goals cases built

def Item.HasNames : Item → Prop
  | .parser unit => isIdentifier unit.name.toList = true
  | .production p => p.HasNames
  | .options _ | .verbatim _ => True

theorem IsBuiltOf.hasNames {part : Part} {item : Item} (built : IsBuiltOf part item) :
    item.HasNames := by
  cases built with
  | options | verbatim => trivial
  | parser isOf built => exact isIdentifier_of_buildParserUnit isOf built
  | production parts built => exact hasNames_of_buildProduction parts built

theorem exists_mem_of_mapM_eq_ok {ε α β : Type} {read : α → Except ε β} {items : List α}
    {results : List β} (done : items.mapM read = .ok results) :
    ∀ result ∈ results, ∃ item ∈ items, read item = .ok result := by
  induction items generalizing results with
  | nil =>
      cases done
      exact nofun
  | cons item rest ih =>
      rw [List.mapM_cons] at done
      obtain ⟨first, here, done⟩ := exists_of_bind_eq_ok done
      obtain ⟨others, behind, done⟩ := exists_of_bind_eq_ok done
      cases done
      rw [List.forall_mem_cons]
      refine ⟨⟨item, List.mem_cons_self, here⟩, fun result mem => ?_⟩
      exact (ih behind result mem).imp fun _ => And.imp_left (List.mem_cons_of_mem _)

theorem exists_file_of_read {path text : String} {g : Grammar} (done : read path text = .ok g) :
    ∃ file items, IsOf .file file ∧ file.children.mapM buildItem = .ok items ∧
      g.items = items.filterMap id := by
  unfold read at done
  split at done
  · next file parsed =>
      have isOf := Rules.makes_of_parse isRuleFree_blank (by decide) parsed
      obtain ⟨items, built, done⟩ := exists_of_bind_eq_ok done
      cases done
      exact ⟨file, items, isOf, built, rfl⟩
  · cases done

theorem exists_buildItem_of_read {path text : String} {g : Grammar}
    (done : read path text = .ok g) :
    ∀ item ∈ g.items, ∃ part, Format.rules.Makes part ∧ buildItem part = .ok (some item) := by
  obtain ⟨file, items, isOf, built, same⟩ := exists_file_of_read done
  intro item mem
  obtain ⟨part, listed, builtItem⟩ :=
    exists_mem_of_mapM_eq_ok built (some item) (by simpa [same] using mem)
  exact ⟨part, (isOf.parts (by decide)).2 part listed, builtItem⟩

theorem exists_isBuiltOf_of_read {path text : String} {g : Grammar}
    (done : read path text = .ok g) : ∀ item ∈ g.items, ∃ part, IsBuiltOf part item := by
  intro item mem
  obtain ⟨part, made, built⟩ := exists_buildItem_of_read done item mem
  exact ⟨part, isBuiltOf_of_buildItem made built⟩

theorem hasNames_of_read {path text : String} {g : Grammar} (done : read path text = .ok g) :
    ∀ item ∈ g.items, item.HasNames := by
  intro item mem
  obtain ⟨part, built⟩ := exists_isBuiltOf_of_read done item mem
  exact built.hasNames

variable {g : Grammar} (named : ∀ item ∈ g.items, item.HasNames)

include named

theorem isIdentifier_of_parserUnit? {unit : ParserUnit} (declared : g.parserUnit? = some unit) :
    isIdentifier unit.name.toList = true := by
  obtain ⟨item, mem, same⟩ := List.exists_of_findSome?_eq_some declared
  split at same
  · cases same
    exact named _ mem
  · cases same

theorem hasNames_of_mem_productions {p : Production} (mem : p ∈ g.productions) : p.HasNames := by
  obtain ⟨item, listed, same⟩ := List.mem_filterMap.mp mem
  split at same
  · cases same
    exact named _ listed
  · cases same

/-- The names of declared nodes are identifiers with dots between them. -/
theorem isDotted_of_mem_nodeNames {defaultVoid : Bool} {name : String}
    (mem : name ∈ g.nodeNames defaultVoid) : isDotted name.toList = true := by
  rw [nodeNames, mem_distinct] at mem
  obtain ⟨owner, opened, rfl⟩ := List.mem_map.mp mem
  obtain ⟨p, listed, inside⟩ := List.mem_flatMap.mp opened
  obtain ⟨name, opens, rfl⟩ := List.mem_map.mp inside
  exact (hasNames_of_mem_productions named listed).isDotted_of_mem_nodeNames opens

end NodeWeave.Grammar
