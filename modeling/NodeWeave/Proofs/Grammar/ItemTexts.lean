import NodeWeave.Proofs.Grammar.HeaderTexts

/-!
Items of grammar files, and the texts that are read as one of them. Main statements: a text that
begins with the header of a production is that of no other item; and items one behind the other are
read as such.
-/

namespace NodeWeave.Grammar.Format

open Peg Peg.Expr Peg.Rules Lexis Text

variable {t u v s name : List Char} {c : Char}

/-! ### Texts that begin with a header -/

/-- What stands behind the first name of a header. -/
def GoesOn (t : List Char) : Prop :=
  (∃ c rest, t = c :: rest ∧ (isNameChar c = true ∨ c = '.' ∨ c = '<')) ∨
    ∃ rest, t = '[' :: ']' :: rest

theorem GoesOn.head?_ne (goes : GoesOn t) {o : Char} (sign : isNameChar o = false)
    (other : o ∉ ['.', '<', '[']) : t.head? ≠ some o := by
  simp only [List.mem_cons, List.not_mem_nil, or_false, not_or] at other
  rcases goes with ⟨c, rest, rfl, named | rfl | rfl⟩ | ⟨rest, rfl⟩
  · exact head?_cons_ne_of_isNameChar sign named
  · simpa [eq_comm] using other.1
  · simpa [eq_comm] using other.2.1
  · simpa [eq_comm] using other.2.2

/-- The text begins with a name and goes on like a header. -/
def IsHeaded (t : List Char) : Prop :=
  ∃ name s u, t = name ++ s ∧ isIdentifier name = true ∧ (∀ c ∈ s.head?, isNameChar c = false) ∧
    Skipped s u ∧ GoesOn u

namespace Heading

variable {h : Heading}

/-- Behind the first identifier of a result type stands a sign, or the name of the production. -/
theorem behind_cases (closed : h.IsClosed) (u : List Char) :
    (∃ c rest, h.behind ++ u = c :: rest ∧ (c = '.' ∨ c = '<')) ∨
      (∃ rest, h.behind ++ u = '[' :: ']' :: rest) ∨
        h.behind ++ u = ' ' :: (h.name ++ '(' :: (h.parameters ++ ')' :: u)) := by
  rcases closed.tail.dots with none | ⟨dotted, dots, -⟩
  · rcases closed.tail.angled with noAngle | ⟨inner, angled, -⟩
    · rcases closed.tail.squares_cases with noSquare | ⟨more, squares⟩
      · exact .inr (.inr (by simp [behind, none, noAngle, noSquare]))
      · exact .inr (.inl ⟨_, by rw [behind, none, noAngle, squares]; rfl⟩)
    · exact .inl ⟨'<', _, by rw [behind, none, angled]; rfl, .inr rfl⟩
  · exact .inl ⟨'.', _, by rw [behind, dots]; rfl, .inl rfl⟩

theorem noName_behind (closed : h.IsClosed) (u : List Char) :
    ∀ c ∈ (h.behind ++ u).head?, isNameChar c = false := by
  have := closed.tail.noName (u := h.name ++ '(' :: (h.parameters ++ ')' :: u))
  simpa [behind] using this

/-- Behind the blank that may stand behind a type, a header goes on. -/
theorem exists_goesOn (closed : h.IsClosed) (u : List Char) :
    ∃ t, Skipped (h.behind ++ u) t ∧ GoesOn t := by
  rcases behind_cases closed u with ⟨c, rest, same, sign⟩ | ⟨rest, same⟩ | same
  · refine ⟨_, .here ?_, .inl ⟨c, rest, same, .inr sign⟩⟩
    rw [same]
    rcases sign with rfl | rfl
    · exact solid_cons rfl (by decide)
    · exact solid_cons rfl (by decide)
  · refine ⟨_, .here ?_, .inr ⟨rest, same⟩⟩
    rw [same]
    exact solid_cons rfl (by decide)
  · rw [same]
    obtain ⟨d, more, named, first, -⟩ := exists_cons_of_isIdentifier closed.name
    refine ⟨_, .space (.here (solid_of_isIdentifier closed.name)), .inl
      ⟨d, more ++ '(' :: (h.parameters ++ ')' :: u),
      ?_, .inl (isNameChar_of_isNameStart first)⟩⟩
    rw [named]
    rfl

theorem isHeaded (closed : h.IsClosed) (u : List Char) : IsHeaded (h.text ++ u) := by
  cases modified : h.modifier with
  | none =>
      obtain ⟨t, skipped, goes⟩ := exists_goesOn closed u
      exact ⟨h.first, h.behind ++ u, t, by simp [text, modified, typed], closed.first,
        noName_behind closed u, skipped, goes⟩
  | some w =>
      obtain ⟨d, more, named, first, -⟩ := exists_cons_of_isIdentifier closed.first
      refine ⟨w.toList, ' ' :: (h.typed ++ u), h.typed ++ u, by simp [text, modified],
        isIdentifier_of_mem_modifiers w (closed.modifier w modified), by rintro _ ⟨⟩; rfl,
          .space (.here ?_),
        .inl ⟨d, more ++ h.behind ++ u, ?_, .inl (isNameChar_of_isNameStart first)⟩⟩
      · rw [typed, List.append_assoc]
        exact solid_of_isIdentifier closed.first
      · rw [typed, named]
        rfl

end Heading

namespace IsHeaded

theorem solid (headed : IsHeaded t) : Solid t := by
  obtain ⟨name, s, u, rfl, identifier, -⟩ := headed
  exact solid_of_isIdentifier identifier

theorem head?_ne (headed : IsHeaded t) {o : Char} (sign : isNameStart o = false) :
    t.head? ≠ some o := by
  obtain ⟨name, s, u, rfl, identifier, -⟩ := headed
  obtain ⟨d, more, rfl, first, -⟩ := exists_cons_of_isIdentifier identifier
  rintro ⟨⟩
  rw [first] at sign
  cases sign

theorem rejects_tokenManagerDecls (headed : IsHeaded t) : Rejects (.rule .tokenManagerDecls) t := by
  obtain ⟨name, s, u, rfl, identifier, stop, skipped, goes⟩ := headed
  refine rejects_rule rfl (rejects_keyword (by decide) stop skipped (fun named => ?_) (fun _ => ?_)
    (all_of_isIdentifier identifier))
  · exact .seq (rejects_word ':' rfl (head?_cons_ne_of_isNameChar rfl named))
  · exact .seq (rejects_word ':' rfl (goes.head?_ne rfl (by decide)))

theorem rejects_regexprProduction (headed : IsHeaded t) : Rejects (.rule .regexprProduction) t := by
  have noStates : Rejects (.rule .lexicalStates) t :=
    rejects_rule rfl (.seq (rejects_word '<' rfl (headed.head?_ne rfl)))
  refine rejects_rule rfl (rejects_seq (.noOpt headed.solid noStates) ?_)
  obtain ⟨name, s, u, rfl, identifier, stop, skipped, goes⟩ := headed
  rcases takes_or_refuses_keyword named_of_mem_tokenKinds (all_of_isIdentifier identifier) stop
    with refused | ⟨w, -, -, taken⟩
  · exact .seq (rejects_token rfl refused)
  · -- A word for tokens is the name of a result type here, and no colon stands behind it.
    have kind := (passes_token .regexprKind rfl taken).gets skipped
    have noCase : Rejects (word "[" >> word "IGNORE_CASE" >> word "]") u := by
      rcases goes with ⟨c, rest, rfl, sign⟩ | ⟨rest, rfl⟩
      · refine .seq (rejects_word '[' rfl ?_)
        rcases sign with named | rfl | rfl
        · exact head?_cons_ne_of_isNameChar rfl named
        · simp
        · simp
      · exact rejects_seq ((passes_word "[").gets (.here (solid_cons rfl (by decide))))
          (.seq (rejects_word 'I' rfl (by simp)))
    exact rejects_seq kind (rejects_seq (.noOpt skipped.solid noCase)
      (.seq (rejects_word ':' rfl (goes.head?_ne rfl (by decide)))))

end IsHeaded

/-! ### Words in front of a header -/

theorem rejects_resultType (other : ∀ c ∈ t.head?, isNameStart c = false) :
    Rejects (.rule .resultType) t :=
  rejects_token rfl (.seq (.rule (refuses_qualifiedName other)))

/-- A header without a modifier and without a type begins nowhere else. -/
theorem rejects_productionHeader (other : ∀ c ∈ t.head?, isNameStart c = false) (solid : Solid t) :
    Rejects (.rule .productionHeader) t := by
  have noModifier : Rejects (.rule .accessModifier) t := by
    have apart {w : String} (begins : w.toList.head? = some 'p') : Refuses (word w) t := by
      refine refuses_word 'p' begins fun same => ?_
      have := other 'p' same
      cases this
    exact rejects_token rfl (.seq (.alt (apart rfl) (.alt (apart rfl) (apart rfl))))
  exact rejects_rule rfl (rejects_seq (.noOpt solid noModifier) (.seq (rejects_resultType other)))

/-- A name with a parenthesis behind it is a type, and no name stands behind that. -/
theorem rejects_typed_name (identifier : isIdentifier name = true) (e : Expr Rule) :
    Rejects (.rule .resultType >> .rule .identifier >> e) (name ++ '(' :: u) := by
  have none : Takes (.opt angled >> .star (word "[" >> word "]")) [] ('(' :: u) :=
    Takes.seq (w := []) token_ne_spaced (.noOpt (.seq (refuses_word '<' rfl (by simp))))
      (.noStar (.seq (refuses_word '[' rfl (by simp))))
  have taken : Takes (Format.body .resultType) name ('(' :: u) := by
    rw [← List.append_nil name]
    exact .seq token_ne_spaced (takes_rule_qualifiedName (isDotted_of_isIdentifier identifier)
      (by rintro _ ⟨⟩; decide)) none
  have noName : Rejects (.rule .identifier) ('(' :: u) :=
    rejects_token rfl (.seq (.one (by rintro _ ⟨⟩; rfl)))
  exact rejects_seq ((passes_token .resultType rfl taken).gets (.here (solid_cons rfl (by decide))))
    (.seq noName)

theorem rejects_header_name (identifier : isIdentifier name = true) :
    Rejects (.rule .productionHeader) (name ++ '(' :: u) := by
  have stop : ∀ c ∈ ('(' :: u).head?, isNameChar c = false := by
    rintro _ ⟨⟩
    rfl
  refine rejects_rule rfl ?_
  rcases takes_or_refuses_keyword named_of_mem_modifiers (all_of_isIdentifier identifier) stop
    with refused | ⟨w, -, -, taken⟩
  · exact rejects_seq (.noOpt (solid_of_isIdentifier identifier) (rejects_token rfl refused))
      (rejects_typed_name identifier _)
  · have modifier := (passes_token .accessModifier rfl taken).gets
      (.here (solid_cons rfl (by decide)))
    exact rejects_seq modifier.opt (.seq (rejects_resultType (by rintro _ ⟨⟩; rfl)))

namespace Heading

variable {h : Heading}

/-- Without the first identifier of its result type, a header is none. -/
theorem exists_rejects_behind (closed : h.IsClosed) (e : Expr Rule) (u : List Char) :
    ∃ t, Skipped (h.behind ++ u) t ∧ Rejects (.rule .resultType >> .rule .identifier >> e) t ∧
      Rejects (.rule .productionHeader) t := by
  have signed {o : Char} {rest : List Char} (sign : isNameStart o = false)
      (solid : Solid (o :: rest)) (same : h.behind ++ u = o :: rest) :
      ∃ t, Skipped (h.behind ++ u) t ∧
        Rejects (.rule .resultType >> .rule .identifier >> e) t ∧
          Rejects (.rule .productionHeader) t := by
    have other : ∀ c ∈ (o :: rest).head?, isNameStart c = false := by
      rintro _ ⟨⟩
      exact sign
    exact ⟨_, by rw [same]; exact .here solid, .seq (rejects_resultType other),
      rejects_productionHeader other solid⟩
  rcases behind_cases closed u with ⟨c, rest, same, rfl | rfl⟩ | ⟨rest, same⟩ | same
  · exact signed rfl (solid_cons rfl (by decide)) same
  · exact signed rfl (solid_cons rfl (by decide)) same
  · exact signed rfl (solid_cons rfl (by decide)) same
  · rw [same]
    exact ⟨_, .space (.here (solid_of_isIdentifier closed.name)), rejects_typed_name closed.name e,
      rejects_header_name closed.name⟩

/-- Whatever is left of the first identifier of its result type, a header with a colon behind it is
not followed by a block. -/
theorem rejects_headed_block (closed : h.IsClosed) {throws : List (List Char)}
    (dotted : ∀ name ∈ throws, isDotted name = true) {d : Char} {more : List Char}
    (all : ∀ c ∈ d :: more, isNameChar c = true) :
    Rejects (.rule .productionHeader >> .opt (.rule .nodeDescriptor) >> .rule .javaBlock)
      (d :: more ++ (h.behind ++ (throwsText throws ++ ' ' :: ':' :: u))) := by
  rw [List.forall_mem_cons] at all
  cases start : isNameStart d with
  | false =>
      refine .seq (rejects_productionHeader ?_ (solid_of_isNameChar all.1))
      rintro _ ⟨⟩
      exact start
  | true =>
      have identifier : isIdentifier (d :: more) = true := by
        rw [isIdentifier, start, List.all_eq_true.mpr all.2]
        rfl
      by_cases modifier : ∃ w ∈ modifiers, d :: more = w.toList
      · obtain ⟨w, listed, same⟩ := modifier
        obtain ⟨t, skipped, refused, -⟩ := exists_rejects_behind closed
          (word "(" >> .rule .parenContent >> word ")" >> .opt (.rule .throwsClause))
          (throwsText throws ++ ' ' :: ':' :: u)
        have apart : ∀ w ∈ modifiers, ∀ x ∈ modifiers, x.toList <+: w.toList → x = w := by decide
        have taken : Takes (Format.body .accessModifier) w.toList
            (h.behind ++ (throwsText throws ++ ' ' :: ':' :: u)) :=
          takes_keyword named_of_mem_modifiers (apart w listed) listed (noName_behind closed _)
        have modified := (passes_token .accessModifier rfl taken).gets skipped
        rw [same]
        exact .seq (rejects_rule rfl (rejects_seq modified.opt refused))
      · let other : Heading := { h with modifier := none, first := d :: more }
        have closedOther : other.IsClosed :=
          { closed with
            modifier := fun _ given => by cases given
            plain := fun _ w listed same => modifier ⟨w, listed, same⟩
            first := identifier }
        have whole : other.text = d :: more ++ h.behind := rfl
        have header := gets (u := u) closedOther dotted (.inl rfl)
        rw [whole, List.append_assoc] at header
        exact rejects_seq header (rejects_seq
          (.noOpt (solid_cons rfl (by decide)) (rejects_nodeDescriptor (by simp)))
          (rejects_javaBlock (by simp)))

/-- A header with a colon behind it is none of a production of code, also where its result type
begins like the word in front of such productions. -/
theorem rejects_javacodeProduction (closed : h.IsClosed) {throws : List (List Char)}
    (dotted : ∀ name ∈ throws, isDotted name = true) :
    Rejects (.rule .javacodeProduction) (h.text ++ (throwsText throws ++ ' ' :: ':' :: u)) := by
  have named : ∀ c ∈ "JAVACODE".toList, isNameChar c = true := by decide
  refine rejects_rule rfl ?_
  cases modified : h.modifier with
  | some w =>
      have other : ∀ w ∈ modifiers, w.toList.head? = some 'p' := by decide
      refine .seq (rejects_word 'J' rfl ?_)
      rw [text, modified, List.append_assoc]
      rw [head?_append_of_head? (other w (closed.modifier w modified))]
      decide
  | none =>
      have whole : h.text ++ (throwsText throws ++ ' ' :: ':' :: u) =
          h.first ++ (h.behind ++ (throwsText throws ++ ' ' :: ':' :: u)) := by
        simp [text, modified, typed]
      by_cases front : "JAVACODE".toList <+: h.first ++
        (h.behind ++ (throwsText throws ++ ' ' :: ':' :: u))
      · obtain ⟨m, same⟩ := exists_of_prefix named (noName_behind closed _) front
        have all := all_of_isIdentifier closed.first
        rw [same] at all
        rw [whole, same, List.append_assoc]
        cases m with
        | nil =>
            obtain ⟨t, skipped, -, refused⟩ :=
              exists_rejects_behind closed .done (throwsText throws ++ ' ' :: ':' :: u)
            exact rejects_seq ((passes_word "JAVACODE").gets skipped) (.seq refused)
        | cons d more =>
            have goes := all d (by simp)
            exact rejects_seq ((passes_word "JAVACODE").gets (.here (solid_of_isNameChar goes)))
              (rejects_headed_block closed dotted fun c mem => all c (List.mem_append_right _ mem))
      · rw [whole]
        exact .seq (.text front)

end Heading

/-! ### Productions -/

structure IsPlain (h : Heading) (throws : List (List Char)) (p : Production) : Prop where
  name : p.name = String.ofList h.name
  header : p.header = String.ofList h.text
  throws : p.throws = throws.map String.ofList
  descriptor : p.descriptor = none
  expansion : ∀ e ∈ p.expansion?, e.HasNoNodes

/-- A single tree of which an item of this kind is built. -/
def Items (kind : Item → Prop) (trees : List Part) : Prop :=
  ∃ part built, trees = [part] ∧ buildItem part = .ok (some built) ∧ kind built

def IsItemText (kind : Item → Prop) (text : List Char) : Prop :=
  ∀ ⦃u v : List Char⦄, Skipped u v → Solid (text ++ u) ∧ Gets item (text ++ u) v (Items kind)

theorem IsItemText.imp {kind other : Item → Prop} {text : List Char} (is : IsItemText kind text)
    (implies : ∀ item, kind item → other item) : IsItemText other text := by
  intro u v skipped
  obtain ⟨solid, gets⟩ := is skipped
  refine ⟨solid, gets.imp ?_⟩
  rintro _ ⟨part, item, rfl, built, held⟩
  exact ⟨part, item, rfl, built, implies item held⟩

/-- A production with rules that has this header and opens no node. -/
def IsRules (h : Heading) (throws : List (List Char)) (item : Item) : Prop :=
  ∃ p declarations e, item = .production p ∧ p.body = .rules declarations e ∧ IsPlain h throws p

/-- A production of code that has this header and opens no node. -/
def IsCoded (h : Heading) (throws : List (List Char)) (item : Item) : Prop :=
  ∃ p code, item = .production p ∧ p.body = .code code ∧ IsPlain h throws p

section

variable {header block part : Part} {written name front : String} {names : List String}
  {start stop : Nat} {e : Expansion}

theorem buildItem_rules
    (added : header.children.foldlM Header.add {} = .ok ⟨written, some name, names⟩)
    (rule : block.rule = .javaBlock) (built : buildChoices part = .ok e) :
    buildItem (.node .bnfProduction start stop front [header, block, part]) =
      .ok (some (.production
        { name, header := written, throws := names, descriptor := none,
          body := .rules block.blockText e, offset := start })) := by
  have none : buildOptionalDescriptor [block, part] = .ok (none, [block, part]) := by
    rw [buildOptionalDescriptor, if_neg (by rw [rule]; decide)]
  have children : Tree.children (.node .bnfProduction start stop front [header, block, part]) =
    [header, block, part] := rfl
  simp only [buildItem, Tree.rule, buildProduction, children, Part.next, bind, Except.bind, added,
    none, built]
  rfl

theorem buildItem_code
    (added : header.children.foldlM Header.add {} = .ok ⟨written, some name, names⟩)
    (rule : block.rule = .javaBlock) :
    buildItem (.node .javacodeProduction start stop front [header, block]) =
      .ok (some (.production
        { name, header := written, throws := names, descriptor := none,
          body := .code block.blockText, offset := start })) := by
  have none : buildOptionalDescriptor [block] = .ok (none, [block]) := by
    rw [buildOptionalDescriptor, if_neg (by rw [rule]; decide)]
  have children : Tree.children (.node .javacodeProduction start stop front [header, block]) =
    [header, block] := rfl
  simp only [buildItem, Tree.rule, buildProduction, children, Part.next, bind, Except.bind, added,
    none]
  rfl

end

section

variable {h : Heading} {throws : List (List Char)} {declarations body gap more : List Char}

def rulesText (h : Heading) (throws : List (List Char)) (declarations body gap more : List Char) :
    List Char :=
  h.text ++ (throwsText throws ++ ' ' :: ':' :: (gap ++ ('\x7b' :: declarations ++ '\x7d' ::
    (more ++ '\x7b' :: (body ++ ['\x7d'])))))

theorem isItemText_rules (closed : h.IsClosed) (dotted : ∀ name ∈ throws, isDotted name = true)
    (code : Bracket.brace.lexis.Closes 0 declarations) (choices : Choices body) (first : IsGap gap)
    (second : IsGap more) :
    IsItemText (IsRules h throws) (rulesText h throws declarations body gap more) := by
  intro u v skipped
  have whole : rulesText h throws declarations body gap more ++ u =
      h.text ++ (throwsText throws ++ ' ' :: ':' :: (gap ++ ('\x7b' :: declarations ++ '\x7d' ::
        (more ++ '\x7b' :: (body ++ '\x7d' :: u))))) := by
    simp [rulesText]
  rw [whole]
  have headed := Heading.isHeaded closed (throwsText throws ++ ' ' :: ':' :: (gap ++
    ('\x7b' :: declarations ++ '\x7d' :: (more ++ '\x7b' :: (body ++ '\x7d' :: u)))))
  refine ⟨headed.solid, .altSecond headed.rejects_tokenManagerDecls
    (.altSecond headed.rejects_regexprProduction
      (.altSecond (Heading.rejects_javacodeProduction closed dotted) ?_))⟩
  have closing : Skipped ('\x7d' :: u) ('\x7d' :: u) := .here (solid_cons rfl (by decide))
  obtain ⟨t, skippedText, gets⟩ := choices.exists_gets closing ⟨'\x7d', u, rfl, by simp⟩
  have opening {s : List Char} : Skipped ('\x7b' :: s) ('\x7b' :: s) :=
    .here (solid_cons rfl (by decide))
  have row := (Heading.gets closed dotted (.inl rfl)).seq
    ((Gets.noOpt (solid_cons rfl (by decide)) (rejects_nodeDescriptor (by simp))).seq
      (((passes_word ":").gets (first opening)).seq
        (((passes_javaBlock code).gets (second opening)).seq
          (((passes_word "\x7b").gets skippedText).seq
            (gets.seq ((passes_word "\x7d").gets skipped))))))
  refine (Gets.rule .bnfProduction rfl row).imp ?_
  rintro _ ⟨front, start, stop, _, rfl, _, _, rfl, ⟨header, rfl, -, added⟩, _, _, rfl, rfl, _, _,
    rfl, rfl, _, _, rfl, ⟨block, rfl, rule, -⟩, _, _, rfl, rfl, _, _, rfl,
    ⟨part, e, rfl, built, plain⟩, rfl⟩
  simp only [List.nil_append, List.append_nil, List.singleton_append]
  refine ⟨_, _, rfl, buildItem_rules added rule built, _, _, e, rfl, rfl, ⟨rfl, rfl, rfl, rfl, ?_⟩⟩
  rintro _ ⟨⟩
  exact plain

/-- The word in front of productions of code begins no tokens. -/
theorem rejects_tokens_of_javacode (t : List Char) : Solid ("JAVACODE".toList ++ t) ∧
    Rejects (.rule .tokenManagerDecls) ("JAVACODE".toList ++ t) ∧
      Rejects (.rule .regexprProduction) ("JAVACODE".toList ++ t) := by
  have whole : "JAVACODE".toList ++ t = 'J' :: ("AVACODE".toList ++ t) := rfl
  generalize "AVACODE".toList ++ t = rest at whole
  rw [whole]
  have solid : Solid ('J' :: rest) := solid_cons rfl (by decide)
  have noStates : Rejects (.rule .lexicalStates) ('J' :: rest) :=
    rejects_rule rfl (.seq (rejects_word '<' rfl (by simp)))
  have noKind : Rejects (.rule .regexprKind) ('J' :: rest) :=
    rejects_token rfl (.seq (.alt (refuses_word 'S' rfl (by simp))
      (.alt (refuses_word 'T' rfl (by simp))
        (.alt (refuses_word 'S' rfl (by simp)) (refuses_word 'M' rfl (by simp))))))
  exact ⟨solid, rejects_rule rfl (.seq (rejects_word 'T' rfl (by simp))),
    rejects_rule rfl (rejects_seq (.noOpt solid noStates) (.seq noKind))⟩

def codeText (h : Heading) (throws : List (List Char)) (code gap : List Char) : List Char :=
  "JAVACODE".toList ++
    (gap ++ (h.text ++ (throwsText throws ++ ' ' :: ('\x7b' :: code ++ ['\x7d']))))

theorem isItemText_code (closed : h.IsClosed) (dotted : ∀ name ∈ throws, isDotted name = true)
    (code : Bracket.brace.lexis.Closes 0 body) (separate : IsGap gap) :
    IsItemText (IsCoded h throws) (codeText h throws body gap) := by
  intro u v skipped
  have whole : gap ++ (h.text ++ (throwsText throws ++ ' ' :: ('\x7b' :: body ++ ['\x7d']))) ++ u =
      gap ++ (h.text ++ (throwsText throws ++ ' ' :: ('\x7b' :: body ++ '\x7d' :: u))) := by simp
  have begins : codeText h throws body gap ++ u = "JAVACODE".toList ++ _ := List.append_assoc _ _ _
  rw [begins, whole]
  obtain ⟨solid, noDecls, noTokens⟩ := rejects_tokens_of_javacode (gap ++ (h.text ++
    (throwsText throws ++ ' ' :: ('\x7b' :: body ++ '\x7d' :: u))))
  refine ⟨solid, .altSecond noDecls (.altSecond noTokens (.altFirst ?_))⟩
  have headed :=
    Heading.isHeaded closed (throwsText throws ++ ' ' :: ('\x7b' :: body ++ '\x7d' :: u))
  have row := ((passes_word "JAVACODE").gets (separate (.here headed.solid))).seq
    ((Heading.gets closed dotted (.inr rfl)).seq
      ((Gets.noOpt (solid_cons rfl (by decide)) (rejects_nodeDescriptor (by simp))).seq
        ((passes_javaBlock code).gets skipped)))
  refine (Gets.rule .javacodeProduction rfl row).imp ?_
  rintro _ ⟨front, start, stop, _, rfl, _, _, rfl, rfl, _, _, rfl, ⟨header, rfl, -, added⟩, _, _,
    rfl, rfl, block, rfl, rule, -⟩
  simp only [List.nil_append, List.singleton_append]
  refine ⟨_, _, rfl, buildItem_code added rule, _, _, rfl, rfl, ⟨rfl, rfl, rfl, rfl, ?_⟩⟩
  rintro _ ⟨⟩

end

end NodeWeave.Grammar.Format

/-!
## Copied items

Blanks and comments between the parts of an item, and the items that are copied as they are. Main
statements: without the blanks at the ends of its lines, what stands between two parts still
consists of blanks and comments; and a text of tokens stays one.
-/

namespace NodeWeave.Grammar.Format

open Peg Peg.Expr Peg.Rules Lexis Text

variable {t u v gap text : List Char} {c : Char}

/-! ### Gaps -/

/-- The text consists of blanks and comments. -/
inductive IsGapText : List Char → Prop where
  | nil : IsGapText []
  | blank {c : Char} {t : List Char} (gap : isGapChar c = true) (rest : IsGapText t) :
      IsGapText (c :: t)
  | block {inner t : List Char} (unended : ¬ ['*', '/'] <:+: inner) (rest : IsGapText t) :
      IsGapText ('/' :: '*' :: inner ++ '*' :: '/' :: t)
  | line {inner t : List Char} {c : Char} (unended : ∀ d ∈ inner, Quote.endsLine d = false)
      (ended : Quote.endsLine c = true) (rest : IsGapText t) :
      IsGapText ('/' :: '/' :: inner ++ c :: t)

namespace IsGapText

theorem isGap (is : IsGapText gap) : IsGap gap := by
  intro u v skipped
  induction is with
  | nil => exact skipped
  | blank gap _ ih => exact .blank gap ih
  | @block inner t unended _ ih =>
      have whole : '/' :: '*' :: inner ++ '*' :: '/' :: t ++ u =
          '/' :: '*' :: inner ++ ['*', '/'] ++ (t ++ u) := by simp
      rw [whole]
      exact .block unended ih
  | @line inner t c unended ended _ ih =>
      have whole : '/' :: '/' :: inner ++ c :: t ++ u = '/' :: '/' :: inner ++ c :: (t ++ u) := by
        simp
      rw [whole]
      exact .line unended ended ih

theorem head (is : IsGapText gap) : ∀ c ∈ gap.head?, isGapChar c = true ∨ c = '/' := by
  cases is with
  | nil => exact nofun
  | blank gap =>
      rintro _ ⟨⟩
      exact .inl gap
  | block | line =>
      rintro _ ⟨⟩
      exact .inr rfl

/-- No name goes on with blanks and comments, nor with a sign behind them. -/
theorem noName (is : IsGapText gap) (sign : isNameChar c = false) :
    ∀ d ∈ (gap ++ c :: t).head?, isNameChar d = false := by
  intro d first
  cases gap with
  | nil =>
      cases first
      exact sign
  | cons e rest =>
      cases first
      rcases is.head d rfl with blank | rfl
      · simp only [isGapChar, Bool.or_eq_true, beq_iff_eq] at blank
        rcases blank with (((rfl | rfl) | rfl) | rfl) | rfl <;> rfl
      · rfl

protected theorem trimLines (is : IsGapText gap) : IsGapText (trimLines gap) := by
  induction is with
  | nil => exact .nil
  | @blank c t gap _ ih =>
      rw [Text.trimLines]
      split
      · exact ih
      · exact .blank gap ih
  | @block inner t unended _ ih =>
      rw [List.cons_append, List.cons_append, trimLines_cons_of_solid rfl,
        trimLines_cons_of_solid rfl, trimLines_append_solid rfl, trimLines_cons_of_solid rfl]
      exact .block (fun ended => unended (infix_of_trimLines rfl ended)) ih
  | @line inner t c unended ended _ ih =>
      have oneLine : '\n' ∉ inner := fun mem => by cases unended _ mem
      have shorter : ∀ d ∈ dropBlanksEnd inner, Quote.endsLine d = false :=
        fun d mem => unended d (mem_of_mem_dropBlanksEnd mem)
      rw [List.cons_append, List.cons_append, trimLines_cons_of_solid rfl,
        trimLines_cons_of_solid rfl]
      have feed : c = '\n' ∨ c = '\r' := by simpa [Quote.endsLine] using ended
      rcases feed with rfl | rfl
      · rw [trimLines_line oneLine]
        exact .line shorter rfl ih
      · by_cases dropped : (Text.trimLines t).head? = some '\n'
        · -- The return goes with the blanks at the end of the line; the line feed ends the comment.
          obtain ⟨more, whole⟩ := List.head?_eq_some_iff.mp dropped
          have same : Text.trimLines ('\r' :: t) = Text.trimLines ('\n' :: more) := by
            rw [← whole, trimLines_trimLines, Text.trimLines, if_pos]
            simp [dropped, isBlank]
          have trimmed : Text.trimLines more = more := by
            have := trimLines_trimLines t
            rw [whole, trimLines_newline] at this
            exact (List.cons.inj this).2
          have rest : IsGapText more := by
            rw [whole] at ih
            cases ih with
            | blank _ rest => exact rest
          rw [trimLines_congr same, trimLines_line oneLine, trimmed]
          exact .line shorter rfl rest
        · have kept : Text.trimLines ('\r' :: t) = '\r' :: Text.trimLines t := by
            rw [Text.trimLines, if_neg]
            simp [dropped]
          rw [trimLines_append (.inr ?_), kept, trimLines_of_not_mem oneLine]
          · exact .line unended rfl ih
          · rw [kept]
            rintro ⟨⟩

end IsGapText

/-! ### Tokens -/

/-- What a word for tokens stands for regardless of case, with what stands between it and a
colon. -/
inductive IsTokenCase : List Char → Prop where
  | none : IsTokenCase []
  | ignored {a b gap : List Char} (first : IsGapText a) (second : IsGapText b)
      (last : IsGapText gap) :
      IsTokenCase ('[' :: (a ++ ("IGNORE_CASE".toList ++ (b ++ ']' :: gap))))

/-- Names behind the first one of a list, and what stands in front of the bracket behind them. -/
inductive IsStateList : List Char → Prop where
  | stop {gap : List Char} (last : IsGapText gap) : IsStateList gap
  | next {a b name rest : List Char} (first : IsGapText a) (second : IsGapText b)
      (identifier : isIdentifier name = true) (others : IsStateList rest) :
      IsStateList (a ++ ',' :: (b ++ (name ++ rest)))

/-- The states in front of a word for tokens, with what stands between them. -/
inductive IsStates : List Char → Prop where
  | none : IsStates []
  | all {a b gap : List Char} (first : IsGapText a) (second : IsGapText b) (last : IsGapText gap) :
      IsStates ('<' :: (a ++ '*' :: (b ++ '>' :: gap)))
  | names {a name rest gap : List Char} (first : IsGapText a)
      (identifier : isIdentifier name = true) (others : IsStateList rest) (last : IsGapText gap) :
      IsStates ('<' :: (a ++ (name ++ (rest ++ '>' :: gap))))

/-- The text of tokens, or of declarations for the tokens. -/
inductive IsVerbatimText : List Char → Prop where
  | declarations {a b block : List Char} (first : IsGapText a) (second : IsGapText b)
      (closes : Bracket.brace.lexis.Closes 0 block) :
      IsVerbatimText
        ("TOKEN_MGR_DECLS".toList ++ (a ++ ':' :: (b ++ ('\x7b' :: block ++ ['\x7d']))))
  | tokens {states a b ignored block : List Char} {kind : String} (inStates : IsStates states)
      (listed : kind ∈ tokenKinds) (first : IsGapText a) (cased : IsTokenCase ignored)
      (second : IsGapText b) (closes : Bracket.brace.lexis.Closes 0 block) :
      IsVerbatimText (states ++ (kind.toList ++ (a ++ (ignored ++ ':' ::
        (b ++ ('\x7b' :: block ++ ['\x7d']))))))

theorem head?_append_solid {word : List Char} (dotted : isDotted word = true) (t : List Char) :
    ∀ c ∈ (word ++ t).head?, isBlank c = false := by
  intro c first
  cases word with
  | nil => cases dotted
  | cons d rest =>
      cases first
      exact (isDottedChar_of_mem dotted List.mem_cons_self).solid

theorem trimLines_append_word {word : List Char} (dotted : isDotted word = true) :
    trimLines (t ++ (word ++ u)) = trimLines t ++ (word ++ trimLines u) := by
  rw [trimLines_append_of_head (head?_append_solid dotted u), trimLines_append_name dotted]

protected theorem IsTokenCase.trimLines (is : IsTokenCase text) : IsTokenCase (trimLines text) := by
  have dotted : isDotted "IGNORE_CASE".toList = true := by decide
  cases is with
  | none => exact .none
  | ignored first second last =>
      rw [trimLines_cons_of_solid rfl, trimLines_append_word dotted, trimLines_append_solid rfl]
      exact .ignored first.trimLines second.trimLines last.trimLines

protected theorem IsStateList.trimLines (is : IsStateList text) : IsStateList (trimLines text) := by
  induction is with
  | stop last => exact .stop last.trimLines
  | next first second identifier _ ih =>
      rw [trimLines_append_solid rfl, trimLines_append_word (isDotted_of_isIdentifier identifier)]
      exact .next first.trimLines second.trimLines identifier ih

protected theorem IsStates.trimLines (is : IsStates text) : IsStates (trimLines text) := by
  cases is with
  | none => exact .none
  | all first second last =>
      rw [trimLines_cons_of_solid rfl, trimLines_append_solid rfl, trimLines_append_solid rfl]
      exact .all first.trimLines second.trimLines last.trimLines
  | names first identifier others last =>
      rw [trimLines_cons_of_solid rfl, trimLines_append_word (isDotted_of_isIdentifier identifier),
        trimLines_append_solid rfl]
      exact .names first.trimLines identifier others.trimLines last.trimLines

theorem IsTokenCase.head (is : IsTokenCase text) : ∀ c ∈ text.head?, c = '[' := by
  cases is with
  | none => exact nofun
  | ignored =>
      rintro _ ⟨⟩
      rfl

theorem trimLines_block {block : List Char} :
    trimLines (t ++ ('\x7b' :: block ++ ['\x7d'])) = trimLines t ++
        ('\x7b' :: trimLines block ++ ['\x7d']) := by
  rw [List.cons_append, trimLines_append_solid rfl, trimLines_append_solid rfl, trimLines_nil]
  rfl

protected theorem IsVerbatimText.trimLines (is : IsVerbatimText text) :
    IsVerbatimText (trimLines text) := by
  cases is with
  | declarations first second closes =>
      have dotted : isDotted "TOKEN_MGR_DECLS".toList = true := by decide
      rw [trimLines_append_name dotted, trimLines_append_solid rfl, trimLines_block]
      exact .declarations first.trimLines second.trimLines (closes_trimLines closes)
  | @tokens states a b ignored block kind inStates listed first cased second closes =>
      have dotted : ∀ kind ∈ tokenKinds, isDotted kind.toList = true := by decide
      have solid : ∀ c ∈ ignored.head?, isBlank c = false := by
        intro c begins
        rw [cased.head c begins]
        rfl
      rw [trimLines_append_word (dotted kind listed), ← List.append_assoc a,
        trimLines_append_solid rfl, trimLines_append_of_head solid, trimLines_block,
        List.append_assoc]
      exact .tokens inStates.trimLines listed first.trimLines cased.trimLines second.trimLines
        (closes_trimLines closes)

theorem IsVerbatimText.getLast? (is : IsVerbatimText text) : text.getLast? = some '\x7d' := by
  have last (front : List Char) : (front ++ ['\x7d']).getLast? = some '\x7d' := List.getLast?_concat
  cases is with
  | @declarations a b block =>
      have := last ("TOKEN_MGR_DECLS".toList ++ (a ++ ':' :: (b ++ '\x7b' :: block)))
      simpa using this
  | @tokens states a b ignored block kind =>
      have := last (states ++ (kind.toList ++ (a ++ (ignored ++ ':' :: (b ++ '\x7b' :: block)))))
      simpa using this

/-! ### What is copied is read again -/

def Anything (_ : List Part) : Prop :=
  True

theorem Gets.anything {e : Expr Rule} {holds : List Part → Prop} (gets : Gets e t v holds) :
    Gets e t v Anything :=
  gets.imp fun _ _ => trivial

theorem gets_identifier {name : List Char} (identifier : isIdentifier name = true)
    (stop : ∀ c ∈ u.head?, isNameChar c = false) (skipped : Skipped u v) :
    Gets (.rule .identifier) (name ++ u) v Anything :=
  ((passes_token .identifier rfl (takes_identifier identifier stop)).gets skipped).anything

theorem IsStateList.exists_repeats (is : IsStateList text) :
    (∀ c ∈ (text ++ '>' :: u).head?, isNameChar c = false) ∧
      ∃ t, Skipped (text ++ '>' :: u) t ∧
        Repeats (word "," >> .rule .identifier) Anything t ('>' :: u) := by
  have closing : Solid ('>' :: u) := solid_cons rfl (by decide)
  induction is with
  | stop last =>
      exact ⟨last.noName rfl, _, last.isGap (.here closing), .stop closing
        (.seq (rejects_word ',' rfl (by simp)))⟩
  | @next a b name rest first second identifier _ ih =>
      obtain ⟨stop, t, skipped, repeats⟩ := ih
      have whole : a ++ ',' :: (b ++ (name ++ rest)) ++ '>' :: u =
          a ++ ',' :: (b ++ (name ++ (rest ++ '>' :: u))) := by simp
      rw [whole]
      refine ⟨first.noName rfl, _, first.isGap (.here (solid_cons rfl (by decide))),
        .next ?_ repeats⟩
      have comma := (passes_word ",").gets (second.isGap (.here (solid_of_isIdentifier
        (t := rest ++ '>' :: u) identifier)))
      exact (comma.seq (gets_identifier identifier stop skipped)).anything

theorem IsStates.gets (is : IsStates text) (solid : Solid v) (other : v.head? ≠ some '<') :
    Solid (text ++ v) ∧ Gets (.opt (.rule .lexicalStates)) (text ++ v) v Anything := by
  cases is with
  | none =>
      have refused : Rejects (.rule .lexicalStates) v :=
        rejects_rule rfl (.seq (rejects_word '<' rfl other))
      exact ⟨solid, (Gets.noOpt solid refused).anything⟩
  | @all a b gap first second last =>
      have whole : '<' :: (a ++ '*' :: (b ++ '>' :: gap)) ++ v =
          '<' :: (a ++ '*' :: (b ++ '>' :: (gap ++ v))) := by simp
      rw [whole]
      refine ⟨solid_cons rfl (by decide), ?_⟩
      have star := (passes_word "*").gets (second.isGap (.here (solid_cons (c := '>')
        (t := gap ++ v) rfl (by decide))))
      have row := ((passes_word "<").gets
          (first.isGap (.here (solid_cons (c := '*') rfl (by decide))))).seq
        ((Gets.altFirst (b := separated (.rule .identifier) ",") star).seq
          ((passes_word ">").gets (last.isGap (.here solid))))
      exact (Gets.rule .lexicalStates rfl row).opt.anything
  | @names a name rest gap first identifier others last =>
      obtain ⟨stop, t, skipped, repeats⟩ := others.exists_repeats (u := gap ++ v)
      have whole : '<' :: (a ++ (name ++ (rest ++ '>' :: gap))) ++ v =
          '<' :: (a ++ (name ++ (rest ++ '>' :: (gap ++ v)))) := by simp
      rw [whole]
      refine ⟨solid_cons rfl (by decide), ?_⟩
      have noStar : Rejects (word "*") (name ++ (rest ++ '>' :: (gap ++ v))) := by
        refine rejects_word '*' rfl ?_
        obtain ⟨d, more, rfl, start, -⟩ := exists_cons_of_isIdentifier identifier
        rintro ⟨⟩
        cases start
      have listed :=
        Gets.altSecond noStar ((gets_identifier identifier stop skipped).seq repeats.star)
      have row :=
        ((passes_word "<").gets (first.isGap (.here (solid_of_isIdentifier identifier)))).seq
          (listed.seq ((passes_word ">").gets (last.isGap (.here solid))))
      exact (Gets.rule .lexicalStates rfl row).opt.anything

theorem IsTokenCase.gets (is : IsTokenCase text) (solid : Solid v) (other : v.head? ≠ some '[') :
    Solid (text ++ v) ∧
      Gets (.opt (word "[" >> word "IGNORE_CASE" >> word "]")) (text ++ v) v Anything := by
  cases is with
  | none => exact ⟨solid, (Gets.noOpt solid (.seq (rejects_word '[' rfl other))).anything⟩
  | @ignored a b gap first second last =>
      generalize spelled : "IGNORE_CASE".toList = spelling
      have whole : '[' :: (a ++ (spelling ++ (b ++ ']' :: gap))) ++ v =
          '[' :: (a ++ (spelling ++ (b ++ ']' :: (gap ++ v)))) := by simp
      rw [whole]
      refine ⟨solid_cons rfl (by decide), ?_⟩
      have begins : Solid (spelling ++ (b ++ ']' :: (gap ++ v))) := by
        rw [← spelled]
        exact solid_of_isIdentifier (by decide)
      have case := (passes_word "IGNORE_CASE").gets (second.isGap (.here (solid_cons (c := ']')
        (t := gap ++ v) rfl (by decide))))
      rw [spelled] at case
      have row := ((passes_word "[").gets (first.isGap (.here begins))).seq
        (case.seq ((passes_word "]").gets (last.isGap (.here solid))))
      exact row.opt.anything

theorem rejects_tokenManagerDecls_of_kind {kind : String} (listed : kind ∈ tokenKinds)
    (stop : ∀ c ∈ t.head?, isNameChar c = false) (skipped : Skipped t u) :
    Rejects (.rule .tokenManagerDecls) (kind.toList ++ t) := by
  have apart : ∀ kind ∈ tokenKinds, kind.toList ≠ "TOKEN_MGR_DECLS".toList := by decide
  refine rejects_rule rfl (rejects_keyword (by decide) stop skipped (fun goes => ?_)
    (fun same => absurd same (apart kind listed)) (named_of_mem_tokenKinds kind listed))
  exact .seq (rejects_word ':' rfl (head?_cons_ne_of_isNameChar rfl goes))

theorem items_of_node {rule : Rule} (copied : rule = .tokenManagerDecls ∨ rule = .regexprProduction)
    {holds : List Part → Prop} {trees : List Part} (node : Node rule text holds trees) :
    Items (· = .verbatim (String.ofList text)) trees := by
  obtain ⟨start, stop, children, rfl, -⟩ := node
  rcases copied with rfl | rfl
  · exact ⟨_, _, rfl, rfl, rfl⟩
  · exact ⟨_, _, rfl, rfl, rfl⟩

theorem isItemText_verbatim (is : IsVerbatimText text) :
    IsItemText (· = .verbatim (String.ofList text)) text := by
  intro u v skipped
  have colon {s : List Char} : Skipped (':' :: s) (':' :: s) := .here (solid_cons rfl (by decide))
  have opening {s : List Char} : Skipped ('\x7b' :: s) ('\x7b' :: s) :=
    .here (solid_cons rfl (by decide))
  cases is with
  | @declarations a b block first second closes =>
      have identifier : isIdentifier "TOKEN_MGR_DECLS".toList = true := by decide
      have word := passes_word (u := a ++ ':' :: (b ++ ('\x7b' :: block ++ '\x7d' :: u)))
        "TOKEN_MGR_DECLS"
      have row := Passes.seq (word.gets (first.isGap colon)) (Passes.seq
        ((passes_word ":").gets (second.isGap opening)) (passes_javaBlock (u := u) closes))
      generalize spelled : "TOKEN_MGR_DECLS".toList = spelling at row identifier ⊢
      have whole : spelling ++ (a ++ ':' :: (b ++ ('\x7b' :: block ++ ['\x7d']))) ++ u =
          spelling ++ (a ++ ':' :: (b ++ ('\x7b' :: block ++ '\x7d' :: u))) := by simp
      have solid := solid_of_isIdentifier (t := a ++ ':' :: (b ++ ('\x7b' :: block ++ '\x7d' :: u)))
        identifier
      rw [← whole] at row solid
      have passes : Passes (.rule .tokenManagerDecls) _ u _ := row.rule rfl rfl
      exact ⟨solid, .altFirst
        ((passes.gets skipped).imp fun _ node => items_of_node (.inl rfl) node)⟩
  | @tokens states a b ignored block kind inStates listed first cased second closes =>
      have apart : ∀ w ∈ tokenKinds, ∀ x ∈ tokenKinds, x.toList <+: w.toList → x = w := by decide
      have identifier : ∀ kind ∈ tokenKinds, isIdentifier kind.toList = true := by decide
      obtain ⟨solidCase, case⟩ := cased.gets (v := ':' :: (b ++ ('\x7b' :: block ++ '\x7d' :: u)))
        (solid_cons rfl (by decide)) (by simp)
      have stop : ∀ c ∈ (a ++ (ignored ++ ':' :: (b ++ ('\x7b' :: block ++ '\x7d' :: u)))).head?,
          isNameChar c = false := by
        cases cased with
        | none => exact first.noName rfl
        | ignored => exact first.noName rfl
      have behind := first.isGap (.here solidCase)
      have word := passes_token .regexprKind rfl
        (takes_keyword named_of_mem_tokenKinds (apart kind listed) listed stop)
      have row := Passes.seq (word.gets behind) (Passes.seq case (Passes.seq
        ((passes_word ":").gets (second.isGap opening)) (passes_javaBlock (u := u) closes)))
      have solidKind := solid_of_isIdentifier (t := a ++ (ignored ++ ':' ::
        (b ++ ('\x7b' :: block ++ '\x7d' :: u)))) (identifier kind listed)
      have noStates : (kind.toList ++ (a ++ (ignored ++ ':' ::
          (b ++ ('\x7b' :: block ++ '\x7d' :: u))))).head? ≠ some '<' := by
        obtain ⟨d, more, spelled, start, -⟩ := exists_cons_of_isIdentifier (identifier kind listed)
        rw [spelled]
        rintro ⟨⟩
        cases start
      obtain ⟨solid, optional⟩ := inStates.gets solidKind noStates
      have whole : states ++ (kind.toList ++ (a ++ (ignored ++ ':' ::
          (b ++ ('\x7b' :: block ++ ['\x7d']))))) ++ u = states ++ (kind.toList ++ (a ++ (ignored ++
            ':' :: (b ++ ('\x7b' :: block ++ '\x7d' :: u))))) := by simp
      have noDecls : Rejects (.rule .tokenManagerDecls) (states ++ (kind.toList ++ (a ++ (ignored ++
          ':' :: (b ++ ('\x7b' :: block ++ '\x7d' :: u)))))) := by
        cases inStates with
        | none => exact rejects_tokenManagerDecls_of_kind listed stop behind
        | all | names => exact rejects_rule rfl (.seq (rejects_word 'T' rfl (by simp)))
      have passes : Passes (.rule .regexprProduction) _ u _ := (Passes.seq optional row).rule
          rfl whole.symm
      rw [whole]
      exact ⟨solid, .altSecond noDecls (.altFirst ((passes.gets skipped).imp
        fun _ node => items_of_node (.inr rfl) node))⟩

end NodeWeave.Grammar.Format
