import NodeWeave.Proofs.Grammar.UnitTexts

/-!
The headers of productions, as the rules of grammar files read them. Main statements: a header that
closes what it opens is read with the parts that it is made of; and a text that begins with one is
that of no other item than a production.
-/

namespace NodeWeave.Grammar.Format

open Peg Peg.Expr Peg.Rules Lexis Text

variable {t u v name first tail type access parameters : List Char} {c : Char}

/-! ### Keywords -/

def firstOf : List String → Expr Rule
  | [] => .unless .done
  | [w] => word w
  | w :: rest => word w <|> firstOf rest

theorem takes_or_refuses_firstOf (words : List String) (t : List Char) :
    Refuses (firstOf words) t ∨
      ∃ w ∈ words, ∃ u, t = w.toList ++ u ∧ Takes (firstOf words) w.toList u := by
  induction words with
  | nil => exact .inl (.unless (w := []) fun _ => .done)
  | cons w rest ih =>
      cases rest with
      | nil =>
          by_cases front : w.toList <+: t
          · obtain ⟨u, rfl⟩ := front
            exact .inr ⟨w, by simp, u, rfl, .text⟩
          · exact .inl (.text front)
      | cons next rest =>
          by_cases front : w.toList <+: t
          · obtain ⟨u, rfl⟩ := front
            exact .inr ⟨w, by simp, u, rfl, .altFirst .text⟩
          · rcases ih with refused | ⟨x, listed, u, rfl, taken⟩
            · exact .inl (.alt (.text front) refused)
            · exact .inr ⟨x, List.mem_cons_of_mem w listed, u, rfl, .altSecond (.text front) taken⟩

theorem takes_or_refuses_keyword {words : List String}
    (named : ∀ w ∈ words, ∀ c ∈ w.toList, isNameChar c = true)
    (all : ∀ c ∈ name, isNameChar c = true) (stop : ∀ c ∈ u.head?, isNameChar c = false) :
    Refuses (keyword (firstOf words)) (name ++ u) ∨
      ∃ w ∈ words, name = w.toList ∧ Takes (keyword (firstOf words)) name u := by
  rcases takes_or_refuses_firstOf words (name ++ u) with refused | ⟨w, listed, v, whole, taken⟩
  · exact .inl (.seq refused)
  · obtain ⟨m, rfl⟩ := exists_of_prefix (named w listed) stop ⟨v, whole.symm⟩
    rw [List.append_assoc, List.append_cancel_left_eq] at whole
    subst whole
    cases m with
    | nil =>
        refine .inr ⟨w, listed, by simp, ?_⟩
        exact .seq (v := []) token_ne_spaced taken (.unless (.one stop))
    | cons d more =>
        have goes : Takes nameChar [d] (more ++ u) := .one (all d (by simp))
        have refused : Refuses (.unless nameChar) ([d] ++ (more ++ u)) := .unless goes
        rw [List.append_assoc]
        exact .inl (.seqSecond token_ne_spaced taken refused)

/-- A word that stands alone is taken as one, if no other one is a front of it. -/
theorem takes_keyword {words : List String} {w : String}
    (named : ∀ w ∈ words, ∀ c ∈ w.toList, isNameChar c = true)
    (apart : ∀ x ∈ words, x.toList <+: w.toList → x = w) (listed : w ∈ words)
    (stop : ∀ c ∈ u.head?, isNameChar c = false) : Takes (keyword (firstOf words)) w.toList u := by
  have alone : ∀ x ∈ words, x.toList <+: w.toList ++ u → x = w := by
    intro x mem front
    obtain ⟨m, same⟩ := exists_of_prefix (named x mem) stop front
    exact apart x mem ⟨m, same.symm⟩
  have taken : Takes (firstOf words) w.toList u := by
    clear named apart
    induction words with
    | nil => cases listed
    | cons x rest ih =>
        rw [List.forall_mem_cons] at alone
        cases rest with
        | nil =>
            rw [List.mem_singleton.mp listed]
            exact .text
        | cons y rest =>
            by_cases same : x = w
            · subst same
              exact .altFirst .text
            · have later := (List.mem_cons.mp listed).resolve_left (Ne.symm same)
              exact .altSecond (.text fun front => same (alone.1 front)) (ih later alone.2)
  rw [← List.append_nil w.toList]
  exact .seq token_ne_spaced taken (.unless (.one stop))

/-- The words that may stand in front of a result type. -/
def modifiers : List String := ["public", "protected", "private"]

theorem named_of_mem_modifiers : ∀ w ∈ modifiers, ∀ c ∈ w.toList, isNameChar c = true := by
  decide

theorem isIdentifier_of_mem_modifiers : ∀ w ∈ modifiers, isIdentifier w.toList = true := by decide

theorem body_accessModifier : Format.body .accessModifier = keyword (firstOf modifiers) := rfl

/-- The words with which a production of tokens begins. -/
def tokenKinds : List String := ["SPECIAL_TOKEN", "TOKEN", "SKIP", "MORE"]

theorem named_of_mem_tokenKinds : ∀ w ∈ tokenKinds, ∀ c ∈ w.toList, isNameChar c = true := by
  decide

/-! ### Result types -/

/-- What stands behind the first identifier of a type: identifiers behind dots, a text in angle
brackets, and pairs of square brackets. -/
structure IsTypeTail (dots angled squares : List Char) : Prop where
  dots : dots = [] ∨ ∃ dotted, dots = '.' :: dotted ∧ isDotted dotted = true
  angled : angled = [] ∨
    ∃ inner, angled = '<' :: inner ++ ['>'] ∧ Bracket.angle.lexis.Closes 0 inner
  squares : ∃ n, squares = (List.replicate n ['[', ']']).flatten

theorem takes_squares (n : Nat) : Takes (.star (word "[" >> word "]"))
    (List.replicate n ['[', ']']).flatten (' ' :: u) := by
  induction n with
  | zero => exact .noStar (.seq (refuses_word '[' rfl (by simp)))
  | succ n ih =>
      rw [List.replicate_succ, List.flatten_cons]
      exact Takes.star (w := ['[', ']']) token_ne_spaced
        (Takes.consSeq (v := [']']) token_ne_spaced .text .text) ih

namespace IsTypeTail

variable {dots angled squares : List Char}

theorem squares_cases (is : IsTypeTail dots angled squares) :
    squares = [] ∨ ∃ more, squares = '[' :: ']' :: more := by
  obtain ⟨n, rfl⟩ := is.squares
  cases n with
  | zero => exact .inl rfl
  | succ n => exact .inr ⟨_, rfl⟩

theorem head?_angled (is : IsTypeTail dots angled squares) :
    ∀ c ∈ (angled ++ (squares ++ ' ' :: u)).head?, c ∈ ['<', '[', ' '] := by
  rcases is.angled with rfl | ⟨inner, rfl, -⟩
  · rcases is.squares_cases with rfl | ⟨more, rfl⟩
    · rintro _ ⟨⟩
      decide
    · rintro _ ⟨⟩
      decide
  · rintro _ ⟨⟩
    decide

theorem head?_tail (is : IsTypeTail dots angled squares) :
    ∀ c ∈ (dots ++ (angled ++ (squares ++ ' ' :: u))).head?, c ∈ ['.', '<', '[', ' '] := by
  rcases is.dots with rfl | ⟨dotted, rfl, -⟩
  · exact fun c first => List.mem_cons_of_mem '.' (is.head?_angled c first)
  · rintro _ ⟨⟩
    decide

/-- No name goes on behind the first identifier of a type. -/
theorem noName (is : IsTypeTail dots angled squares) :
    ∀ c ∈ (dots ++ (angled ++ (squares ++ ' ' :: u))).head?, isNameChar c = false := by
  have signs : ∀ d ∈ ['.', '<', '[', ' '], isNameChar d = false := by decide
  exact fun c first => signs c (is.head?_tail c first)

theorem takes_angled (is : IsTypeTail dots angled squares) :
    Takes (.opt Format.angled >> .star (word "[" >> word "]")) (angled ++ squares) (' ' :: u) := by
  obtain ⟨n, rfl⟩ := is.squares
  refine .seq token_ne_spaced ?_ (takes_squares n)
  rcases is.angled with rfl | ⟨inner, rfl, closes⟩
  · refine .noOpt (.seq (refuses_word '<' rfl ?_))
    cases n <;> simp
  · exact .opt (Format.takes_angled closes)

theorem takes_resultType (is : IsTypeTail dots angled squares)
    (identifier : isIdentifier first = true) :
    Takes (Format.body .resultType) (first ++ (dots ++ (angled ++ squares))) (' ' :: u) := by
  have ends : EndsName (angled ++ (squares ++ ' ' :: u)) := by
    have signs : ∀ d ∈ ['<', '[', ' '], isNameChar d = false ∧ d ≠ '.' := by decide
    exact fun c begins => signs c (is.head?_angled c begins)
  rw [← List.append_assoc]
  refine .seq token_ne_spaced (takes_rule_qualifiedName ?_ (by simpa using ends)) is.takes_angled
  rcases is.dots with rfl | ⟨dotted, rfl, whole⟩
  · simpa using isDotted_of_isIdentifier identifier
  · exact isDotted_append (isDotted_of_isIdentifier identifier) whole

end IsTypeTail

/-! ### Parameters -/

theorem solid_append_of_solid {inner : List Char} (solid : Solid (inner ++ [')'])) (u : List Char) :
    Solid (inner ++ ')' :: u) := by
  obtain ⟨noBlank, noComment⟩ := solid
  rw [StartsComment, List.prefix_iff_eq_take, List.prefix_iff_eq_take] at noComment
  cases inner with
  | nil => exact solid_cons rfl (by decide)
  | cons d more =>
      refine ⟨noBlank, ?_⟩
      rw [StartsComment, List.prefix_iff_eq_take, List.prefix_iff_eq_take]
      cases more with
      | nil => simp
      | cons e rest => exact noComment

/-- Where neither a blank nor a comment begins the text in parentheses, all of it is taken. -/
theorem passes_parenContent_of_solid (closes : Bracket.paren.lexis.Closes 0 parameters) :
    Passes (.rule .parenContent) (parameters ++ ')' :: u) (')' :: u)
      (Node .parenContent parameters Nothing) := by
  have taken : Takes (Format.body .parenContent) parameters (')' :: u) :=
    takes_sealed (b := .paren) closes.sealed rfl
  exact passes_token .parenContent rfl taken

theorem head?_of_head?_trimLines {text : List Char} (solid : isBlank c = false)
    (begins : (trimLines text).head? = some c) : text.head? = some c := by
  cases text with
  | nil => cases begins
  | cons d rest =>
      rw [trimLines] at begins
      split at begins
      · next dropped =>
          rw [Bool.and_eq_true, beq_iff_eq] at dropped
          obtain rfl := Option.some.inj (dropped.2.symm.trans begins)
          cases solid
      · exact begins

/-- What begins a text that is trimmed begins it without the blanks at the ends of its lines. -/
theorem solid_trimLines {text : List Char} (trimmed : IsTrimmed text) (solid : Solid text) :
    Solid (trimLines text) := by
  obtain ⟨noBlank, noComment⟩ := solid
  refine ⟨?_, fun starts => noComment ?_⟩
  · rw [head?_trimLines fun c begins => .inl (trimmed.first c begins)]
    exact noBlank
  · have marked {d : Char} (solid : isBlank d = false) (mark : ['/', d] <+: trimLines text) :
        ['/', d] <+: text := by
      cases text with
      | nil => exact absurd mark.length_le (by simp)
      | cons e rest =>
          rw [trimLines_cons_of_solid (trimmed.first e rfl), List.cons_prefix_cons] at mark
          obtain ⟨rfl, more, same⟩ := mark
          have begins : rest.head? = some d :=
            head?_of_head?_trimLines solid (by rw [← same]; rfl)
          obtain ⟨behind, rfl⟩ := List.head?_eq_some_iff.mp begins
          exact ⟨behind, rfl⟩
    exact starts.imp (marked rfl) (marked rfl)

/-! ### Throws clauses -/

def listed : List (List Char) → List Char
  | [] => []
  | name :: rest => name ++ rest.flatMap (", ".toList ++ ·)

/-- The clause of a header that lists what may be thrown, with a blank in front of it. -/
def throwsText (throws : List (List Char)) : List Char :=
  if throws = [] then [] else " throws ".toList ++ listed throws

def Written (text : List Char) (trees : List Part) : Prop :=
  ∃ part : Part, trees = [part] ∧ part.text = String.ofList text

theorem Node.written {rule : Rule} {text : List Char} {holds : List Part → Prop} {trees : List Part}
    (node : Node rule text holds trees) : Written text trees := by
  obtain ⟨start, stop, children, rfl, -⟩ := node
  exact ⟨_, rfl, rfl⟩

theorem map_text_of_rows {names : List (List Char)} {trees : List Part}
    (rows : Rows Written names trees) : trees.map Tree.text = names.map String.ofList := by
  obtain ⟨rows, rfl, all⟩ := rows
  induction all with
  | nil => rfl
  | cons written _ ih =>
      obtain ⟨part, rfl, text⟩ := written
      rw [List.flatten_cons, List.singleton_append, List.map_cons, List.map_cons, ih, text]

def ClosesHeader (c : Char) : Prop :=
  c = ':' ∨ c = '\x7b'

theorem ClosesHeader.solid (closing : ClosesHeader c) : Solid (c :: u) := by
  rcases closing with rfl | rfl
  · exact solid_cons rfl (by decide)
  · exact solid_cons rfl (by decide)

theorem ClosesHeader.head?_ne (closing : ClosesHeader c) {o : Char} (other : o ≠ ':' ∧ o ≠ '\x7b') :
    (c :: u).head? ≠ some o := by
  rintro ⟨⟩
  rcases closing with same | same
  · exact other.1 same
  · exact other.2 same

theorem gets_qualifiedName (dotted : isDotted name = true) (ends : EndsName u)
    (skipped : Skipped u v) : Gets (.rule .qualifiedName) (name ++ u) v (Written name) :=
  ((passes_token .qualifiedName rfl (takes_qualifiedName dotted ends)).gets skipped).imp
    fun _ node => node.written

theorem solid_of_isDotted (dotted : isDotted name = true) : Solid (name ++ t) := by
  obtain ⟨d, rest, rfl, named⟩ : ∃ d rest, name = d :: rest ∧ isNameStart d = true := by
    rcases isDotted_cases dotted with identifier | ⟨first, rest, rfl, identifier, -⟩
    · obtain ⟨d, rest, rfl, named, -⟩ := exists_cons_of_isIdentifier identifier
      exact ⟨d, rest, rfl, named⟩
    · obtain ⟨d, more, rfl, named, -⟩ := exists_cons_of_isIdentifier identifier
      exact ⟨d, _, rfl, named⟩
  exact solid_of_isNameChar (isNameChar_of_isNameStart named)

theorem all_of_isIdentifier (identifier : isIdentifier name = true) :
    ∀ c ∈ name, isNameChar c = true := by
  obtain ⟨_, _, -, -, all⟩ := exists_cons_of_isIdentifier identifier
  exact all

theorem solid_of_isIdentifier (identifier : isIdentifier name = true) : Solid (name ++ t) :=
  solid_of_isDotted (isDotted_of_isIdentifier identifier)

/-- Names behind commas are listed, up to the sign behind the header. -/
theorem exists_lists_names (closing : ClosesHeader c) {names : List (List Char)}
    (dotted : ∀ name ∈ names, isDotted name = true) :
    EndsName (names.flatMap (", ".toList ++ ·) ++ ' ' :: c :: u) ∧
      ∃ t, Skipped (names.flatMap (", ".toList ++ ·) ++ ' ' :: c :: u) t ∧
        Lists (word "," >> .rule .qualifiedName) Written names t (c :: u) := by
  induction names with
  | nil =>
      refine ⟨by rintro _ ⟨⟩; decide, _, .space (.here closing.solid), .stop closing.solid ?_⟩
      exact .seq (rejects_word ',' rfl (closing.head?_ne (by decide)))
  | cons name rest ih =>
      rw [List.forall_mem_cons] at dotted
      obtain ⟨ends, t, skipped, lists⟩ := ih dotted.2
      have whole : (name :: rest).flatMap (", ".toList ++ ·) ++ ' ' :: c :: u =
          ',' :: ' ' :: (name ++ (rest.flatMap (", ".toList ++ ·) ++ ' ' :: c :: u)) := by
        simp
      rw [whole]
      refine ⟨by rintro _ ⟨⟩; decide, _, .here (solid_cons rfl (by decide)), .next ?_ lists⟩
      have comma := (passes_word ",").gets (.space (.here (solid_of_isDotted dotted.1
        (t := rest.flatMap (", ".toList ++ ·) ++ ' ' :: c :: u))))
      refine (comma.seq (gets_qualifiedName dotted.1 ends skipped)).imp ?_
      rintro _ ⟨_, _, rfl, rfl, written⟩
      exact written

/-- The names that a clause lists are the texts of its parts. -/
def Throws (throws : List (List Char)) (trees : List Part) : Prop :=
  (throws = [] ∧ trees = []) ∨ ∃ part : Part, trees = [part] ∧ part.rule = .throwsClause ∧
    part.children.map Tree.text = throws.map String.ofList

theorem exists_gets_throwsClause (closing : ClosesHeader c) {throws : List (List Char)}
    (dotted : ∀ name ∈ throws, isDotted name = true) :
    ∃ t, Skipped (throwsText throws ++ ' ' :: c :: u) t ∧
      Gets (.opt (.rule .throwsClause)) t (c :: u) (Throws throws) := by
  cases throws with
  | nil =>
      have refused : Rejects (.rule .throwsClause) (c :: u) :=
        rejects_rule rfl (.seq (rejects_word 't' rfl (closing.head?_ne (by decide))))
      refine ⟨_, .space (.here closing.solid), (Gets.noOpt closing.solid refused).imp ?_⟩
      rintro _ rfl
      exact .inl ⟨rfl, rfl⟩
  | cons name rest =>
      rw [List.forall_mem_cons] at dotted
      obtain ⟨ends, t, skipped, lists⟩ := exists_lists_names closing dotted.2 (u := u)
      have whole : throwsText (name :: rest) ++ ' ' :: c :: u = ' ' :: ("throws".toList ++
          ' ' :: (name ++ (rest.flatMap (", ".toList ++ ·) ++ ' ' :: c :: u))) := by
        simp [throwsText, Format.listed]
      rw [whole]
      refine ⟨_, .space (.here (solid_cons rfl (by decide))), .opt ?_⟩
      have begins := (passes_word "throws").gets (.space (.here (solid_of_isDotted dotted.1
        (t := rest.flatMap (", ".toList ++ ·) ++ ' ' :: c :: u))))
      refine (Gets.rule .throwsClause rfl (begins.seq
        ((gets_qualifiedName dotted.1 ends skipped).seq lists.star))).imp ?_
      rintro _ ⟨front, start, stop, _, rfl, _, _, rfl, rfl, _, others, rfl, written, rows⟩
      refine .inr ⟨_, rfl, rfl, ?_⟩
      rw [List.nil_append]
      exact map_text_of_rows (rows.cons written)

/-! ### Headers -/

/-- The parts of a header, up to the closing parenthesis of its parameters. -/
structure Heading where
  modifier : Option String
  /-- The first identifier of the result type. -/
  first : List Char
  dots : List Char
  angled : List Char
  squares : List Char
  name : List Char
  parameters : List Char

namespace Heading

variable {h : Heading}

/-- What stands behind the first identifier of the result type. -/
def behind (h : Heading) : List Char :=
  h.dots ++ (h.angled ++ (h.squares ++ ' ' :: (h.name ++ '(' :: (h.parameters ++ [')']))))

def typed (h : Heading) : List Char :=
  h.first ++ h.behind

def text (h : Heading) : List Char :=
  match h.modifier with
  | some modifier => modifier.toList ++ ' ' :: h.typed
  | none => h.typed

theorem typed_eq (h : Heading) : h.typed = h.first ++ (h.dots ++ (h.angled ++ h.squares)) ++
    ' ' :: (h.name ++ '(' :: (h.parameters ++ [')'])) := by
  simp [typed, behind]

/-- The parts are such that the text is read as made of them. -/
structure IsClosed (h : Heading) : Prop where
  modifier : ∀ w ∈ h.modifier, w ∈ modifiers
  plain : h.modifier = none → ∀ w ∈ modifiers, h.first ≠ w.toList
  first : isIdentifier h.first = true
  tail : IsTypeTail h.dots h.angled h.squares
  name : isIdentifier h.name = true
  closes : Bracket.paren.lexis.Closes 0 h.parameters
  solid : Solid (h.parameters ++ [')'])
  trimmed : IsTrimmed h.parameters

def IsReadOf (h : Heading) (throws : List (List Char)) (trees : List Part) : Prop :=
  ∃ part : Part, trees = [part] ∧ part.rule = .productionHeader ∧
    part.children.foldlM Header.add {} =
      .ok ⟨String.ofList h.text, some (String.ofList h.name), throws.map String.ofList⟩

/-- The parts of a header from its result type on. -/
theorem exists_passes_typed (closed : h.IsClosed) (u : List Char) :
    ∃ rest, h.typed ++ u = h.first ++ (h.dots ++ (h.angled ++ h.squares)) ++ ' ' :: rest ∧
      Solid rest ∧ ∀ {e : Expr Rule} {t v : List Char} {holds : List Part → Prop},
        Skipped u t → Gets e t v holds →
          Gets (.rule .identifier >> word "(" >> .rule .parenContent >> word ")" >> e) rest v
            (Both (Node .identifier h.name Nothing)
              (Both (Node .parenContent h.parameters Nothing) holds)) := by
  refine ⟨h.name ++ '(' :: (h.parameters ++ ')' :: u), by simp [typed, behind],
    solid_of_isIdentifier closed.name, fun skipped gets => ?_⟩
  have opening : Skipped ('(' :: (h.parameters ++ ')' :: u)) ('(' :: (h.parameters ++ ')' :: u)) :=
    .here (solid_cons rfl (by decide))
  have closing : Skipped (')' :: u) (')' :: u) := .here (solid_cons rfl (by decide))
  have named := passes_token .identifier rfl (takes_identifier
    (u := '(' :: (h.parameters ++ ')' :: u)) closed.name (by rintro _ ⟨⟩; rfl))
  have content := passes_parenContent_of_solid (u := u) closed.closes
  refine ((named.gets opening).seq (((passes_word "(").gets
    (.here (solid_append_of_solid closed.solid u))).seq ((content.gets closing).seq
      (((passes_word ")").gets skipped).seq gets)))).imp ?_
  rintro _ ⟨name, _, rfl, identifier, _, _, rfl, rfl, content, _, rfl, parameters, _, trees, rfl,
    rfl, held⟩
  exact ⟨name, _, rfl, identifier, content, trees, rfl, parameters, held⟩

theorem takes_modifier {w : String} (listed : w ∈ modifiers) :
    Takes (Format.body .accessModifier) w.toList (' ' :: u) := by
  have apart : ∀ w ∈ modifiers, ∀ x ∈ modifiers, x.toList <+: w.toList → x = w := by decide
  rw [body_accessModifier]
  exact takes_keyword named_of_mem_modifiers (apart w listed) listed (by rintro _ ⟨⟩; rfl)

theorem rejects_modifier (closed : h.IsClosed) (plain : h.modifier = none) :
    Rejects (.rule .accessModifier) (h.typed ++ u) := by
  have stop : ∀ c ∈ (h.behind ++ u).head?, isNameChar c = false := by
    have := closed.tail.noName (u := h.name ++ '(' :: (h.parameters ++ ')' :: u))
    simpa [behind] using this
  refine rejects_token rfl ?_
  rw [body_accessModifier, typed, List.append_assoc]
  rcases takes_or_refuses_keyword named_of_mem_modifiers (all_of_isIdentifier closed.first) stop
    with refused | ⟨w, listed, same, -⟩
  · exact refused
  · exact absurd same (closed.plain plain w listed)

theorem foldlM_typed {header : Header} (none : header.throws = []) {throws : List (List Char)}
    {trees : List Part} (row : Both (Node .resultType type Nothing)
      (Both (Node .identifier name Nothing) (Both (Node .parenContent parameters Nothing)
        (Throws throws))) trees)
    (trimmed : IsTrimmed parameters) :
    trees.foldlM Header.add header =
      .ok ⟨header.written ++ String.ofList (type ++ ' ' :: (name ++ '(' :: (parameters ++ [')']))),
        some (String.ofList name), throws.map String.ofList⟩ := by
  have same : Text.trim (String.ofList parameters) = String.ofList parameters :=
    IsTrimmed.trim (by rwa [String.toList_ofList])
  have written : header.written ++ String.ofList type ++ " " ++ String.ofList name ++ "(" ++
      String.ofList parameters ++ ")" = header.written ++
        String.ofList (type ++ ' ' :: (name ++ '(' :: (parameters ++ [')']))) := by
    rw [← String.toList_inj]
    simp
  obtain ⟨_, _, rfl, ⟨_, _, _, rfl, rfl⟩, _, _, rfl, ⟨_, _, _, rfl, rfl⟩, _, clauses, rfl,
    ⟨_, _, _, rfl, rfl⟩, thrown⟩ := row
  rcases thrown with ⟨rfl, rfl⟩ | ⟨part, rfl, rule, texts⟩
  · simp only [List.singleton_append, List.foldlM_cons, List.foldlM_nil, Header.add, Tree.rule,
      Tree.text, same, ← written, none]
    rfl
  · have last (before : Header) : before.add part =
        .ok { before with throws := throws.map String.ofList } := by
      rw [Header.add, rule, ← texts]
    simp only [List.singleton_append, List.foldlM_cons, List.foldlM_nil, last]
    simp only [Header.add, Tree.rule, Tree.text, same, ← written]
    rfl

/-- A header that closes what it opens is read with the parts that it is made of. -/
theorem gets (closed : h.IsClosed) {throws : List (List Char)}
    (dotted : ∀ name ∈ throws, isDotted name = true) (closing : ClosesHeader c) :
    Gets (.rule .productionHeader) (h.text ++ (throwsText throws ++ ' ' :: c :: u)) (c :: u)
      (h.IsReadOf throws) := by
  obtain ⟨t, skipped, thrown⟩ := exists_gets_throwsClause closing dotted (u := u)
  obtain ⟨rest, typed, solid, goesOn⟩ :=
    exists_passes_typed closed (throwsText throws ++ ' ' :: c :: u)
  have type := passes_token .resultType rfl (closed.tail.takes_resultType (u := rest) closed.first)
  have row := (type.gets (.space (.here solid))).seq (goesOn skipped thrown)
  rw [← typed] at row
  have whole : Gets (Format.body .productionHeader) (h.text ++ (throwsText throws ++ ' ' :: c :: u))
      (c :: u) fun trees => trees.foldlM Header.add {} =
        .ok ⟨String.ofList h.text, some (String.ofList h.name), throws.map String.ofList⟩ := by
    cases modified : h.modifier with
    | none =>
        rw [text, modified]
        have begins : Solid (h.typed ++ (throwsText throws ++ ' ' :: c :: u)) := by
          rw [Heading.typed, List.append_assoc]
          exact solid_of_isIdentifier closed.first
        refine ((Gets.noOpt begins (rejects_modifier closed modified)).seq row).imp ?_
        rintro _ ⟨_, trees, rfl, rfl, parts⟩
        rw [List.nil_append, foldlM_typed rfl parts closed.trimmed, ← typed_eq]
        rfl
    | some w =>
        rw [text, modified]
        have modifier := passes_token .accessModifier rfl
          (takes_modifier (u := h.typed ++ (throwsText throws ++ ' ' :: c :: u))
            (closed.modifier w modified))
        have begins : Solid (h.typed ++ (throwsText throws ++ ' ' :: c :: u)) := by
          rw [Heading.typed, List.append_assoc]
          exact solid_of_isIdentifier closed.first
        have whole : w.toList ++ ' ' :: h.typed ++ (throwsText throws ++ ' ' :: c :: u) =
            w.toList ++ ' ' :: (h.typed ++ (throwsText throws ++ ' ' :: c :: u)) := by simp
        rw [whole]
        refine ((modifier.gets (.space (.here begins))).opt.seq row).imp ?_
        rintro _ ⟨_, trees, rfl, ⟨_, _, _, rfl, rfl⟩, parts⟩
        have added (start stop : Nat) :
            Header.add {} (.node .accessModifier start stop (String.ofList w.toList) []) =
              .ok { written := String.ofList (w.toList ++ [' ']) } := by
          simp only [Header.add, Tree.rule, Tree.text]
          congr 2
          rw [← String.toList_inj]
          simp
        rw [List.singleton_append, List.foldlM_cons, added]
        refine (foldlM_typed rfl parts closed.trimmed).trans ?_
        rw [← typed_eq, ← String.ofList_append]
        simp
  refine (Gets.rule .productionHeader rfl whole).imp ?_
  rintro _ ⟨front, start, stop, children, rfl, added⟩
  exact ⟨_, rfl, rfl, added⟩

/-- The header without the blanks at the ends of its lines. -/
def trimmed (h : Heading) : Heading :=
  { h with
    angled := Text.trimLines h.angled
    parameters := Text.trimLines h.parameters }

theorem trimLines_typed (closed : h.IsClosed) : Text.trimLines h.typed = h.trimmed.typed := by
  have dotted : isDotted (h.first ++ h.dots) = true := by
    rcases closed.tail.dots with none | ⟨dotted, dots, whole⟩
    · simpa [none] using isDotted_of_isIdentifier closed.first
    · rw [dots]
      exact isDotted_append (isDotted_of_isIdentifier closed.first) whole
  have oneLine : '\n' ∉ h.squares ++ ' ' :: h.name := by
    obtain ⟨n, squares⟩ := closed.tail.squares
    rw [squares, List.mem_append, List.mem_flatten, List.mem_cons]
    rintro (⟨pair, mem, inside⟩ | blank | named)
    · rw [List.eq_of_mem_replicate mem] at inside
      revert inside
      decide
    · cases blank
    · have := all_of_isIdentifier closed.name _ named
      cases this
  have last (parameters : List Char) : Text.trimLines (h.squares ++ ' ' :: (h.name ++ '(' ::
      (parameters ++ [')']))) = h.squares ++ ' ' :: (h.name ++ '(' ::
        (Text.trimLines parameters ++ [')'])) := by
    have whole (parameters : List Char) :
        h.squares ++ ' ' :: (h.name ++ '(' :: (parameters ++ [')'])) =
          (h.squares ++ ' ' :: h.name) ++ '(' :: (parameters ++ [')']) := by simp
    rw [whole, whole, trimLines_append_solid (c := '(') rfl, trimLines_append_solid (c := ')') rfl,
      trimLines_nil, trimLines_of_not_mem oneLine]
  have types (angled rest : List Char) : h.first ++ (h.dots ++ (angled ++ rest)) =
      (h.first ++ h.dots) ++ (angled ++ rest) := by simp
  have bracketed : Text.trimLines (h.angled ++ (h.squares ++ ' ' :: (h.name ++ '(' ::
      (h.parameters ++ [')'])))) = Text.trimLines h.angled ++ (h.squares ++ ' ' :: (h.name ++ '(' ::
        (Text.trimLines h.parameters ++ [')']))) := by
    rw [trimLines_append (.inl ?_), last]
    rcases closed.tail.angled with none | ⟨inner, angled, -⟩
    · rw [none]
      exact nofun
    · rw [angled, List.getLast?_concat]
      rintro _ ⟨⟩
      exact .inl rfl
  rw [typed, behind, types, trimLines_append_name dotted, bracketed, ← types]
  rfl

theorem trimLines_text (closed : h.IsClosed) : Text.trimLines h.text = h.trimmed.text := by
  have same : h.trimmed.modifier = h.modifier := rfl
  cases modified : h.modifier with
  | none =>
      rw [text, text, same, modified]
      exact trimLines_typed closed
  | some w =>
      rw [text, text, same, modified]
      dsimp only
      have apart : ∀ w ∈ modifiers, '\n' ∉ w.toList ++ [' '] := by decide
      have whole (rest : List Char) : w.toList ++ ' ' :: rest = w.toList ++ [' '] ++ rest := by simp
      have border : (Text.trimLines h.typed).head? ≠ some '\n' := by
        obtain ⟨d, more, named, first, -⟩ := exists_cons_of_isIdentifier closed.first
        rw [trimLines_typed closed, typed, show h.trimmed.first = d :: more from named]
        rintro ⟨⟩
        cases first
      rw [whole, trimLines_append (.inr border), trimLines_typed closed,
        trimLines_of_not_mem (apart w (closed.modifier w modified))]
      exact (whole _).symm

theorem isClosed_trimmed (closed : h.IsClosed) : h.trimmed.IsClosed where
  modifier := closed.modifier
  plain := closed.plain
  first := closed.first
  tail :=
    { dots := closed.tail.dots
      squares := closed.tail.squares
      angled := by
        rcases closed.tail.angled with none | ⟨inner, angled, closes⟩
        · exact .inl (by rw [trimmed, none, trimLines_nil])
        · exact .inr ⟨_, by rw [trimmed, angled, trimLines_between rfl rfl],
            closes_trimLines closes⟩ }
  name := closed.name
  closes := closes_trimLines closed.closes
  solid := by
    have trimmed : IsTrimmed (h.parameters ++ [')']) := by
      refine ⟨?_, by simp [isBlank]⟩
      intro c begins
      cases parameters : h.parameters with
      | nil =>
          rw [parameters] at begins
          cases begins
          rfl
      | cons d more =>
          rw [parameters] at begins
          cases begins
          exact closed.trimmed.first c (by rw [parameters]; rfl)
    have whole := solid_trimLines trimmed closed.solid
    rwa [trimLines_append_solid rfl, trimLines_nil] at whole
  trimmed := closed.trimmed.trimLines

end Heading

end NodeWeave.Grammar.Format
