import NodeWeave.Proofs.Grammar.Constants
import NodeWeave.Proofs.Grammar.Pieces

/-!
Texts of tokens, and what the rules take of a text that begins with one: names, targets of
assignments, terminals, lookaheads, and what stands in parentheses and braces. Trimming the lines of
such a text leaves one of the same kind.
-/

namespace NodeWeave.Grammar.Format

open Peg Peg.Expr Peg.Rules Lexis Text

variable {t u v name chars inner : List Char} {c : Char}

/-! ### Names -/

def EndsName (t : List Char) : Prop :=
  ∀ c ∈ t.head?, isNameChar c = false ∧ c ≠ '.'

theorem takes_nameChars (all : ∀ c ∈ chars, isNameChar c = true)
    (stop : ∀ c ∈ u.head?, isNameChar c = false) : Takes (.star nameChar) chars u := by
  induction chars with
  | nil => exact .noStar (.one stop)
  | cons c rest ih =>
      rw [List.forall_mem_cons] at all
      exact Takes.consStar token_ne_spaced (.one all.1) (ih all.2)

theorem takes_identifier (identifier : isIdentifier name = true)
    (stop : ∀ c ∈ u.head?, isNameChar c = false) : Takes (Format.body .identifier) name u := by
  cases name with
  | nil => cases identifier
  | cons first rest =>
      rw [isIdentifier, Bool.and_eq_true, List.all_eq_true] at identifier
      exact Takes.consSeq token_ne_spaced (.one identifier.1)
        (takes_nameChars identifier.2 stop)

theorem takes_rule_identifier (identifier : isIdentifier name = true)
    (stop : ∀ c ∈ u.head?, isNameChar c = false) : Takes (.rule .identifier) name u :=
  .hidden (.inr rfl) (takes_identifier identifier stop)

theorem isDotted_cases (dotted : isDotted name = true) :
    isIdentifier name = true ∨ ∃ first rest, name = first ++ '.' :: rest ∧
      isIdentifier first = true ∧ isDotted rest = true := by
  by_cases dot : '.' ∈ name
  · obtain ⟨first, rest, rfl, free⟩ := List.eq_append_cons_of_mem dot
    rw [isDotted, List.splitOn_append_cons_self_of_not_mem free, List.all_cons, Bool.and_eq_true]
      at dotted
    exact .inr ⟨first, rest, rfl, dotted⟩
  · rw [isDotted, List.splitOn_eq_singleton dot] at dotted
    exact .inl (by simpa using dotted)

theorem EndsName.noChar (ends : EndsName u) : ∀ c ∈ u.head?, isNameChar c = false :=
  fun c first => (ends c first).1

theorem EndsName.noDot (ends : EndsName u) : Refuses (word ".") u := by
  refine refuses_word '.' rfl ?_
  intro dot
  exact (ends '.' dot).2 rfl

theorem takes_dots (ends : EndsName u) : ∀ {name : List Char}, isDotted name = true →
    Takes (.star (word "." >> .rule .identifier)) ('.' :: name) u := by
  intro name dotted
  have none : Takes (.star (word "." >> .rule .identifier)) [] u := .noStar (.seq ends.noDot)
  rcases isDotted_cases dotted with identifier | ⟨first, rest, rfl, identifier, dotted⟩
  · have taken := takes_rule_identifier (u := [] ++ u) identifier ends.noChar
    rw [← List.append_nil ('.' :: name)]
    exact Takes.star token_ne_spaced (Takes.consSeq token_ne_spaced .text taken) none
  · have taken := takes_rule_identifier (u := '.' :: rest ++ u) identifier
      (by rintro _ ⟨⟩; rfl)
    exact Takes.star (w := '.' :: first) token_ne_spaced (Takes.consSeq token_ne_spaced .text taken)
      (takes_dots ends dotted)
termination_by name => name.length

theorem takes_qualifiedName (dotted : isDotted name = true) (ends : EndsName u) :
    Takes (Format.body .qualifiedName) name u := by
  rcases isDotted_cases dotted with identifier | ⟨first, rest, rfl, identifier, dotted⟩
  · have none : Takes (.star (word "." >> .rule .identifier)) [] u := .noStar (.seq ends.noDot)
    have taken := takes_rule_identifier (u := [] ++ u) identifier ends.noChar
    rw [← List.append_nil name]
    exact Takes.seq token_ne_spaced taken none
  · have taken := takes_rule_identifier (u := '.' :: rest ++ u) identifier
      (by rintro _ ⟨⟩; rfl)
    exact Takes.seq token_ne_spaced taken (takes_dots ends dotted)

theorem takes_rule_qualifiedName (dotted : isDotted name = true) (ends : EndsName u) :
    Takes (.rule .qualifiedName) name u :=
  .hidden (.inr rfl) (takes_qualifiedName dotted ends)

theorem refuses_identifier (other : ∀ c ∈ t.head?, isNameStart c = false) :
    Refuses (.rule .identifier) t :=
  .rule (.seq (.one other))

theorem refuses_qualifiedName (other : ∀ c ∈ t.head?, isNameStart c = false) :
    Refuses (Format.body .qualifiedName) t :=
  .seq (refuses_identifier other)

/-! ### Targets -/

/-- Indices in brackets, one behind the other. -/
inductive Indices : List Char → Prop where
  | nil : Indices []
  | cons {index rest : List Char} (whole : ']' ∉ index) (others : Indices rest) :
      Indices ('[' :: index ++ ']' :: rest)

/-- The text of a target: a dotted name, and indices behind it. -/
def IsTarget (text : List Char) : Prop :=
  ∃ name indices, text = name ++ indices ∧ isDotted name = true ∧ Indices indices

def EndsTarget (t : List Char) : Prop :=
  EndsName t ∧ t.head? ≠ some '['

theorem takes_indices {indices : List Char} (are : Indices indices) (ends : EndsTarget u) :
    Takes (.star (word "[" >> .star (butNot (word "]")) >> word "]")) indices u := by
  induction are with
  | nil => exact .noStar (.seq (refuses_word '[' rfl ends.2))
  | @cons index rest whole _ ih =>
      have inside : Takes (.star (butNot (word "]"))) index ([']'] ++ (rest ++ u)) := by
        clear ih
        induction index with
        | nil => exact .noStar (refuses_butNot .text)
        | cons c index ihIndex =>
            rw [List.mem_cons, not_or] at whole
            refine Takes.consStar token_ne_spaced (takes_butNot (refuses_word ']' rfl ?_))
              (ihIndex whole.2)
            simpa [eq_comm] using whole.1
      have first : Takes (word "[" >> .star (butNot (word "]")) >> word "]")
          (['['] ++ (index ++ [']'])) (rest ++ u) :=
        Takes.seq token_ne_spaced .text (.seq token_ne_spaced inside .text)
      simpa using Takes.star token_ne_spaced first ih

theorem takes_lhs {target : List Char} (is : IsTarget target) (ends : EndsTarget u) :
    Takes (Format.body .lhs) target u := by
  obtain ⟨name, indices, rfl, dotted, are⟩ := is
  refine Takes.seq token_ne_spaced (takes_rule_qualifiedName dotted ?_) (takes_indices are ends)
  cases are with
  | nil => exact ends.1
  | cons =>
      rintro _ ⟨⟩
      exact ⟨rfl, nofun⟩

/-! ### Terminals -/

/-- The text of a terminal: a literal, or what stands in angle brackets. -/
def IsTerminal (text : List Char) : Prop :=
  (∃ inner, text = '"' :: inner ++ ['"'] ∧ Inside .double inner) ∨
    ∃ inner, text = '<' :: inner ++ ['>'] ∧ Bracket.angle.lexis.Closes 0 inner

theorem takes_angled (closes : Bracket.angle.lexis.Closes 0 inner) :
    Takes angled ('<' :: inner ++ ['>']) u := by
  have inside : Takes (.star (.rule .anglePiece)) inner ('>' :: u) :=
    takes_sealed (b := .angle) closes.sealed rfl
  exact Takes.consSeq token_ne_spaced .text (.seq token_ne_spaced inside .text)

theorem takes_terminal {text : List Char} (is : IsTerminal text) :
    Takes (Format.body .terminal) text u := by
  rcases is with ⟨inner, rfl, inside⟩ | ⟨inner, rfl, closes⟩
  · exact .altFirst (takes_literal .double inside)
  · exact .altSecond (refuses_literal .double (by simp [Quote.char]))
      (takes_angled closes)

/-! ### Lookaheads -/

/-- A character that may stand between the word and the parenthesis of a lookahead. -/
def isLookaheadGap (c : Char) : Bool :=
  c == ' ' || c == '\t' || c == '\n' || c == '\r'

def IsLookahead (text : List Char) : Prop :=
  ∃ gap inner, text = "LOOKAHEAD".toList ++ (gap ++ ('(' :: inner ++ [')'])) ∧
    (∀ c ∈ gap, isLookaheadGap c = true) ∧ Bracket.paren.lexis.Closes 0 inner

theorem takes_lookaheadGap {gap : List Char} (all : ∀ c ∈ gap, isLookaheadGap c = true)
    (stop : ∀ c ∈ u.head?, isLookaheadGap c = false) :
    Takes (.star (.one (fun c => c == ' ' || c == '\t') <|> newline)) gap u := by
  match gap with
  | [] =>
      refine .noStar (.alt (.one fun c first => ?_) (refuses_newline fun c first => ?_))
      all_goals
        have := stop c first
        simp [isLookaheadGap] at this
        simp [this, Quote.endsLine]
  | c :: rest =>
      rw [List.forall_mem_cons] at all
      have blank (accepted : (c == ' ' || c == '\t') = true) :
          Takes (.one (fun c => c == ' ' || c == '\t') <|> newline) [c] (rest ++ u) :=
        .altFirst (.one accepted)
      have feed (refused : (c == ' ' || c == '\t') = false)
          (taken : Takes newline [c] (rest ++ u)) :
          Takes (.one (fun c => c == ' ' || c == '\t') <|> newline) [c] (rest ++ u) :=
        .altSecond (.one (by rintro _ ⟨⟩; exact refused)) taken
      have noFeed : Refuses (word "\n") ('\r' :: rest ++ u) := refuses_word '\n' rfl (by simp)
      have later := takes_lookaheadGap all.2 stop
      have gap := all.1
      simp only [isLookaheadGap, Bool.or_eq_true, beq_iff_eq] at gap
      rcases gap with ((rfl | rfl) | rfl) | rfl
      · exact Takes.consStar token_ne_spaced (blank rfl) later
      · exact Takes.consStar token_ne_spaced (blank rfl) later
      · exact Takes.consStar token_ne_spaced (feed rfl (.altFirst .text)) later
      · by_cases paired : ['\r', '\n'] <+: '\r' :: rest ++ u
        · -- The line feed behind the return is in the gap, too.
          cases rest with
          | nil =>
              obtain ⟨more, same⟩ := paired
              obtain ⟨-, same⟩ := List.cons.inj same
              have := stop '\n' (by rw [show u = '\n' :: more from same.symm]; rfl)
              cases this
          | cons d rest =>
              obtain ⟨more, same⟩ := paired
              obtain ⟨-, same⟩ := List.cons.inj same
              obtain ⟨rfl, -⟩ := List.cons.inj same
              rw [List.forall_mem_cons] at all
              refine Takes.star (w := ['\r', '\n']) token_ne_spaced
                (.altSecond ?_ (.altSecond noFeed ?_)) (takes_lookaheadGap all.2.2 stop)
              · exact .one (by rintro _ ⟨⟩; rfl)
              · exact .altFirst .text
        · exact Takes.consStar token_ne_spaced
            (feed rfl (.altSecond noFeed (.altSecond (.text paired) .text))) later
termination_by gap.length

theorem takes_lookahead {text : List Char} (is : IsLookahead text) :
    Takes (Format.body .localLookahead) text u := by
  obtain ⟨gap, inner, rfl, all, closes⟩ := is
  have inside : Takes (.star (.rule .parenPiece)) inner (')' :: u) :=
    takes_sealed (b := .paren) closes.sealed rfl
  have gaps : Takes (.star (.one (fun c => c == ' ' || c == '\t') <|> newline)) gap
      ('(' :: inner ++ [')'] ++ u) :=
    takes_lookaheadGap all (by rintro _ ⟨⟩; rfl)
  exact Takes.seq token_ne_spaced .text
    (.seq token_ne_spaced gaps
      (Takes.consSeq token_ne_spaced .text (.seq token_ne_spaced inside .text)))

/-! ### Brackets -/

/-- Blanks and comments in front of a sealed text are skipped, and the rest of it is sealed. -/
theorem exists_content {lex : Lexis} (comments : lex.comments = true)
    (solidOpening : ∀ o ∈ lex.opening, ∀ t, Solid (o :: t)) (solid : Solid v)
    (apart : ∀ c ∈ v.head?, c ≠ '/' ∧ c ≠ '*') (sealed : Sealed lex inner) :
    ∃ front content, inner = front ++ content ∧ lex.scan (.code, 0) front = some (.code, 0) ∧
      Skipped (inner ++ v) (content ++ v) ∧ Sealed lex content := by
  have solidQuote (quote : Quote) (t : List Char) : Solid (quote.char :: t) := by
    cases quote <;> exact solid_cons rfl (by decide)
  induction sealed with
  | nil => exact ⟨[], [], rfl, rfl, .here solid, .nil⟩
  | @nest o c inner rest opens closes inside sealed =>
      exact ⟨[], _, rfl, rfl, .here (solidOpening o opens _), .nest opens closes inside sealed⟩
  | @item item rest is sealed ih =>
      obtain ⟨front, content, rfl, scanned, skipped, others⟩ := ih
      have behind {item : List Char} (first : lex.scan (.code, 0) item = some (.code, 0)) :
          lex.scan (.code, 0) (item ++ front) = some (.code, 0) := by
        rw [scan_append_of_eq first, scanned]
      cases is with
      | @plain c _ plain =>
          by_cases gap : isGapChar c = true
          · have stay : lex.scan (.code, 0) [c] = some (.code, 0) :=
              scan_of_isPlain (by simpa using plain)
            exact ⟨c :: front, content, rfl, behind stay, .blank gap skipped, others⟩
          · exact ⟨[], c :: (front ++ content), rfl, rfl,
              .here (solid_cons (Bool.eq_false_iff.mpr gap) (plain.noSlash comments)),
              .item (.plain plain) sealed⟩
      | slash _ admitted alone =>
          refine ⟨[], '/' :: (front ++ content), rfl, rfl, .here ⟨by rintro _ ⟨⟩; rfl, ?_⟩,
            .item (.slash comments admitted alone) sealed⟩
          have apart : ∀ c ∈ (front ++ content ++ v).head?, c ≠ '/' ∧ c ≠ '*' := by
            intro c first
            cases whole : front ++ content with
            | nil =>
                rw [whole] at first
                exact apart c first
            | cons d more =>
                rw [whole] at first alone
                exact alone c first
          rintro (⟨more, same⟩ | ⟨more, same⟩)
          all_goals
            obtain ⟨-, same⟩ := List.cons.inj same
            have := apart _ (by rw [show front ++ content ++ v = _ from same.symm]; rfl)
            simp at this
      | @literal quote _ _ listed inside =>
          exact ⟨[], _, rfl, rfl, .here (solidQuote quote _), .item (.literal listed inside) sealed⟩
      | @block body _ _ unended =>
          refine ⟨_, content, (List.append_assoc _ _ _).symm, behind
            (scan_blockComment comments unended),
            ?_, others⟩
          rw [List.append_assoc]
          exact .block unended skipped
      | @line body _ c _ unended ended =>
          refine ⟨_, content, (List.append_assoc _ _ _).symm,
            behind (scan_lineComment comments unended ended), ?_, others⟩
          have whole : ('/' :: '/' :: body ++ [c]) ++ (front ++ content) ++ v =
              '/' :: '/' :: body ++ c :: (front ++ content ++ v) := by simp
          rw [whole]
          exact .line unended ended skipped

theorem passes_parenContent (closes : Bracket.paren.lexis.Closes 0 inner) :
    ∃ t, Skipped (inner ++ ')' :: u) t ∧ Passes (.rule .parenContent) t (')' :: u)
      fun trees => ∃ text, Node .parenContent text Nothing trees := by
  have solidOpening : ∀ o ∈ Bracket.paren.lexis.opening, ∀ t, Solid (o :: t) := by
    rintro _ ⟨⟩ t
    exact solid_cons rfl (by decide)
  obtain ⟨_, content, -, -, skipped, sealed⟩ := exists_content (v := ')' :: u) rfl solidOpening
    (solid_cons rfl (by decide)) (by simp) closes.sealed
  have taken : Takes (Format.body .parenContent) content (')' :: u) :=
    takes_sealed (b := .paren) sealed rfl
  exact ⟨_, skipped, (passes_token .parenContent rfl taken).imp fun _ node => ⟨content, node⟩⟩

/-- A single tree of a block with this text between its braces. -/
def Block (text : List Char) (trees : List Part) : Prop :=
  ∃ part : Part, trees = [part] ∧ part.rule = .javaBlock ∧ part.blockText = String.ofList text

theorem passes_javaBlock (closes : Bracket.brace.lexis.Closes 0 inner) :
    Passes (.rule .javaBlock) ('\x7b' :: inner ++ '\x7d' :: u) u (Block inner) := by
  have tight : Mode.compact ≠ .spaced := by decide
  have taken : Takes (Format.body .blockContent) inner ('\x7d' :: u) :=
    takes_sealed (b := .brace) closes.sealed rfl
  intro o
  have shows : ¬ rules.Hides .compact .blockContent := by rintro (⟨⟨⟩⟩ | ⟨⟨⟩⟩)
  have apart (o : Nat) (t : List Char) :
      rules.Parses .token (rules.gap .compact) o t (some ⟨[], t, []⟩) := .done
  have content (o : Nat) := Parses.seq (Parses.shown shows (taken o)) (apart _ _)
    (Parses.text "\x7d".toList u)
  have blockShows : ¬ rules.Hides .spaced .javaBlock := by rintro (⟨⟨⟩⟩ | ⟨⟨⟩⟩)
  exact ⟨_, _, .shown blockShows (.seq (.text "\x7b".toList _) (apart _ _) (content _)), _, rfl,
    rfl, rfl⟩

/-! ### Trimmed lines -/

theorem trimLines_inside (inside : Inside .double inner) : trimLines inner = inner := by
  have border {inner : List Char} (inside : Inside .double inner) : inner.head? ≠ some '\n' := by
    cases inside with
    | nil => simp
    | char _ _ allowed =>
        rintro ⟨⟩
        cases allowed
    | escape => simp
  induction inside with
  | nil => rfl
  | @char c body noQuote noBackslash allowed rest ih =>
      rw [trimLines, ih, if_neg]
      simp [border rest]
  | @escape c body rest ih =>
      rw [trimLines_cons_of_solid rfl, trimLines, ih, if_neg]
      simp [border rest]

theorem closes_trimLines {lex : Lexis} (closes : lex.Closes 0 inner) :
    lex.Closes 0 (trimLines inner) := by
  obtain ⟨place, scanned, rested⟩ := closes
  exact ⟨place, scan_trimLines scanned, rested⟩

theorem trimLines_between {o d : Char} (opening : isBlank o = false) (closing : isBlank d = false) :
    trimLines (o :: inner ++ [d]) = o :: trimLines inner ++ [d] := by
  rw [List.cons_append, trimLines_cons_of_solid opening, trimLines_append_solid closing,
    trimLines_nil]
  rfl

theorem IsTerminal.trimLines {text : List Char} (is : IsTerminal text) :
    IsTerminal (trimLines text) := by
  rcases is with ⟨inner, rfl, inside⟩ | ⟨inner, rfl, closes⟩
  · rw [trimLines_between rfl rfl, trimLines_inside inside]
    exact .inl ⟨inner, rfl, inside⟩
  · rw [trimLines_between rfl rfl]
    exact .inr ⟨_, rfl, closes_trimLines closes⟩

theorem IsLookahead.trimLines {text : List Char} (is : IsLookahead text) :
    IsLookahead (trimLines text) := by
  obtain ⟨gap, inner, rfl, all, closes⟩ := is
  have word : Text.trimLines "LOOKAHEAD".toList = "LOOKAHEAD".toList := by decide
  refine ⟨Text.trimLines gap, Text.trimLines inner, ?_,
    fun c mem => all c (mem_of_mem_trimLines mem), closes_trimLines closes⟩
  have last : ∀ c ∈ "LOOKAHEAD".toList.getLast?, IsKept c := by
    rintro _ ⟨⟩
    exact .inl rfl
  rw [trimLines_append (.inl last), word, List.cons_append, trimLines_append_solid rfl,
    trimLines_append_solid rfl, trimLines_nil]
  rfl

theorem Indices.trimLines {indices : List Char} (are : Indices indices) :
    Indices (trimLines indices) := by
  induction are with
  | nil => exact .nil
  | @cons index rest whole _ ih =>
      rw [List.cons_append, trimLines_cons_of_solid rfl, trimLines_append_solid rfl]
      exact .cons (fun mem => whole (mem_of_mem_trimLines mem)) ih

def IsDottedChar (c : Char) : Prop :=
  c = '.' ∨ isNameChar c = true

theorem IsDottedChar.small (named : IsDottedChar c) : c.toNat < 128 := by
  rcases named with rfl | named
  · decide
  · exact small_of_isNameChar named

/-- What holds of all characters of dotted names below 128 holds of all of them. -/
theorem IsDottedChar.elim {P : Char → Prop}
    (all : ∀ code : Fin 128, IsDottedChar (Char.ofNat code) → P (Char.ofNat code))
    (named : IsDottedChar c) : P c :=
  of_small (P := fun c => IsDottedChar c → P c) all named.small named

instance (c : Char) : Decidable (IsDottedChar c) :=
  inferInstanceAs (Decidable (c = '.' ∨ isNameChar c = true))

theorem isDottedChar_of_mem (dotted : isDotted name = true) (mem : c ∈ name) : IsDottedChar c := by
  have dotted : isDotted (String.ofList name).toList = true := by rwa [String.toList_ofList]
  exact isNameChar_of_isDotted dotted (by rwa [String.toList_ofList])

theorem IsDottedChar.solid (named : IsDottedChar c) : isBlank c = false :=
  named.elim (P := fun c => isBlank c = false) (by decide)

theorem trimLines_append_name (dotted : isDotted name = true) (chars : List Char) :
    trimLines (name ++ chars) = name ++ trimLines chars := by
  have whole : trimLines name = name := by
    refine trimLines_of_not_mem fun mem => ?_
    have := (isDottedChar_of_mem dotted mem).solid
    cases this
  rw [trimLines_append (.inl ?_), whole]
  intro c last
  exact .inl (isDottedChar_of_mem dotted (List.mem_of_mem_getLast? last)).solid

theorem IsTarget.trimLines {text : List Char} (is : IsTarget text) : IsTarget (trimLines text) := by
  obtain ⟨name, indices, rfl, dotted, are⟩ := is
  exact ⟨name, _, trimLines_append_name dotted indices, dotted, are.trimLines⟩

end NodeWeave.Grammar.Format
