import NodeWeave.Grammar.Reader
import NodeWeave.Grammar.Rule
import NodeWeave.Proofs.Peg.Parsing
import NodeWeave.Proofs.Text.Lexis

/-!
What stands between brackets in a grammar file: literals, comments and bracketed texts, which are
copied as they are. Main statement: a text between brackets in which everything is closed is taken
as a whole, up to the closing bracket and no further.
-/

namespace NodeWeave.Grammar.Format

open Peg Peg.Expr Peg.Rules Lexis

/-- The brackets around texts that are copied as they are. -/
inductive Bracket where
  | brace
  | paren
  | angle
  deriving DecidableEq, Repr

namespace Bracket

def opening : Bracket → Char
  | brace => '\x7b'
  | paren => '('
  | angle => '<'

def closing : Bracket → Char
  | brace => '\x7d'
  | paren => ')'
  | angle => '>'

def piece : Bracket → Rule
  | brace => .blockPiece
  | paren => .parenPiece
  | angle => .anglePiece

/-- Between angle brackets an apostrophe and a slash are nothing special. -/
def lexis (b : Bracket) : Lexis where
  opening := some b.opening
  closing := some b.closing
  quotes := if b = angle then [.double] else [.double, .single]
  comments := decide (b ≠ angle)
  admits := fun _ => true
  solid := by
    rintro c blank
    cases b <;> refine ⟨?_, ?_⟩ <;> rintro ⟨⟩ <;> cases blank

end Bracket

abbrev Takes (e : Expr Rule) (front rest : List Char) : Prop :=
  rules.Takes .token e front rest

abbrev Refuses (e : Expr Rule) (text : List Char) : Prop :=
  rules.Refuses .token e text

variable {t u inner rest : List Char} {c : Char} {b : Bracket}

/-! ### Single characters -/

theorem refuses_word (o : Char) {w : String} (begins : w.toList.head? = some o)
    (other : t.head? ≠ some o) : Refuses (word w) t := by
  refine .text ?_
  rintro ⟨more, rfl⟩
  obtain ⟨behind, same⟩ := List.head?_eq_some_iff.mp begins
  rw [same] at other
  exact other rfl

theorem takes_butNot {stop : Expr Rule} (other : Refuses stop (c :: u)) :
    Takes (butNot stop) [c] u :=
  Takes.seq (w := []) (by decide) (.unless other) (.one rfl)

theorem refuses_butNot {stop : Expr Rule} {f : List Char} (found : Takes stop f rest) :
    Refuses (butNot stop) (f ++ rest) :=
  .seq (.unless found)

/-! ### Literals -/

def stop : Quote → Expr Rule
  | .double => word "\"" <|> word "\\" <|> newline
  | .single => word "'" <|> word "\\"

def literal : Quote → Rule
  | .double => .javaString
  | .single => .javaChar

theorem body_literal (quote : Quote) :
    Format.body (literal quote) = quoted (String.singleton quote.char) (stop quote) := by
  cases quote <;> rfl

theorem refuses_newline (other : ∀ c ∈ t.head?, Quote.endsLine c = false) : Refuses newline t := by
  have apart : t.head? ≠ some '\n' ∧ t.head? ≠ some '\r' := by
    constructor <;> intro same <;> cases other _ same
  refine .alt (refuses_word '\n' rfl apart.1)
    (.alt (refuses_word '\r' rfl apart.2) (refuses_word '\r' rfl apart.2))

theorem exists_takes_newline (ends : Quote.endsLine c = true) (rest : List Char) :
    ∃ front behind, c :: rest = front ++ behind ∧ Takes newline front behind := by
  simp only [Quote.endsLine, Bool.or_eq_true, beq_iff_eq] at ends
  rcases ends with rfl | rfl
  · exact ⟨['\n'], rest, rfl, .altFirst .text⟩
  · have noFeed : Refuses (word "\n") ('\r' :: rest) := refuses_word '\n' rfl (by simp)
    by_cases paired : ['\r', '\n'] <+: '\r' :: rest
    · obtain ⟨behind, same⟩ := paired
      refine ⟨['\r', '\n'], behind, same.symm, .altSecond ?_ (.altFirst .text)⟩
      rw [same]
      exact noFeed
    · exact ⟨['\r'], rest, rfl, .altSecond noFeed (.altSecond (.text paired) .text)⟩

theorem refuses_stop {quote : Quote} (noQuote : c ≠ quote.char) (noBackslash : c ≠ '\\')
    (allowed : quote.forbids c = false) : Refuses (stop quote) (c :: rest) := by
  have backslash : Refuses (word "\\") (c :: rest) :=
    refuses_word '\\' rfl (by simpa using noBackslash)
  cases quote with
  | double =>
      refine .alt (refuses_word '"' rfl (by simpa [Quote.char] using noQuote))
        (.alt backslash (refuses_newline ?_))
      rintro _ ⟨⟩
      exact allowed
  | single => exact .alt (refuses_word '\'' rfl (by simpa [Quote.char] using noQuote)) backslash

theorem takes_inside {quote : Quote} (inside : Inside quote inner) :
    Takes (.star ((word "\\" >> anyChar) <|> butNot (stop quote))) inner (quote.char :: rest) := by
  induction inside with
  | nil =>
      refine .noStar (.alt (.seq (refuses_word '\\' rfl ?_)) ?_)
      · cases quote <;> simp [Quote.char]
      · cases quote with
        | double => exact refuses_butNot (f := ['"']) (.altFirst .text)
        | single => exact refuses_butNot (f := ['\'']) (.altFirst .text)
  | @char c inner noQuote noBackslash allowed _ ih =>
      refine Takes.consStar token_ne_spaced (.altSecond ?_ (takes_butNot ?_)) ih
      · exact .seq (refuses_word '\\' rfl (by simpa using noBackslash))
      · exact refuses_stop noQuote noBackslash allowed
  | @escape c inner _ ih =>
      refine Takes.star (w := ['\\', c]) token_ne_spaced (.altFirst ?_) ih
      exact Takes.consSeq (v := [c]) token_ne_spaced .text (.one rfl)

theorem takes_literal (quote : Quote) (inside : Inside quote inner) :
    Takes (.rule (literal quote)) (quote.char :: inner ++ [quote.char]) rest := by
  refine .hidden (.inl (by cases quote <;> rfl)) ?_
  have whole : Takes (quoted (String.singleton quote.char) (stop quote))
      ([quote.char] ++ (inner ++ [quote.char])) rest := by
    refine .seq token_ne_spaced ?_ (.seq token_ne_spaced (takes_inside inside) ?_)
    · cases quote <;> exact .text
    · cases quote <;> exact .text
  have silent : (rules.kind (literal quote)).inner .token = .token := by cases quote <;> rfl
  rw [silent, show rules.body (literal quote) = _ from body_literal quote]
  exact whole

theorem refuses_literal (quote : Quote) (other : t.head? ≠ some quote.char) :
    Refuses (.rule (literal quote)) t := by
  refine .rule ?_
  have silent : (rules.kind (literal quote)).inner .token = .token := by cases quote <;> rfl
  rw [silent, show rules.body (literal quote) = _ from body_literal quote]
  refine .seq ?_
  cases quote with
  | double => exact refuses_word '"' rfl other
  | single => exact refuses_word '\'' rfl other

/-! ### Comments -/

def StartsComment (t : List Char) : Prop :=
  ['/', '*'] <+: t ∨ ['/', '/'] <+: t

theorem refuses_comment (none : ¬ StartsComment t) : Refuses comment t := by
  rw [StartsComment, not_or] at none
  exact .alt (.seq (.text none.1)) (.seq (.text none.2))

theorem takes_block (unended : ¬ ['*', '/'] <:+: inner) :
    Takes comment ('/' :: '*' :: inner ++ ['*', '/']) rest := by
  have inside : Takes (.star (butNot (word "*/"))) inner (['*', '/'] ++ rest) := by
    induction inner with
    | nil => exact .noStar (refuses_butNot .text)
    | cons c inner ih =>
        rw [List.infix_cons_iff, not_or] at unended
        refine Takes.consStar token_ne_spaced (takes_butNot (.text ?_)) (ih unended.2)
        rintro ⟨more, same⟩
        cases inner with
        | nil => cases same
        | cons d inner =>
            cases same
            exact unended.1 ⟨inner, rfl⟩
  exact .altFirst (Takes.seq (w := ['/', '*']) token_ne_spaced .text
    (.seq token_ne_spaced inside .text))

theorem takes_line (unended : ∀ d ∈ inner, Quote.endsLine d = false)
    (ends : ∀ d ∈ rest.head?, Quote.endsLine d = true) :
    Takes comment ('/' :: '/' :: inner) rest := by
  have inside : Takes (.star (butNot newline)) inner rest := by
    induction inner with
    | nil =>
        refine .noStar ?_
        cases rest with
        | nil =>
            have none : Refuses newline [] := refuses_newline (by simp)
            exact .seqSecond (w := []) token_ne_spaced (.unless none) (.one (by simp))
        | cons d rest =>
            obtain ⟨front, behind, same, taken⟩ := exists_takes_newline (ends d rfl) rest
            rw [same]
            exact refuses_butNot taken
    | cons c inner ih =>
        rw [List.forall_mem_cons] at unended
        refine Takes.consStar token_ne_spaced (takes_butNot (refuses_newline ?_)) (ih unended.2)
        rintro _ ⟨⟩
        exact unended.1
  refine .altSecond (.seq (.text ?_)) (Takes.seq (w := ['/', '/']) token_ne_spaced .text inside)
  rintro ⟨more, same⟩
  exact absurd (congrArg (·[1]?) same) (by simp)

/-! ### Pieces -/

namespace Bracket

variable (b : Bracket)

def nested : Expr Rule :=
  word (String.singleton b.opening) >> .star (.rule b.piece) >> word (String.singleton b.closing)

def inside : Expr Rule :=
  butNot (word (String.singleton b.opening) <|> word (String.singleton b.closing))

def orLiteral (other : Expr Rule) : Expr Rule :=
  match b with
  | angle => .rule .javaString <|> other
  | brace | paren => .rule .javaString <|> .rule .javaChar <|> .rule .javaComment <|> other

theorem body_piece : Format.body b.piece = b.orLiteral (b.nested <|> b.inside) := by
  cases b <;> rfl

def IsBare (t : List Char) : Prop :=
  t.head? ≠ some '"' ∧ (b ≠ angle → t.head? ≠ some '\'' ∧ ¬ StartsComment t)

end Bracket

theorem refuses_javaComment (none : ¬ StartsComment t) : Refuses (.rule .javaComment) t :=
  .rule (refuses_comment none)

theorem takes_javaComment (taken : Takes comment t u) : Takes (.rule .javaComment) t u :=
  .hidden (.inl rfl) taken

section

variable {other : Expr Rule} {w : List Char}

theorem takes_orLiteral (bare : b.IsBare (w ++ rest)) (taken : Takes other w rest) :
    Takes (b.orLiteral other) w rest := by
  have noString : Refuses (.rule .javaString) (w ++ rest) :=
    refuses_literal .double bare.1
  have others (apart : b ≠ .angle) : Takes (.rule .javaString <|> .rule .javaChar <|>
      .rule .javaComment <|> other) w rest :=
    .altSecond noString (.altSecond (refuses_literal .single (bare.2 apart).1)
      (.altSecond (refuses_javaComment (bare.2 apart).2) taken))
  cases b with
  | angle => exact .altSecond noString taken
  | brace | paren => exact others nofun

theorem refuses_orLiteral (bare : b.IsBare t) (refused : Refuses other t) :
    Refuses (b.orLiteral other) t := by
  have noString : Refuses (.rule .javaString) t := refuses_literal .double bare.1
  have others (apart : b ≠ .angle) : Refuses (.rule .javaString <|> .rule .javaChar <|>
      .rule .javaComment <|> other) t :=
    .alt noString (.alt (refuses_literal .single (bare.2 apart).1)
      (.alt (refuses_javaComment (bare.2 apart).2) refused))
  cases b with
  | angle => exact .alt noString refused
  | brace | paren => exact others nofun

theorem takes_piece (taken : Takes (b.orLiteral (b.nested <|> b.inside)) w rest) :
    Takes (.rule b.piece) w rest := by
  refine .hidden (.inl (by cases b <;> rfl)) ?_
  have silent : (rules.kind b.piece).inner .token = .token := by cases b <;> rfl
  rw [silent, show rules.body b.piece = _ from b.body_piece]
  exact taken

theorem refuses_piece (refused : Refuses (b.orLiteral (b.nested <|> b.inside)) t) :
    Refuses (.rule b.piece) t := by
  refine .rule ?_
  have silent : (rules.kind b.piece).inner .token = .token := by cases b <;> rfl
  rw [silent, show rules.body b.piece = _ from b.body_piece]
  exact refused

end

theorem refuses_bracket {o : Char} (other : t.head? ≠ some o) :
    Refuses (word (String.singleton o)) t :=
  refuses_word o (by simp) other

theorem takes_bracket (o : Char) : Takes (word (String.singleton o)) [o] rest := by
  have whole : (String.singleton o).toList = [o] := by simp
  rw [Expr.word, whole]
  exact .text

theorem isBare_bracket {o : Char} (bracket : o = b.opening ∨ o = b.closing) :
    b.IsBare (o :: rest) := by
  refine ⟨?_, fun _ => ⟨?_, ?_⟩⟩
  · rcases bracket with rfl | rfl <;> cases b <;> simp [Bracket.opening, Bracket.closing]
  · rcases bracket with rfl | rfl <;> cases b <;> simp [Bracket.opening, Bracket.closing]
  · rintro (⟨more, same⟩ | ⟨more, same⟩)
    all_goals
      obtain ⟨rfl, -⟩ := List.cons.inj same
      cases b <;> simp [Bracket.opening, Bracket.closing] at bracket

theorem refuses_closing (closing : t.head? = some b.closing) : Refuses (.rule b.piece) t := by
  obtain ⟨rest, rfl⟩ := List.head?_eq_some_iff.mp closing
  refine refuses_piece (refuses_orLiteral (isBare_bracket (.inr rfl)) (.alt (.seq ?_) ?_))
  · refine refuses_bracket ?_
    cases b <;> simp [Bracket.opening, Bracket.closing]
  · have opening := refuses_bracket (t := b.closing :: rest) (o := b.opening)
      (by cases b <;> simp [Bracket.opening, Bracket.closing])
    exact refuses_butNot (f := [b.closing]) (.altSecond opening (takes_bracket b.closing))

theorem takes_nested (sealed : Takes (.star (.rule b.piece)) t (b.closing :: rest)) :
    Takes (.rule b.piece) (b.opening :: t ++ [b.closing]) rest := by
  refine takes_piece (takes_orLiteral (isBare_bracket (.inl rfl)) (.altFirst ?_))
  exact Takes.consSeq token_ne_spaced (takes_bracket b.opening)
    (.seq token_ne_spaced sealed (takes_bracket b.closing))

/-! ### Sealed texts -/

theorem not_startsComment (other : c ≠ '/') : ¬ StartsComment (c :: rest) := by
  rintro (⟨more, same⟩ | ⟨more, same⟩)
  all_goals exact other (List.cons.inj same).1.symm

/-- Where it is allowed to, the expression takes literals and comments as a whole and what else
there is character by character. -/
structure TakesItems (b : Bracket) (lex : Lexis) (e other : Expr Rule)
    (allowed : List Char → Prop) : Prop where
  quotes : lex.quotes = b.lexis.quotes
  comments : lex.comments = b.lexis.comments
  whole : ∀ {w rest : List Char}, allowed (w ++ rest) → Takes (b.orLiteral other) w rest →
    Takes e w rest
  single : ∀ {c : Char} {rest : List Char}, lex.IsPlain c ∨ c = '/' ∨ Quote.endsLine c = true →
    Takes other [c] rest
  feed : ∀ {c : Char} {rest : List Char}, Quote.endsLine c = true → allowed (c :: rest)

theorem takes_comment {other : Expr Rule} {text : List Char} (apart : b ≠ .angle)
    (begins : text.head? = some '/') (taken : Takes (.rule .javaComment) text behind) :
    Takes (b.orLiteral other) text behind := by
  have noLiteral (quote : Quote) : Refuses (.rule (literal quote)) (text ++ behind) := by
    refine refuses_literal quote ?_
    rw [List.head?_append, begins]
    cases quote <;> simp [Quote.char]
  cases b with
  | angle => exact absurd rfl apart
  | brace | paren =>
      exact .altSecond (noLiteral .double) (.altSecond (noLiteral .single) (.altFirst taken))

theorem TakesItems.item {lex : Lexis} {e other : Expr Rule} {allowed : List Char → Prop}
    (takes : TakesItems b lex e other allowed) {item behind : List Char}
    (is : Lexis.Item lex item (rest ++ behind)) (here : allowed (item ++ (rest ++ behind)))
    (others : Takes (.star e) rest behind) : Takes (.star e) (item ++ rest) behind := by
  have single {c : Char} (kind : lex.IsPlain c ∨ c = '/' ∨ Quote.endsLine c = true)
      (bare : b.IsBare (c :: (rest ++ behind))) (here : allowed (c :: (rest ++ behind))) :
      Takes (.star e) (c :: rest) behind :=
    Takes.consStar token_ne_spaced
      (takes.whole here (takes_orLiteral bare (takes.single kind))) others
  have toldApart (comments : lex.comments = true) : b ≠ .angle := by
    rw [takes.comments] at comments
    exact of_decide_eq_true comments
  generalize whole : rest ++ behind = more at is
  cases is with
  | @plain c _ plain =>
      refine single (.inl plain) ⟨?_, fun apart => ⟨?_, ?_⟩⟩ here
      · have := plain.noQuote .double (by cases b <;> simp [takes.quotes, Bracket.lexis])
        simpa [Quote.char, eq_comm] using this
      · have := plain.noQuote .single (by simp [takes.quotes, Bracket.lexis, apart])
        simpa [Quote.char, eq_comm] using this
      · exact not_startsComment
          (plain.noSlash (by simpa [takes.comments, Bracket.lexis] using apart))
  | slash comments admitted alone =>
      refine single (.inr (.inl rfl)) ⟨by simp, fun _ => ⟨by simp, ?_⟩⟩ here
      rintro (⟨more, same⟩ | ⟨more, same⟩)
      all_goals
        obtain ⟨-, same⟩ := List.cons.inj same
        rw [whole] at same
        have := alone _ (by rw [← same]; rfl)
        simp at this
  | @literal quote inner _ listed inside =>
      refine Takes.star token_ne_spaced (takes.whole here ?_) others
      have taken : Takes (.rule (literal quote)) _ (rest ++ behind) := takes_literal quote inside
      cases quote with
      | double => cases b <;> exact .altFirst taken
      | single =>
          have noString : Refuses (.rule (literal .double))
              ((Quote.single.char :: inner ++ [Quote.single.char]) ++ (rest ++ behind)) :=
            refuses_literal .double (by simp [Quote.char])
          cases b with
          | angle => simp [takes.quotes, Bracket.lexis] at listed
          | brace | paren => exact .altSecond noString (.altFirst taken)
  | block comments unended =>
      have taken : Takes (.rule .javaComment) _ (rest ++ behind) :=
        takes_javaComment (takes_block unended)
      exact Takes.star token_ne_spaced
        (takes.whole here (takes_comment (toldApart comments) rfl taken)) others
  | @line inner _ c comments unended ended =>
      -- The comment is one piece, and the end of its line another one.
      have last : Takes (.star e) (c :: rest) behind := by
        have feed : c = '\n' ∨ c = '\r' := by simpa [Quote.endsLine] using ended
        refine single (.inr (.inr ended)) ⟨?_, fun _ => ⟨?_, not_startsComment ?_⟩⟩
          (takes.feed ended)
        all_goals rcases feed with rfl | rfl <;> simp
      have taken : Takes (.rule .javaComment) _ (c :: rest ++ behind) :=
        takes_javaComment (takes_line unended (by rintro _ ⟨⟩; exact ended))
      have piece : Takes e ('/' :: '/' :: inner) (c :: rest ++ behind) :=
        takes.whole (by simpa using here) (takes_comment (toldApart comments) rfl taken)
      simpa using Takes.star token_ne_spaced piece last

theorem takesItems_piece (b : Bracket) :
    TakesItems b b.lexis (.rule b.piece) (b.nested <|> b.inside) fun _ => True where
  quotes := rfl
  comments := rfl
  whole := fun _ taken => takes_piece taken
  single := by
    intro c rest kind
    have apart : c ≠ b.opening ∧ c ≠ b.closing := by
      rcases kind with plain | rfl | ended
      · exact ⟨fun same => plain.noOpening (by rw [same]; rfl),
          fun same => plain.noClosing (by rw [same]; rfl)⟩
      · cases b <;> decide
      · have feed : c = '\n' ∨ c = '\r' := by simpa [Quote.endsLine] using ended
        rcases feed with rfl | rfl <;> cases b <;> decide
    have opening := refuses_bracket (t := c :: rest) (o := b.opening) (by simpa using apart.1)
    have closing := refuses_bracket (t := c :: rest) (o := b.closing) (by simpa using apart.2)
    exact .altSecond (.seq opening) (takes_butNot (.alt opening closing))
  feed := fun _ => trivial

theorem takes_sealed (sealed : Sealed b.lexis t) (closing : u.head? = some b.closing) :
    Takes (.star (.rule b.piece)) t u := by
  induction sealed generalizing u with
  | nil => exact .noStar (refuses_closing closing)
  | @item item rest is _ ih =>
      refine (takesItems_piece b).item (is.append fun c first => ?_) trivial (ih closing)
      cases closing.symm.trans first
      cases b <;> simp [Bracket.closing]
  | @nest o c inner rest opens closes _ _ ihInner ihRest =>
      cases opens
      cases closes
      have taken : Takes (.rule b.piece) _ (rest ++ u) := takes_nested (ihInner rfl)
      have whole := Takes.star token_ne_spaced taken (ihRest closing)
      simpa using whole

end NodeWeave.Grammar.Format

/-!
## Reading on

How the rules of grammar files lead from one place of a text to a later one, where blanks and
comments may stand between their parts. One lemma for each operator; blanks are gone behind each
part, so that rows of parts go from solid text to solid text.
-/

namespace NodeWeave.Grammar.Format

open Peg Peg.Expr Peg.Rules Lexis

/-! ### Blanks and comments -/

def isGapChar (c : Char) : Bool :=
  c == ' ' || c == '\t' || c == '\r' || c == '\n' || c == '\uFEFF'

/-- Neither a blank nor a comment begins here. -/
structure Solid (t : List Char) : Prop where
  noBlank : ∀ c ∈ t.head?, isGapChar c = false
  noComment : ¬ StartsComment t

/-- Only blanks and comments stand in front of the later text, which is solid. -/
inductive Skipped : List Char → List Char → Prop where
  | here {t : List Char} (solid : Solid t) : Skipped t t
  | blank {c : Char} {t u : List Char} (gap : isGapChar c = true) (rest : Skipped t u) :
      Skipped (c :: t) u
  | block {inner t u : List Char} (unended : ¬ ['*', '/'] <:+: inner) (rest : Skipped t u) :
      Skipped ('/' :: '*' :: inner ++ ['*', '/'] ++ t) u
  | line {inner t u : List Char} {c : Char} (unended : ∀ d ∈ inner, Quote.endsLine d = false)
      (ended : Quote.endsLine c = true) (rest : Skipped t u) :
      Skipped ('/' :: '/' :: inner ++ c :: t) u

variable {t u v w front : List Char} {c : Char} {e a b : Expr Rule} {name : Rule}

theorem solid_nil : Solid [] :=
  ⟨nofun, by rintro (⟨_, ⟨⟩⟩ | ⟨_, ⟨⟩⟩)⟩

theorem solid_cons (noBlank : isGapChar c = false) (noSlash : c ≠ '/') : Solid (c :: t) :=
  ⟨by rintro _ ⟨⟩; exact noBlank, not_startsComment noSlash⟩

namespace Skipped

theorem solid (skipped : Skipped t u) : Solid u := by
  induction skipped with
  | here solid => exact solid
  | blank _ _ ih | block _ _ ih | line _ _ _ ih => exact ih

theorem space (skipped : Skipped t u) : Skipped (' ' :: t) u :=
  .blank rfl skipped

theorem exists_takes (skipped : Skipped t u) :
    ∃ space, t = space ++ u ∧ Takes Format.blank space u := by
  induction skipped with
  | @here t solid =>
      exact ⟨[], rfl, .noStar (.alt (.one solid.noBlank) (refuses_comment solid.noComment))⟩
  | @blank c t u gap _ ih =>
      obtain ⟨space, rfl, taken⟩ := ih
      exact ⟨c :: space, rfl, Takes.consStar token_ne_spaced (.altFirst (.one gap)) taken⟩
  | @block inner t u unended _ ih =>
      obtain ⟨space, rfl, taken⟩ := ih
      refine ⟨('/' :: '*' :: inner ++ ['*', '/']) ++ space, by simp,
        Takes.star token_ne_spaced ?_ taken⟩
      refine .altSecond (.one ?_) (takes_block unended)
      rintro _ ⟨⟩
      rfl
  | @line inner t u c unended ended _ ih =>
      obtain ⟨space, rfl, taken⟩ := ih
      have feed : isGapChar c = true := by
        have : c = '\n' ∨ c = '\r' := by simpa [Quote.endsLine] using ended
        rcases this with rfl | rfl <;> rfl
      have last : Takes Format.blank (c :: space) u :=
        Takes.consStar token_ne_spaced (.altFirst (.one feed)) taken
      refine ⟨('/' :: '/' :: inner) ++ (c :: space), by simp, Takes.star token_ne_spaced ?_ last⟩
      refine .altSecond (.one ?_) (takes_line unended ?_)
      · rintro _ ⟨⟩
        rfl
      · rintro _ ⟨⟩
        exact ended

theorem exists_apart (skipped : Skipped t u) :
    ∃ space, ∀ o, rules.Parses .token (rules.gap .spaced) o t (some ⟨space, u, []⟩) := by
  obtain ⟨space, rfl, taken⟩ := skipped.exists_takes
  exact ⟨space, taken⟩

end Skipped

/-! ### Parts -/

/-- From here the expression leads to this later place, with trees of this kind. -/
def Passes (e : Expr Rule) (t u : List Char) (holds : List Part → Prop) : Prop :=
  ∀ o, ∃ front trees, rules.Parses .spaced e o t (some ⟨front, u, trees⟩) ∧ holds trees

/-- From here the expression leads, past blanks and comments, to this later place. -/
def Gets (e : Expr Rule) (t v : List Char) (holds : List Part → Prop) : Prop :=
  ∃ u, Skipped u v ∧ Passes e t u holds

abbrev Rejects (e : Expr Rule) (t : List Char) : Prop :=
  rules.Refuses .spaced e t

/-- Trees of one kind in front of trees of another one. -/
def Both (holds others : List Part → Prop) (trees : List Part) : Prop :=
  ∃ before behind, trees = before ++ behind ∧ holds before ∧ others behind

def Nothing (trees : List Part) : Prop :=
  trees = []

/-- A single tree of the rule for this text, with trees of some kind inside. -/
def Node (name : Rule) (text : List Char) (holds : List Part → Prop) (trees : List Part) : Prop :=
  ∃ start stop children, trees = [.node name start stop (String.ofList text) children] ∧
    holds children

variable {holds others : List Part → Prop}

theorem Passes.imp (passes : Passes e t u holds) (implies : ∀ trees, holds trees → others trees) :
    Passes e t u others := by
  intro o
  obtain ⟨front, trees, parses, held⟩ := passes o
  exact ⟨front, trees, parses, implies trees held⟩

theorem Gets.imp (gets : Gets e t v holds) (implies : ∀ trees, holds trees → others trees) :
    Gets e t v others := by
  obtain ⟨u, skipped, passes⟩ := gets
  exact ⟨u, skipped, passes.imp implies⟩

theorem Passes.gets (passes : Passes e t u holds) (skipped : Skipped u v) : Gets e t v holds :=
  ⟨u, skipped, passes⟩

theorem Passes.exists_front (passes : Passes e t u holds) : ∃ front, t = front ++ u := by
  obtain ⟨front, trees, parses, -⟩ := passes 0
  exact ⟨front, parses.eq_append⟩

/-! ### Operators -/

theorem passes_word (word : String) : Passes (.word word) (word.toList ++ u) u Nothing :=
  fun _ => ⟨_, [], .text _ u, rfl⟩

theorem Passes.seq (first : Gets a t v holds) (second : Passes b v u others) :
    Passes (.seq a b) t u (Both holds others) := by
  obtain ⟨w, skipped, passes⟩ := first
  obtain ⟨space, apart⟩ := skipped.exists_apart
  intro o
  obtain ⟨front, before, parsesFirst, held⟩ := passes o
  obtain ⟨back, behind, parsesSecond, heldToo⟩ :=
    second (o + Text.byteLength (front ++ space))
  exact ⟨_, _, .seq parsesFirst (apart _) parsesSecond,
    ⟨before, behind, by rw [List.append_nil], held, heldToo⟩⟩

theorem Gets.seq (first : Gets a t v holds) (second : Gets b v w others) :
    Gets (.seq a b) t w (Both holds others) := by
  obtain ⟨u, skipped, passes⟩ := second
  exact ⟨u, skipped, .seq first passes⟩

theorem Passes.altFirst (first : Passes a t u holds) : Passes (.alt a b) t u holds := by
  intro o
  obtain ⟨front, trees, parses, held⟩ := first o
  exact ⟨front, trees, .altFirst parses, held⟩

theorem Passes.altSecond (first : Rejects a t) (second : Passes b t u holds) :
    Passes (.alt a b) t u holds := by
  intro o
  obtain ⟨front, trees, parses, held⟩ := second o
  exact ⟨front, trees, .altSecond (first o) parses, held⟩

theorem Gets.altFirst (first : Gets a t v holds) : Gets (.alt a b) t v holds := by
  obtain ⟨u, skipped, passes⟩ := first
  exact ⟨u, skipped, passes.altFirst⟩

theorem Gets.altSecond (first : Rejects a t) (second : Gets b t v holds) :
    Gets (.alt a b) t v holds := by
  obtain ⟨u, skipped, passes⟩ := second
  exact ⟨u, skipped, passes.altSecond first⟩

theorem Gets.opt (gets : Gets a t v holds) : Gets (.opt a) t v holds := by
  obtain ⟨u, skipped, passes⟩ := gets
  refine ⟨u, skipped, fun o => ?_⟩
  obtain ⟨front, trees, parses, held⟩ := passes o
  exact ⟨front, trees, .opt parses, held⟩

theorem Gets.noOpt (solid : Solid t) (refused : Rejects a t) : Gets (.opt a) t t Nothing :=
  ⟨t, .here solid, fun o => ⟨[], [], .noOpt (refused o), rfl⟩⟩

theorem rejects_seq (first : Gets a t v holds) (second : Rejects b v) : Rejects (.seq a b) t := by
  obtain ⟨u, skipped, passes⟩ := first
  obtain ⟨space, apart⟩ := skipped.exists_apart
  intro o
  obtain ⟨front, trees, parses, -⟩ := passes o
  exact .noSecond parses (apart _) (second _)

/-! ### Rules -/

theorem Passes.rule (kind : kind name = .normal) (passes : Passes (Format.body name) t u holds)
    (whole : t = front ++ u) : Passes (.rule name) t u (Node name front holds) := by
  intro o
  obtain ⟨read, trees, parses, held⟩ := passes o
  have same : read = front := List.append_cancel_right (parses.eq_append.symm.trans whole)
  subst same
  have shows : ¬ rules.Hides .spaced name := by
    rintro (silent | token)
    · cases kind.symm.trans silent
    · rw [show rules.kind name = .normal from kind] at token
      cases token
  have inner : (rules.kind name).inner .spaced = .spaced := by
    rw [show rules.kind name = .normal from kind]
    rfl
  exact ⟨read, _, .shown shows (inner.symm ▸ parses), o, o + Text.byteLength read, trees, rfl, held⟩

theorem Gets.rule (name : Rule) (kind : kind name = .normal)
    (gets : Gets (Format.body name) t v holds) :
    Gets (.rule name) t v fun trees => ∃ front, Node name front holds trees := by
  obtain ⟨u, skipped, passes⟩ := gets
  obtain ⟨front, whole⟩ := passes.exists_front
  exact ⟨u, skipped, (passes.rule kind whole).imp fun _ node => ⟨front, node⟩⟩

theorem passes_token (name : Rule) (kind : kind name = .token)
    (taken : Takes (Format.body name) front u) :
    Passes (.rule name) (front ++ u) u (Node name front Nothing) := by
  intro o
  have shows : ¬ rules.Hides .spaced name := by
    rintro (silent | token)
    · cases kind.symm.trans silent
    · rw [show rules.kind name = .token from kind] at token
      cases token
  have inner : (rules.kind name).inner .spaced = .token := by
    rw [show rules.kind name = .token from kind]
    rfl
  exact ⟨front, _, .shown shows (inner.symm ▸ taken o), o, _, [], rfl, rfl⟩

theorem rejects_token (kind : kind name = .token) (refused : Refuses (Format.body name) t) :
    Rejects (.rule name) t := by
  refine .rule ?_
  rw [show rules.kind name = .token from kind]
  exact refused

theorem rejects_rule (kind : kind name = .normal) (refused : Rejects (Format.body name) t) :
    Rejects (.rule name) t := by
  refine .rule ?_
  rw [show rules.kind name = .normal from kind]
  exact refused

/-! ### Repetitions -/

section

variable {α : Type} {kinds : α → List Part → Prop} {as : List α}

/-- The expression leads on, once for each of these, with trees of its kind, until it leads
nowhere. -/
inductive Lists (e : Expr Rule) (kinds : α → List Part → Prop) :
    List α → List Char → List Char → Prop where
  | stop {t : List Char} (solid : Solid t) (refused : Rejects e t) : Lists e kinds [] t t
  | next {a : α} {as : List α} {t v w : List Char} (first : Gets e t v (kinds a))
      (rest : Lists e kinds as v w) : Lists e kinds (a :: as) t w

/-- One row of trees for each of these, of its kind. -/
def Rows (kinds : α → List Part → Prop) (as : List α) (trees : List Part) : Prop :=
  ∃ rows, trees = List.flatten rows ∧ List.Forall₂ kinds as rows

theorem rows_nil : Rows kinds [] [] :=
  ⟨[], rfl, .nil⟩

theorem Rows.cons {a : α} {row trees : List Part} (held : kinds a row)
    (rows : Rows kinds as trees) : Rows kinds (a :: as) (row ++ trees) := by
  obtain ⟨rows, rfl, all⟩ := rows
  exact ⟨row :: rows, rfl, .cons held all⟩

/-- What repeats goes on behind blanks. -/
theorem Lists.more (lists : Lists e kinds as t w) (skipped : Skipped u t) :
    Gets (.more e) u w (Rows kinds as) := by
  induction lists generalizing u with
  | @stop t solid refused =>
      obtain ⟨space, apart⟩ := skipped.exists_apart
      exact ⟨u, skipped, fun o => ⟨[], [], .noMore (apart o) (refused _), rows_nil⟩⟩
  | @next a as t v w first rest ih =>
      obtain ⟨space, apart⟩ := skipped.exists_apart
      obtain ⟨behind, skippedBehind, passes⟩ := first
      obtain ⟨later, skippedLater, more⟩ := ih skippedBehind
      refine ⟨later, skippedLater, fun o => ?_⟩
      obtain ⟨front, trees, parses, held⟩ := passes (o + Text.byteLength space)
      obtain ⟨back, others, parsesMore, rows⟩ := more (o + Text.byteLength (space ++ front))
      exact ⟨_, _, .more (apart o) parses parsesMore, rows.cons held⟩

theorem Lists.star (lists : Lists e kinds as t w) : Gets (.star e) t w (Rows kinds as) := by
  cases lists with
  | stop solid refused =>
      exact ⟨t, .here solid, fun o => ⟨[], [], .noStar (refused o), rows_nil⟩⟩
  | next first rest =>
      obtain ⟨behind, skipped, passes⟩ := first
      obtain ⟨later, skippedLater, more⟩ := rest.more skipped
      refine ⟨later, skippedLater, fun o => ?_⟩
      obtain ⟨front, trees, parses, held⟩ := passes o
      obtain ⟨back, others, parsesMore, rows⟩ := more (o + Text.byteLength front)
      exact ⟨_, _, .star parses parsesMore, rows.cons held⟩

end

/-- The expression leads on, again and again, until it leads nowhere. -/
def Repeats (e : Expr Rule) (holds : List Part → Prop) (t w : List Char) : Prop :=
  ∃ times : List Unit, Lists e (fun _ => holds) times t w

def Each (holds : List Part → Prop) (trees : List Part) : Prop :=
  ∃ rows, trees = List.flatten rows ∧ ∀ row ∈ rows, holds row

theorem Each.cons {row trees : List Part} (held : holds row) (each : Each holds trees) :
    Each holds (row ++ trees) := by
  obtain ⟨rows, rfl, all⟩ := each
  exact ⟨row :: rows, rfl, List.forall_mem_cons.mpr ⟨held, all⟩⟩

theorem Rows.each {times : List Unit} {trees : List Part}
    (rows : Rows (fun _ => holds) times trees) : Each holds trees := by
  obtain ⟨rows, rfl, all⟩ := rows
  refine ⟨rows, rfl, ?_⟩
  induction all with
  | nil => exact nofun
  | cons held _ ih => exact List.forall_mem_cons.mpr ⟨held, ih⟩

namespace Repeats

theorem stop (solid : Solid t) (refused : Rejects e t) : Repeats e holds t t :=
  ⟨[], .stop solid refused⟩

theorem next (first : Gets e t v holds) (rest : Repeats e holds v w) : Repeats e holds t w := by
  obtain ⟨times, lists⟩ := rest
  exact ⟨() :: times, .next first lists⟩

theorem star (repeats : Repeats e holds t w) : Gets (.star e) t w (Each holds) := by
  obtain ⟨times, lists⟩ := repeats
  exact lists.star.imp fun _ rows => rows.each

end Repeats

end NodeWeave.Grammar.Format
