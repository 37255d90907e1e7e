import NodeWeave.Proofs.Text.TrimmedLines

/-!
Scans of code for literals, comments and brackets. A text is sealed if a scan of it ends outside of
literals and comments, with all its brackets closed. Main statements: a sealed text is a row of
whole items, and it stays sealed when its lines are trimmed.
-/

namespace NodeWeave

open Text

inductive Quote where
  | double
  | single
  deriving DecidableEq, Repr

namespace Quote

def char : Quote → Char
  | double => '"'
  | single => '\''

def endsLine (c : Char) : Bool :=
  c == '\n' || c == '\r'

/-- The character may not stand in a literal. One between double quotes ends in its line. -/
def forbids : Quote → Char → Bool
  | double, c => endsLine c
  | single, _ => false

end Quote

/-- What a scan looks out for: the brackets that it counts, the literals, whether there are
comments, and what else may stand outside of them. -/
structure Lexis where
  opening : Option Char
  closing : Option Char
  quotes : List Quote
  comments : Bool
  admits : Char → Bool
  /-- The brackets are no blanks. -/
  solid : ∀ c, isBlank c = true → opening ≠ some c ∧ closing ≠ some c

namespace Lexis

inductive Place where
  | code
  /-- Behind a slash that may begin a comment. -/
  | slash
  | literal (quote : Quote)
  /-- Behind a backslash in a literal. -/
  | escape (quote : Quote)
  /-- In a comment up to the end of the line. -/
  | line
  /-- In a comment up to its end mark. -/
  | block
  /-- Behind an asterisk in such a comment. -/
  | star
  deriving DecidableEq, Repr

variable (lex : Lexis)

/-- The place behind a character outside of literals and comments, with so many brackets open. -/
def stepCode (depth : Nat) (c : Char) : Option (Place × Nat) :=
  match lex.quotes.find? fun quote => quote.char == c with
  | some quote => some (.literal quote, depth)
  | none =>
      if lex.comments && c == '/' then some (.slash, depth)
      else if lex.opening = some c then some (.code, depth + 1)
      else if lex.closing = some c then if depth = 0 then none else some (.code, depth - 1)
      else if lex.admits c then some (.code, depth)
      else none

/-- The place behind one more character. -/
def step : Place × Nat → Char → Option (Place × Nat)
  | (.code, depth), c => lex.stepCode depth c
  | (.slash, depth), c =>
      if c = '/' then some (.line, depth)
      else if c = '*' then some (.block, depth)
      else if lex.admits '/' then lex.stepCode depth c
      else none
  | (.literal quote, depth), c =>
      if c = quote.char then some (.code, depth)
      else if c = '\\' then some (.escape quote, depth)
      else if quote.forbids c then none
      else some (.literal quote, depth)
  | (.escape quote, depth), _ => some (.literal quote, depth)
  | (.line, depth), c => some (if Quote.endsLine c then .code else .line, depth)
  | (.block, depth), c => some (if c = '*' then .star else .block, depth)
  | (.star, depth), c =>
      some (if c = '/' then .code else if c = '*' then .star else .block, depth)

def scan (start : Place × Nat) (text : List Char) : Option (Place × Nat) :=
  text.foldlM lex.step start

def rests : Place → Bool
  | .code => true
  | .slash => lex.admits '/'
  | _ => false

/-- Every literal, comment and bracket of the text is closed in it. -/
def seals (text : List Char) : Bool :=
  match lex.scan (.code, 0) text with
  | some (place, depth) => lex.rests place && depth == 0
  | none => false

/-- With so many brackets open, every literal, comment and bracket is closed in the text. -/
def Closes (depth : Nat) (text : List Char) : Prop :=
  ∃ place, lex.scan (.code, depth) text = some (place, 0) ∧ lex.rests place = true

variable {lex} {s r : Place × Nat} {c : Char} {text front rest : List Char} {depth more : Nat}

@[simp] theorem scan_nil : lex.scan s [] = some s := rfl

theorem scan_cons : lex.scan s (c :: rest) = (lex.step s c).bind (lex.scan · rest) := by
  rw [scan, List.foldlM_cons]
  rfl

theorem scan_append : lex.scan s (front ++ rest) = (lex.scan s front).bind (lex.scan · rest) := by
  rw [scan, List.foldlM_append]
  rfl

theorem scan_append_of_eq (first : lex.scan s front = some r) :
    lex.scan s (front ++ rest) = lex.scan r rest := by
  rw [scan_append, first]
  rfl

theorem seals_eq_true_iff : lex.seals text = true ↔ lex.Closes 0 text := by
  rw [seals, Closes]
  split
  · next place depth same =>
      rw [same]
      simp only [Bool.and_eq_true, beq_iff_eq, Option.some.injEq, Prod.mk.injEq]
      constructor
      · rintro ⟨rests, rfl⟩
        exact ⟨place, ⟨rfl, rfl⟩, rests⟩
      · rintro ⟨_, ⟨rfl, rfl⟩, rests⟩
        exact ⟨rests, rfl⟩
  · next same =>
      rw [same]
      constructor
      · exact nofun
      · rintro ⟨_, ⟨⟩, _⟩

/-- The character stands for itself outside of literals and comments. -/
structure IsPlain (lex : Lexis) (c : Char) : Prop where
  noQuote : ∀ quote ∈ lex.quotes, quote.char ≠ c
  noSlash : lex.comments = true → c ≠ '/'
  noOpening : lex.opening ≠ some c
  noClosing : lex.closing ≠ some c
  admitted : lex.admits c = true

theorem IsPlain.stepCode (plain : lex.IsPlain c) : lex.stepCode depth c = some (.code, depth) := by
  have noQuote : lex.quotes.find? (fun quote => quote.char == c) = none := by
    simpa [List.find?_eq_none] using plain.noQuote
  have noSlash : (lex.comments && c == '/') = false := by
    simpa using plain.noSlash
  simp [Lexis.stepCode, noQuote, noSlash, plain.noOpening, plain.noClosing, plain.admitted]

theorem scan_of_isPlain (plain : ∀ c ∈ text, lex.IsPlain c) :
    lex.scan (.code, depth) text = some (.code, depth) := by
  induction text with
  | nil => rfl
  | cons c rest ih =>
      rw [List.forall_mem_cons] at plain
      rw [scan_cons, step, plain.1.stepCode]
      exact ih plain.2

/-! ### Brackets around a text -/

theorem stepCode_add (stepped : lex.stepCode depth c = some r) :
    lex.stepCode (depth + more) c = some (r.1, r.2 + more) := by
  unfold stepCode at stepped ⊢
  split at stepped
  · cases stepped
    rfl
  · split at stepped
    · next slash =>
        cases stepped
        rw [if_pos slash]
    · next noSlash =>
        rw [if_neg noSlash]
        split at stepped
        · next opens =>
            cases stepped
            rw [if_pos opens, Nat.add_right_comm]
        · next noOpening =>
            rw [if_neg noOpening]
            split at stepped
            · next closes =>
                rw [if_pos closes]
                split at stepped
                · cases stepped
                · cases stepped
                  rw [if_neg (by omega), show depth + more - 1 = depth - 1 + more by omega]
            · next noClosing =>
                rw [if_neg noClosing]
                split at stepped
                · next admitted =>
                    cases stepped
                    rw [if_pos admitted]
                · cases stepped

theorem step_add (stepped : lex.step s c = some r) :
    lex.step (s.1, s.2 + more) c = some (r.1, r.2 + more) := by
  obtain ⟨place, depth⟩ := s
  cases place with
  | code => exact stepCode_add stepped
  | slash =>
      simp only [step] at stepped ⊢
      split at stepped
      · next same =>
          cases stepped
          rw [if_pos same]
      · next noLine =>
          rw [if_neg noLine]
          split at stepped
          · next same =>
              cases stepped
              rw [if_pos same]
          · next noBlock =>
              rw [if_neg noBlock]
              split at stepped
              · next admitted =>
                  rw [if_pos admitted]
                  exact stepCode_add stepped
              · cases stepped
  | literal quote =>
      simp only [step] at stepped ⊢
      split at stepped
      · next same =>
          cases stepped
          rw [if_pos same]
      · next noQuote =>
          rw [if_neg noQuote]
          split at stepped
          · next same =>
              cases stepped
              rw [if_pos same]
          · next noBackslash =>
              rw [if_neg noBackslash]
              split at stepped
              · cases stepped
              · next allowed =>
                  cases stepped
                  rw [if_neg allowed]
  | escape | line | block | star =>
      cases stepped
      rfl

/-- A scan does not hang on brackets that stay open. -/
theorem scan_add (more : Nat) (scanned : lex.scan s text = some r) :
    lex.scan (s.1, s.2 + more) text = some (r.1, r.2 + more) := by
  induction text generalizing s with
  | nil =>
      cases scanned
      rfl
  | cons c rest ih =>
      rw [scan_cons] at scanned
      obtain ⟨next, stepped, scanned⟩ := Option.bind_eq_some_iff.mp scanned
      rw [scan_cons, step_add stepped]
      exact ih scanned

/-- With one bracket more around the text, a step is the same, or it closes this bracket. -/
theorem stepCode_cases (stepped : lex.stepCode (depth + (more + 1)) c = some r) :
    (∃ n, r.2 = n + (more + 1) ∧ lex.stepCode depth c = some (r.1, n)) ∨
      lex.closing = some c ∧ depth = 0 ∧ r = (.code, more) := by
  unfold stepCode at stepped ⊢
  split at stepped
  · cases stepped
    exact .inl ⟨depth, rfl, rfl⟩
  · split at stepped
    · next slash =>
        cases stepped
        exact .inl ⟨depth, rfl, if_pos slash⟩
    · next noSlash =>
        rw [if_neg noSlash]
        split at stepped
        · next opens =>
            cases stepped
            exact .inl ⟨depth + 1, Nat.add_right_comm .., if_pos opens⟩
        · next noOpening =>
            rw [if_neg noOpening]
            split at stepped
            · next closes =>
                rw [if_neg (by omega)] at stepped
                cases stepped
                cases depth with
                | zero => exact .inr ⟨closes, rfl, by simp⟩
                | succ depth => exact .inl ⟨depth, by simp; omega, by simp [closes]⟩
            · next noClosing =>
                rw [if_neg noClosing]
                split at stepped
                · next admitted =>
                    cases stepped
                    exact .inl ⟨depth, rfl, if_pos admitted⟩
                · cases stepped

theorem step_cases (stepped : lex.step (s.1, s.2 + (more + 1)) c = some r) :
    (∃ n, r.2 = n + (more + 1) ∧ lex.step s c = some (r.1, n)) ∨
      lex.closing = some c ∧ s.2 = 0 ∧ lex.rests s.1 = true ∧ r = (.code, more) := by
  obtain ⟨place, depth⟩ := s
  cases place with
  | code =>
      exact (stepCode_cases stepped).imp_right fun ⟨closes, zero, same⟩ => ⟨closes, zero, rfl, same⟩
  | slash =>
      simp only [step] at stepped ⊢
      split at stepped
      · next same =>
          cases stepped
          exact .inl ⟨depth, rfl, if_pos same⟩
      · next noLine =>
          rw [if_neg noLine]
          split at stepped
          · next same =>
              cases stepped
              exact .inl ⟨depth, rfl, if_pos same⟩
          · next noBlock =>
              rw [if_neg noBlock]
              split at stepped
              · next admitted =>
                  rw [if_pos admitted]
                  exact (stepCode_cases stepped).imp_right fun ⟨closes, zero, same⟩ =>
                    ⟨closes, zero, admitted, same⟩
              · cases stepped
  | literal quote =>
      simp only [step] at stepped ⊢
      split at stepped
      · next same =>
          cases stepped
          exact .inl ⟨depth, rfl, if_pos same⟩
      · next noQuote =>
          rw [if_neg noQuote]
          split at stepped
          · next same =>
              cases stepped
              exact .inl ⟨depth, rfl, if_pos same⟩
          · next noBackslash =>
              rw [if_neg noBackslash]
              split at stepped
              · cases stepped
              · next allowed =>
                  cases stepped
                  exact .inl ⟨depth, rfl, if_neg allowed⟩
  | escape | line | block | star =>
      cases stepped
      exact .inl ⟨depth, rfl, rfl⟩

/-- A scan that leaves a bracket cuts the text at its closing one. -/
theorem exists_inner_of_scan {place : Place}
    (scanned : lex.scan (s.1, s.2 + (more + 1)) text = some (place, 0)) :
    ∃ inner c rest, lex.closing = some c ∧ text = inner ++ c :: rest ∧
      (∃ last, lex.scan s inner = some (last, 0) ∧ lex.rests last = true) ∧
        lex.scan (.code, more) rest = some (place, 0) := by
  induction text generalizing s with
  | nil => simp at scanned
  | cons d text ih =>
      rw [scan_cons] at scanned
      obtain ⟨next, stepped, later⟩ := Option.bind_eq_some_iff.mp scanned
      rcases step_cases stepped with ⟨n, deep, stepped⟩ | ⟨closes, zero, rested, rfl⟩
      · obtain ⟨p, m⟩ := next
        cases deep
        obtain ⟨inner, c, rest, closes, rfl, ⟨last, inside, rested⟩, scanned⟩ :=
          ih (s := (p, n)) later
        refine ⟨d :: inner, c, rest, closes, rfl, ⟨last, ?_, rested⟩, scanned⟩
        rw [scan_cons, stepped]
        exact inside
      · obtain ⟨p, m⟩ := s
        cases zero
        exact ⟨[], d, text, closes, rfl, ⟨p, rfl, rested⟩, later⟩

theorem Closes.exists_inner (closes : lex.Closes (depth + 1) text) :
    ∃ inner c rest, lex.closing = some c ∧ text = inner ++ c :: rest ∧ lex.Closes 0 inner ∧
      lex.Closes depth rest := by
  obtain ⟨place, scanned, rested⟩ := closes
  obtain ⟨inner, c, rest, shuts, same, inside, scanned⟩ :=
    exists_inner_of_scan (s := (.code, 0)) (by simpa using scanned)
  exact ⟨inner, c, rest, shuts, same, inside, place, scanned, rested⟩

theorem Closes.scan (closes : lex.Closes 0 text) :
    ∃ place, lex.scan (.code, depth) text = some (place, depth) ∧ lex.rests place = true := by
  obtain ⟨place, scanned, rested⟩ := closes
  refine ⟨place, ?_, rested⟩
  simpa using scan_add depth scanned

/-! ### Trimmed lines -/

theorem stepCode_of_blank (blank : isBlank c = true) :
    lex.stepCode depth c = if lex.admits c then some (.code, depth) else none := by
  have noQuote : lex.quotes.find? (fun quote => quote.char == c) = none := by
    rw [List.find?_eq_none]
    rintro (_ | _) _ same
    all_goals
      rw [beq_iff_eq] at same
      rw [← same] at blank
      cases blank
  have noSlash : c ≠ '/' := by
    rintro rfl
    cases blank
  obtain ⟨noOpening, noClosing⟩ := lex.solid c blank
  simp [stepCode, noQuote, noSlash, noOpening, noClosing]

/-- A blank in front of a line feed makes no difference to what stands behind it. -/
theorem step_newline_of_blank (blank : isBlank c = true)
    (first : lex.step s c = some r) {next : Place × Nat} (second : lex.step r '\n' = some next) :
    lex.step s '\n' = some next := by
  have noSlash : c ≠ '/' := by
    rintro rfl
    cases blank
  have noStar : c ≠ '*' := by
    rintro rfl
    cases blank
  have noBackslash : c ≠ '\\' := by
    rintro rfl
    cases blank
  have noQuote : ∀ quote : Quote, c ≠ quote.char := by
    rintro (_ | _) rfl <;> cases blank
  have inCode : ∀ depth, lex.stepCode depth c = some r → lex.stepCode depth '\n' = some next := by
    intro depth stepped
    rw [stepCode_of_blank blank] at stepped
    split at stepped
    · cases stepped
      exact second
    · cases stepped
  obtain ⟨place, depth⟩ := s
  cases place with
  | code => exact inCode depth first
  | slash =>
      simp only [step, noSlash, noStar, if_false] at first
      simp only [step]
      rw [if_neg (by decide), if_neg (by decide)]
      split at first
      · next admitted => rw [if_pos admitted, inCode depth first]
      · cases first
  | literal quote =>
      cases quote with
      | double =>
          simp only [step, noQuote, noBackslash, if_false] at first
          split at first
          · cases first
          · cases first
            cases second
      | single =>
          simp only [step, noQuote, noBackslash, if_false] at first
          cases first
          exact second
  | escape quote =>
      cases first
      cases quote with
      | double => cases second
      | single => exact second
  | line =>
      simp only [step] at first ⊢
      split at first
      · cases first
        simp only [step, stepCode_of_blank (show isBlank '\n' = true from rfl)] at second
        split at second
        · exact second
        · cases second
      · cases first
        exact second
  | block =>
      simp only [step, noStar, if_false] at first
      cases first
      exact second
  | star =>
      simp only [step, noStar, noSlash, if_false] at first
      cases first
      exact second

theorem scan_trimLines (scanned : lex.scan s text = some r) :
    lex.scan s (trimLines text) = some r := by
  induction text generalizing s with
  | nil => exact scanned
  | cons c rest ih =>
      rw [scan_cons] at scanned
      obtain ⟨next, stepped, scanned⟩ := Option.bind_eq_some_iff.mp scanned
      have trimmed := ih scanned
      rw [trimLines]
      split
      · next dropped =>
          simp only [Bool.and_eq_true, bne_iff_ne, ne_eq, beq_iff_eq] at dropped
          obtain ⟨⟨blank, -⟩, begins⟩ := dropped
          obtain ⟨line, same⟩ := List.head?_eq_some_iff.mp begins
          rw [same, scan_cons] at trimmed ⊢
          obtain ⟨later, ended, scanned⟩ := Option.bind_eq_some_iff.mp trimmed
          rw [step_newline_of_blank blank stepped ended]
          exact scanned
      · rw [scan_cons, stepped]
        exact trimmed

/-- The word stands somewhere in the text outside of literals and comments, with no bracket open. -/
def Exposes (lex : Lexis) (word text : List Char) : Prop :=
  ∃ front rest, text = front ++ (word ++ rest) ∧ lex.Closes 0 front

/-- A word outside of literals and comments stood there before. -/
theorem exposes_of_trimLines {word : List Char} (filled : word ≠ [])
    (solid : ∀ c ∈ word, isBlank c = false) (closes : lex.Closes 0 text)
    (exposes : lex.Exposes word (trimLines text)) : lex.Exposes word text := by
  obtain ⟨front, rest, same, ⟨place, trimmed, rested⟩⟩ := exposes
  obtain ⟨before, behind, rfl, rfl⟩ := exists_append_of_trimLines filled solid same
  obtain ⟨_, whole, _⟩ := closes
  rw [scan_append] at whole
  obtain ⟨reached, scanned, -⟩ := Option.bind_eq_some_iff.mp whole
  cases (scan_trimLines scanned).symm.trans trimmed
  exact ⟨before, behind, rfl, place, scanned, rested⟩

/-! ### Words -/

/-- The character is plain, and it neither ends nor begins anything in a literal or a comment. -/
structure IsCalm (lex : Lexis) (c : Char) : Prop extends lex.IsPlain c where
  other : c ∉ ['"', '\'', '\\', '/', '*', '\n', '\r']

def Place.calm : Place → Place
  | code | slash => code
  | literal quote | escape quote => literal quote
  | line => line
  | block | star => block

theorem IsCalm.step (calm : lex.IsCalm c) (admitted : lex.admits '/' = true) :
    lex.step s c = some (s.1.calm, s.2) := by
  obtain ⟨place, depth⟩ := s
  have other := calm.other
  simp only [List.mem_cons, List.not_mem_nil, or_false, not_or] at other
  obtain ⟨double, single, backslash, slash, asterisk, feed, ret⟩ := other
  have noEnd : Quote.endsLine c = false := by simp [Quote.endsLine, feed, ret]
  have noQuote : ∀ quote : Quote, c ≠ quote.char := by
    rintro (_ | _)
    · exact double
    · exact single
  have allowed : ∀ quote : Quote, quote.forbids c = false := by
    rintro (_ | _)
    · exact noEnd
    · rfl
  cases place with
  | code => exact calm.stepCode
  | slash => simp [Lexis.step, slash, asterisk, admitted, calm.stepCode, Place.calm]
  | literal quote => simp [Lexis.step, noQuote, backslash, allowed, Place.calm]
  | escape => rfl
  | line => simp [Lexis.step, noEnd, Place.calm]
  | block => simp [Lexis.step, asterisk, Place.calm]
  | star => simp [Lexis.step, slash, asterisk, Place.calm]

theorem scan_of_isCalm (admitted : lex.admits '/' = true) (filled : text ≠ [])
    (calm : ∀ c ∈ text, lex.IsCalm c) : lex.scan s text = some (s.1.calm, s.2) := by
  induction text generalizing s with
  | nil => exact absurd rfl filled
  | cons c rest ih =>
      rw [List.forall_mem_cons] at calm
      rw [scan_cons, calm.1.step admitted, Option.bind_some]
      cases rest with
      | nil => rfl
      | cons d more =>
          rw [ih (List.cons_ne_nil _ _) calm.2]
          cases s.1 <;> rfl

end Lexis

end NodeWeave

/-!
## Rows of items

Texts in which every literal, comment and bracket is closed, as rows of whole items. Main statement:
a text is such a row if a scan of it ends outside of literals and comments, with no bracket open.
-/

namespace NodeWeave.Lexis

variable {lex : Lexis} {c : Char} {text rest : List Char} {depth : Nat}

/-! ### Items -/

inductive Inside (quote : Quote) : List Char → Prop where
  | nil : Inside quote []
  | char {c : Char} {body : List Char} (noQuote : c ≠ quote.char) (noBackslash : c ≠ '\\')
      (allowed : quote.forbids c = false) (rest : Inside quote body) : Inside quote (c :: body)
  | escape (c : Char) {body : List Char} (rest : Inside quote body) :
    Inside quote ('\\' :: c :: body)

/-- A literal, a comment or a single character that is none of the brackets, in front of a text. -/
inductive Item (lex : Lexis) : List Char → List Char → Prop where
  | plain {c : Char} {rest : List Char} (plain : lex.IsPlain c) : Item lex [c] rest
  | slash {rest : List Char} (comments : lex.comments = true) (admitted : lex.admits '/' = true)
      (alone : ∀ c ∈ rest.head?, c ≠ '/' ∧ c ≠ '*') : Item lex ['/'] rest
  | literal {quote : Quote} {body rest : List Char} (listed : quote ∈ lex.quotes)
      (inside : Inside quote body) : Item lex (quote.char :: body ++ [quote.char]) rest
  | block {body rest : List Char} (comments : lex.comments = true)
      (unended : ¬ ['*', '/'] <:+: body) : Item lex ('/' :: '*' :: body ++ ['*', '/']) rest
  | line {body rest : List Char} {c : Char} (comments : lex.comments = true)
      (unended : ∀ d ∈ body, Quote.endsLine d = false) (ended : Quote.endsLine c = true) :
      Item lex ('/' :: '/' :: body ++ [c]) rest

/-- Items and bracketed texts, one behind the other. -/
inductive Sealed (lex : Lexis) : List Char → Prop where
  | nil : Sealed lex []
  | item {item rest : List Char} (is : Item lex item rest) (sealed : Sealed lex rest) :
      Sealed lex (item ++ rest)
  | nest {o c : Char} {inner rest : List Char} (opens : lex.opening = some o)
      (closes : lex.closing = some c) (inside : Sealed lex inner) (sealed : Sealed lex rest) :
      Sealed lex (o :: inner ++ c :: rest)

section

variable {p : Place} {e : Nat} (rested : lex.rests p = true)

include rested

theorem exists_literal {quote : Quote} {depth : Nat} : ∀ {text : List Char},
    lex.scan (.literal quote, depth) text = some (p, e) →
      ∃ body rest, text = body ++ quote.char :: rest ∧ Inside quote body ∧
        lex.scan (.code, depth) rest = some (p, e)
  | [], scanned => by
      cases scanned
      cases rested
  | c :: text, scanned => by
      rw [scan_cons, step] at scanned
      split at scanned
      · next same =>
          exact ⟨[], text, by rw [same]; rfl, .nil, scanned⟩
      · next noQuote =>
          split at scanned
          · next same =>
              cases text with
              | nil =>
                  cases scanned
                  cases rested
              | cons d rest =>
                  rw [Option.bind_some, scan_cons, step, Option.bind_some] at scanned
                  obtain ⟨body, rest, rfl, inside, scanned⟩ := exists_literal scanned
                  exact ⟨'\\' :: d :: body, rest, by rw [same]; rfl, .escape d inside, scanned⟩
          · next noBackslash =>
              split at scanned
              · cases scanned
              · next allowed =>
                  obtain ⟨body, rest, rfl, inside, scanned⟩ := exists_literal scanned
                  exact ⟨c :: body, rest, rfl,
                    .char noQuote noBackslash (Bool.eq_false_iff.mpr allowed) inside, scanned⟩

theorem exists_line {depth : Nat} {text : List Char}
    (scanned : lex.scan (.line, depth) text = some (p, e)) :
    ∃ body c rest, text = body ++ c :: rest ∧ (∀ d ∈ body, Quote.endsLine d = false) ∧
      Quote.endsLine c = true ∧ lex.scan (.code, depth) rest = some (p, e) := by
  induction text with
  | nil =>
      cases scanned
      cases rested
  | cons c text ih =>
      rw [scan_cons, step, Option.bind_some] at scanned
      cases ended : Quote.endsLine c with
      | true =>
          rw [ended] at scanned
          exact ⟨[], c, text, rfl, nofun, ended, scanned⟩
      | false =>
          rw [ended] at scanned
          obtain ⟨body, d, rest, rfl, unended, last, scanned⟩ := ih scanned
          exact ⟨c :: body, d, rest, rfl, List.forall_mem_cons.mpr ⟨ended, unended⟩, last, scanned⟩

theorem exists_block {depth : Nat} : ∀ {text : List Char},
    lex.scan (.block, depth) text = some (p, e) →
      ∃ body rest, text = body ++ '*' :: '/' :: rest ∧ ¬ ['*', '/'] <:+: body ∧
        lex.scan (.code, depth) rest = some (p, e)
  | [], scanned => by
      cases scanned
      cases rested
  | c :: text, scanned => by
      rw [scan_cons, step, Option.bind_some] at scanned
      by_cases star : c = '*'
      · subst star
        cases text with
        | nil =>
            cases scanned
            cases rested
        | cons d text =>
            by_cases slash : d = '/'
            · subst slash
              exact ⟨[], text, rfl, by simp, scanned⟩
            · -- Behind the asterisk the text goes on as if there were none.
              have again : lex.scan (.block, depth) (d :: text) = some (p, e) := by
                rw [if_pos rfl, scan_cons, step, Option.bind_some, if_neg slash] at scanned
                rw [scan_cons, step, Option.bind_some]
                exact scanned
              obtain ⟨body, rest, same, unended, scanned⟩ := exists_block again
              refine ⟨'*' :: body, rest, by rw [same]; rfl, ?_, scanned⟩
              rw [List.infix_cons_iff, not_or]
              refine ⟨?_, unended⟩
              rintro ⟨more, begins⟩
              cases body with
              | nil => cases begins
              | cons b body =>
                  cases begins
                  cases same
                  exact slash rfl
      · rw [if_neg star] at scanned
        obtain ⟨body, rest, rfl, unended, scanned⟩ := exists_block scanned
        refine ⟨c :: body, rest, rfl, ?_, scanned⟩
        rw [List.infix_cons_iff, not_or]
        refine ⟨?_, unended⟩
        rintro ⟨more, begins⟩
        cases begins
        exact star rfl

end

/-- How a scan goes on in code: over an item, or over one of the brackets. -/
inductive GoesOn (lex : Lexis) : Nat → List Char → Prop where
  | item {depth : Nat} {item rest : List Char} (filled : item ≠ []) (is : Item lex item rest)
      (later : lex.Closes depth rest) : GoesOn lex depth (item ++ rest)
  | opening {depth : Nat} {c : Char} {rest : List Char} (opens : lex.opening = some c)
      (later : lex.Closes (depth + 1) rest) : GoesOn lex depth (c :: rest)
  | closing {depth : Nat} {c : Char} {rest : List Char} (shuts : lex.closing = some c)
      (later : lex.Closes depth rest) : GoesOn lex (depth + 1) (c :: rest)

theorem exists_quote (depth : Nat) {quote : Quote}
    (found : lex.quotes.find? (fun quote => quote.char == c) = some quote) :
    quote ∈ lex.quotes ∧ c = quote.char ∧ lex.stepCode depth c = some (.literal quote, depth) := by
  refine ⟨List.mem_of_find?_eq_some found, ?_, by rw [stepCode, found]⟩
  have same := List.find?_some found
  exact (beq_iff_eq.mp same).symm

/-- Behind a slash, a comment may begin, or something else. -/
theorem goesOn_slash {p : Place} (comments : lex.comments = true)
    (scanned : lex.scan (.slash, depth) rest = some (p, 0)) (rested : lex.rests p = true) :
    GoesOn lex depth ('/' :: rest) := by
  cases rest with
  | nil =>
      cases scanned
      exact GoesOn.item (List.cons_ne_nil '/' []) (.slash comments rested nofun) ⟨.code, rfl, rfl⟩
  | cons d rest =>
      rw [scan_cons, step] at scanned
      split at scanned
      · next line =>
          obtain ⟨body, last, rest, rfl, unended, ended, scanned⟩ := exists_line rested scanned
          rw [line]
          have is : Item lex ('/' :: '/' :: body ++ [last]) rest := .line comments unended ended
          simpa using GoesOn.item (by simp) is ⟨p, scanned, rested⟩
      · next noLine =>
          split at scanned
          · next block =>
              obtain ⟨body, rest, rfl, unended, scanned⟩ := exists_block rested scanned
              rw [block]
              have is : Item lex ('/' :: '*' :: body ++ ['*', '/']) rest := .block comments unended
              simpa using GoesOn.item (by simp) is ⟨p, scanned, rested⟩
          · next noBlock =>
              split at scanned
              · next admitted =>
                  refine GoesOn.item (List.cons_ne_nil '/' []) (.slash comments admitted ?_) ?_
                  · rintro _ ⟨⟩
                    exact ⟨noLine, noBlock⟩
                  · exact ⟨p, by rw [scan_cons]; exact scanned, rested⟩
              · cases scanned

theorem Closes.goesOn (closes : lex.Closes depth (c :: rest)) : GoesOn lex depth (c :: rest) := by
  obtain ⟨p, scanned, rested⟩ := closes
  rw [scan_cons, step] at scanned
  rcases quoted : lex.quotes.find? (fun quote => quote.char == c) with _ | quote
  · have noQuote : ∀ quote ∈ lex.quotes, quote.char ≠ c := by
      simpa using List.find?_eq_none.mp quoted
    rw [stepCode, quoted] at scanned
    simp only at scanned
    split at scanned
    · next slash =>
        simp only [Bool.and_eq_true, beq_iff_eq] at slash
        obtain ⟨comments, rfl⟩ := slash
        exact goesOn_slash comments scanned rested
    · next noSlash =>
        split at scanned
        · next opens => exact .opening opens ⟨p, scanned, rested⟩
        · next noOpening =>
            split at scanned
            · next closes =>
                split at scanned
                · cases scanned
                · next open' =>
                    obtain ⟨depth, rfl⟩ := Nat.exists_eq_succ_of_ne_zero open'
                    exact .closing closes ⟨p, scanned, rested⟩
            · next noClosing =>
                split at scanned
                · next admitted =>
                    exact GoesOn.item (List.cons_ne_nil c [])
                      (.plain ⟨noQuote, by simpa using noSlash, noOpening, noClosing, admitted⟩)
                      ⟨p, scanned, rested⟩
                · cases scanned
  · obtain ⟨listed, rfl, stepped⟩ := exists_quote depth quoted
    rw [stepped] at scanned
    obtain ⟨body, rest, rfl, inside, scanned⟩ := exists_literal rested scanned
    have is : Item lex (quote.char :: body ++ [quote.char]) rest := .literal listed inside
    simpa using GoesOn.item (by simp) is ⟨p, scanned, rested⟩

theorem Item.ne_nil {item : List Char} (is : Item lex item rest) : item ≠ [] := by
  cases is <;> simp

theorem Item.append {item behind : List Char} (is : Item lex item rest)
    (apart : ∀ c ∈ behind.head?, c ≠ '/' ∧ c ≠ '*') : Item lex item (rest ++ behind) := by
  cases is with
  | plain plain => exact .plain plain
  | slash comments admitted alone =>
      refine .slash comments admitted fun c first => ?_
      cases rest with
      | nil => exact apart c first
      | cons => exact alone c first
  | literal listed inside => exact .literal listed inside
  | block comments unended => exact .block comments unended
  | line comments unended ended => exact .line comments unended ended

theorem Closes.eq_nil_or_goesOn (closes : lex.Closes depth text) :
    text = [] ∧ depth = 0 ∨ GoesOn lex depth text := by
  cases text with
  | nil =>
      obtain ⟨_, ⟨⟩, -⟩ := closes
      exact .inl ⟨rfl, rfl⟩
  | cons c rest => exact .inr closes.goesOn

theorem Closes.sealed {text : List Char} (closes : lex.Closes 0 text) : Sealed lex text := by
  rcases closes.eq_nil_or_goesOn with ⟨rfl, -⟩ | goesOn
  · exact .nil
  cases goesOn with
  | @item _ item behind filled is later =>
      have : behind.length < (item ++ behind).length := by
        simpa using List.length_pos_iff.mpr filled
      exact .item is later.sealed
  | @opening _ o behind opens later =>
      obtain ⟨inner, c, rest, shuts, rfl, inside, more⟩ := later.exists_inner
      have : inner.length < (o :: (inner ++ c :: rest)).length := by
        simp only [List.length_cons, List.length_append]
        omega
      have : rest.length < (o :: (inner ++ c :: rest)).length := by
        simp only [List.length_cons, List.length_append]
        omega
      exact .nest opens shuts inside.sealed more.sealed
termination_by text.length

/-! ### Scans of items -/

theorem scan_inside {quote : Quote} {body : List Char} (inside : Inside quote body) :
    lex.scan (.literal quote, depth) (body ++ [quote.char]) = some (.code, depth) := by
  induction inside with
  | nil => simp [scan_cons, step]
  | char noQuote noBackslash allowed _ ih =>
      rw [List.cons_append, scan_cons, step, if_neg noQuote, if_neg noBackslash,
        if_neg (by simp [allowed])]
      exact ih
  | escape c _ ih =>
      have other : '\\' ≠ quote.char := by cases quote <;> decide
      rw [List.cons_append, List.cons_append, scan_cons, step, if_neg other, if_pos rfl]
      exact ih

theorem scan_line {body : List Char} (unended : ∀ d ∈ body, Quote.endsLine d = false)
    (ended : Quote.endsLine c = true) :
    lex.scan (.line, depth) (body ++ [c]) = some (.code, depth) := by
  induction body with
  | nil => simp [scan_cons, step, ended]
  | cons d body ih =>
      rw [List.forall_mem_cons] at unended
      rw [List.cons_append, scan_cons, step, unended.1]
      exact ih unended.2

theorem scan_block {place : Place} {body : List Char} (unended : ¬ ['*', '/'] <:+: body)
    (inside : place = .block ∨ place = .star ∧ body.head? ≠ some '/') :
    lex.scan (place, depth) (body ++ ['*', '/']) = some (.code, depth) := by
  induction body generalizing place with
  | nil =>
      rcases inside with rfl | ⟨rfl, -⟩ <;> rfl
  | cons c body ih =>
      rw [List.infix_cons_iff, not_or] at unended
      by_cases star : c = '*'
      · subst star
        have noSlash : body.head? ≠ some '/' := by
          rintro first
          obtain ⟨more, rfl⟩ := List.head?_eq_some_iff.mp first
          exact unended.1 ⟨more, rfl⟩
        have stepped : lex.step (place, depth) '*' = some (.star, depth) := by
          rcases inside with rfl | ⟨rfl, -⟩ <;> rfl
        rw [List.cons_append, scan_cons, stepped]
        exact ih unended.2 (.inr ⟨rfl, noSlash⟩)
      · have stepped : lex.step (place, depth) c = some (.block, depth) := by
          rcases inside with rfl | ⟨rfl, other⟩
          · simp [step, star]
          · have slash : c ≠ '/' := by simpa using other
            simp [step, star, slash]
        rw [List.cons_append, scan_cons, stepped]
        exact ih unended.2 (.inl rfl)

theorem stepCode_slash (comments : lex.comments = true) :
    lex.stepCode depth '/' = some (.slash, depth) := by
  have noQuote : lex.quotes.find? (fun quote => quote.char == '/') = none := by
    rw [List.find?_eq_none]
    rintro (_ | _) _ <;> decide
  rw [stepCode, noQuote]
  simp [comments]

theorem scan_lineComment {body : List Char} (comments : lex.comments = true)
    (unended : ∀ d ∈ body, Quote.endsLine d = false) (ended : Quote.endsLine c = true) :
    lex.scan (.code, depth) ('/' :: '/' :: body ++ [c]) = some (.code, depth) := by
  rw [List.cons_append, List.cons_append, scan_cons, step, stepCode_slash comments]
  exact scan_line unended ended

theorem scan_blockComment {body : List Char} (comments : lex.comments = true)
    (unended : ¬ ['*', '/'] <:+: body) :
    lex.scan (.code, depth) ('/' :: '*' :: body ++ ['*', '/']) = some (.code, depth) := by
  rw [List.cons_append, List.cons_append, scan_cons, step, stepCode_slash comments]
  exact scan_block unended (.inl rfl)

/-- A scan goes on behind an item as if there were none. -/
theorem Item.closes {item front : List Char} (is : Item lex item (front ++ rest))
    (closes : lex.Closes depth front) : lex.Closes depth (item ++ front) := by
  have onwards {item : List Char} (scanned : lex.scan (.code, depth) item = some (.code, depth)) :
      lex.Closes depth (item ++ front) := by
    obtain ⟨place, later, rests⟩ := closes
    exact ⟨place, by rw [scan_append_of_eq scanned, later], rests⟩
  cases is with
  | plain plain => exact onwards (scan_of_isPlain (by simpa using plain))
  | slash comments admitted alone =>
      obtain ⟨place, later, rests⟩ := closes
      have slash : lex.step (.code, depth) '/' = some (.slash, depth) := stepCode_slash comments
      cases front with
      | nil =>
          cases later
          exact ⟨.slash, by rw [List.append_nil, scan_cons, slash]; rfl, admitted⟩
      | cons c front =>
          obtain ⟨noLine, noBlock⟩ := alone c rfl
          refine ⟨place, ?_, rests⟩
          rw [List.singleton_append, scan_cons, slash, Option.bind_some, scan_cons, step,
            if_neg noLine, if_neg noBlock, if_pos admitted]
          exact later
  | @literal quote body _ listed inside =>
      refine onwards ?_
      have stepped : lex.step (.code, depth) quote.char = some (.literal quote, depth) := by
        rcases found : lex.quotes.find? (fun other => other.char == quote.char) with _ | other
        · have := List.find?_eq_none.mp found quote listed
          simp at this
        · obtain ⟨-, same, stepped⟩ := exists_quote depth found
          have : quote = other := by
            cases quote <;> cases other <;> first | rfl | cases same
          rw [this] at found ⊢
          exact (exists_quote depth found).2.2
      rw [List.cons_append, scan_cons, stepped]
      exact scan_inside inside
  | block comments unended => exact onwards (scan_blockComment comments unended)
  | line comments unended ended => exact onwards (scan_lineComment comments unended ended)

end NodeWeave.Lexis
