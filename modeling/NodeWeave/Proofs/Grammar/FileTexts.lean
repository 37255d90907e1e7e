import NodeWeave.Proofs.Grammar.Faults
import NodeWeave.Proofs.Grammar.ItemTexts
import NodeWeave.Proofs.Peg.Parsing

/-!
Grammar files as they are written and read again. Main statement: a file that consists of texts of
its items is read, and what is read are these items in the same order.
-/

/-!
## Option blocks

Entries of option blocks, as they are written and read again. Main statement: an option block with
entries whose keys are names and whose values are in range and have no quotes in them is read with
the same entries.
-/

namespace NodeWeave.Grammar

/-! ### Numbers -/

theorem decimal_toDigits (n : Nat) : decimal (Nat.toDigits 10 n) = n := by
  have same : decimal (Nat.toDigits 10 n) = Nat.ofDigitChars 10 (Nat.toDigits 10 n) 0 :=
    (Nat.ofDigitChars_eq_foldl ..).symm
  rw [same, Nat.ofDigitChars_ten_toDigits]

theorem toList_toString_nat (n : Nat) : (toString n).toList = Nat.toDigits 10 n := by
  rw [Nat.toString_eq_ofList_toDigits, String.toList_ofList]

theorem isDigit_of_mem_toDigits {n : Nat} {c : Char} (mem : c ∈ Nat.toDigits 10 n) :
    c.isDigit = true :=
  Nat.isDigit_of_mem_toDigits (by decide) (by decide) mem

theorem toList_toString_int (n : Int) : ∃ sign digits, (toString n).toList = sign ++ digits ∧
    digits ≠ [] ∧ (∀ c ∈ digits, c.isDigit = true) ∧
      (sign = [] ∧ n = (decimal digits : Int) ∨ sign = ['-'] ∧ n = -(decimal digits : Int)) := by
  cases n with
  | ofNat m =>
      refine ⟨[], Nat.toDigits 10 m, ?_, Nat.toDigits_ne_nil, fun _ => isDigit_of_mem_toDigits,
        .inl ⟨rfl, by rw [decimal_toDigits]; rfl⟩⟩
      rw [Int.toString_eq_repr, Int.repr]
      exact toList_toString_nat m
  | negSucc m =>
      refine ⟨['-'], Nat.toDigits 10 (m + 1), ?_, Nat.toDigits_ne_nil,
        fun _ => isDigit_of_mem_toDigits, .inr ⟨rfl, by rw [decimal_toDigits]; rfl⟩⟩
      rw [Int.toString_eq_repr, Int.repr, String.toList_append]
      exact congrArg ('-' :: ·) (toList_toString_nat (m + 1))

theorem readInt_toString {n : Int} (inside : inInt64 n = true) : readInt (toString n) = some n := by
  obtain ⟨sign, digits, whole, filled, all, value⟩ := toList_toString_int n
  rcases value with ⟨rfl, same⟩ | ⟨rfl, same⟩
  · cases digits with
    | nil => exact absurd rfl filled
    | cons c rest =>
        have other : c ≠ '-' := by
          rintro rfl
          have := all '-' (by simp)
          cases this
        have read : readInt (toString n) =
            if inInt64 (decimal (c :: rest)) then some (decimal (c :: rest) : Int) else none := by
          rw [readInt, whole]
          simp [other]
        rw [read, ← same, if_pos inside]
  · have read : readInt (toString n) =
        if inInt64 (-(decimal digits : Int)) then some (-(decimal digits : Int)) else none := by
      rw [readInt, whole]
      rfl
    rw [read, ← same, if_pos inside]

/-! ### Entries -/

open Peg Peg.Expr Peg.Rules Lexis Text Format

def OptionValue.IsWritable : OptionValue → Prop
  | .bool _ => True
  | .int n => inInt64 n = true
  | .text value => Inside .double value.toList

/-- The key is a name, and the value is one that its text denotes. -/
structure OptionEntry.IsWritable (entry : OptionEntry) : Prop where
  key : isIdentifier entry.key.toList = true
  value : entry.value.IsWritable

namespace Format

variable {t u v : List Char}

/-- A single tree of which the value is built in an entry. -/
def ValueOf (value : OptionValue) (trees : List Part) : Prop :=
  ∃ part : Part, trees = [part] ∧ ∀ (start stop : Nat) (front key : String) (s e : Nat),
    buildEntry (.node .optionEntry start stop front [.node .identifier s e key [], part]) =
      .ok ⟨key, value⟩

theorem takes_digits {digits : List Char} (all : ∀ c ∈ digits, c.isDigit = true)
    (stop : ∀ c ∈ u.head?, c.isDigit = false) : Takes (.star digit) digits u := by
  induction digits with
  | nil => exact .noStar (.one stop)
  | cons c rest ih =>
      rw [List.forall_mem_cons] at all
      exact Takes.consStar token_ne_spaced (.one all.1) (ih all.2)

theorem takes_int (n : Int) (stop : ∀ c ∈ u.head?, c.isDigit = false) :
    Takes (Format.body .intValue) (toString n).toList u := by
  obtain ⟨sign, digits, whole, filled, all, value⟩ := toList_toString_int n
  rw [whole]
  cases digits with
  | nil => exact absurd rfl filled
  | cons c rest =>
      rw [List.forall_mem_cons] at all
      have number : Takes (plus digit) (c :: rest) u :=
        Takes.consSeq token_ne_spaced (.one all.1) (takes_digits all.2 stop)
      refine .seq token_ne_spaced ?_ number
      rcases value with ⟨rfl, -⟩ | ⟨rfl, -⟩
      · refine .noOpt (refuses_word '-' rfl ?_)
        rintro ⟨⟩
        cases all.1
      · exact .opt .text

theorem body_boolValue : Format.body .boolValue = keyword (firstOf ["true", "false"]) := rfl

theorem buildEntry_eq {start stop s e : Nat} {front key : String} {part : Part} :
    buildEntry (.node .optionEntry start stop front [.node .identifier s e key [], part]) =
      match part.rule with
      | .boolValue => .ok ⟨key, .bool (part.text == "true")⟩
      | .intValue =>
          match readInt part.text with
          | some n => .ok ⟨key, .int n⟩
          | none => .error (readFault (.malformed ("invalid integer '" ++ part.text ++ "'"))
              (Part.span
                (.node .optionEntry start stop front [.node .identifier s e key [], part])))
      | _ => .ok ⟨key, .text (unquote part.text)⟩ := rfl

theorem unquote_quoted (inner : List Char) :
    unquote (String.ofList ('"' :: inner ++ ['"'])) = String.ofList inner := by
  rw [unquote, String.toList_ofList, List.cons_append]
  simp

theorem toList_written_text (value : String) :
    (OptionValue.text value).written.toList = '"' :: value.toList ++ ['"'] := by
  simp [OptionValue.written]

theorem rejects_boolValue (other : ∀ c ∈ t.head?, c ≠ 't' ∧ c ≠ 'f') :
    Rejects (.rule .boolValue) t :=
  rejects_token rfl (.seq (.alt (refuses_word 't' rfl fun same => (other 't' same).1 rfl)
    (refuses_word 'f' rfl fun same => (other 'f' same).2 rfl)))

theorem skipped_semicolon : Skipped (';' :: u) (';' :: u) :=
  .here (solid_cons rfl (by decide))

def valueRules : Expr Rule :=
  .rule .boolValue <|> .rule .intValue <|> .rule .stringValue

theorem gets_bool (b : Bool) : Solid ((OptionValue.bool b).written.toList ++ ';' :: u) ∧
    Gets valueRules ((OptionValue.bool b).written.toList ++ ';' :: u) (';' :: u)
      (ValueOf (.bool b)) := by
  have named : ∀ w ∈ ["true", "false"], ∀ c ∈ w.toList, isNameChar c = true := by decide
  have apart : ∀ w ∈ ["true", "false"], ∀ x ∈ ["true", "false"], x.toList <+: w.toList → x = w := by
    decide
  have word {w : String} (listed : w ∈ ["true", "false"]) :
      Takes (Format.body .boolValue) w.toList (';' :: u) := by
    rw [body_boolValue]
    exact takes_keyword named (apart w listed) listed (by rintro _ ⟨⟩; rfl)
  cases b with
  | true =>
      refine ⟨solid_cons rfl (by decide), .altFirst (((passes_token .boolValue rfl
        (word (by decide))).gets skipped_semicolon).imp ?_)⟩
      rintro _ ⟨start, stop, _, rfl, rfl⟩
      exact ⟨_, rfl, fun _ _ _ _ _ _ => rfl⟩
  | false =>
      refine ⟨solid_cons rfl (by decide), .altFirst (((passes_token .boolValue rfl
        (word (by decide))).gets skipped_semicolon).imp ?_)⟩
      rintro _ ⟨start, stop, _, rfl, rfl⟩
      exact ⟨_, rfl, fun _ _ _ _ _ _ => rfl⟩

theorem exists_cons_toString_int (n : Int) : ∃ c rest, (toString n).toList = c :: rest ∧
    (c = '-' ∨ c.isDigit = true) := by
  obtain ⟨sign, digits, whole, filled, all, value⟩ := toList_toString_int n
  rw [whole]
  rcases value with ⟨rfl, -⟩ | ⟨rfl, -⟩
  · obtain ⟨c, rest, rfl⟩ := List.exists_cons_of_ne_nil filled
    exact ⟨c, rest, rfl, .inr (all c List.mem_cons_self)⟩
  · exact ⟨'-', digits, rfl, .inl rfl⟩

theorem gets_int {n : Int} (inside : inInt64 n = true) :
    Solid ((OptionValue.int n).written.toList ++ ';' :: u) ∧
      Gets valueRules ((OptionValue.int n).written.toList ++ ';' :: u) (';' :: u)
        (ValueOf (.int n)) := by
  have passes := passes_token (u := ';' :: u) .intValue rfl (takes_int n (by rintro _ ⟨⟩; rfl))
  obtain ⟨c, rest, begins, first⟩ := exists_cons_toString_int n
  have written : (OptionValue.int n).written.toList = c :: rest := begins
  rw [written]
  rw [begins] at passes
  have solid : Solid (c :: rest ++ ';' :: u) := by
    rcases first with rfl | digit
    · exact solid_cons rfl (by decide)
    · exact solid_of_isNameChar (by simp [isNameChar, Char.isAlphanum, digit])
  refine ⟨solid, .altSecond (rejects_boolValue ?_)
    (.altFirst ((passes.gets skipped_semicolon).imp ?_))⟩
  · rintro _ ⟨⟩
    rcases first with rfl | digit
    · decide
    · constructor
      all_goals
        rintro rfl
        cases digit
  · rintro _ ⟨start, stop, _, rfl, rfl⟩
    refine ⟨_, rfl, fun _ _ _ _ _ _ => ?_⟩
    have text : String.ofList (c :: rest) = toString n := by rw [← begins, String.ofList_toList]
    rw [buildEntry_eq]
    simp only [Tree.rule, Tree.text, text, readInt_toString inside]

theorem gets_text {value : String} (inside : Inside .double value.toList) :
    Solid ((OptionValue.text value).written.toList ++ ';' :: u) ∧
      Gets valueRules ((OptionValue.text value).written.toList ++ ';' :: u) (';' :: u)
        (ValueOf (.text value)) := by
  have passes := passes_token (u := ';' :: u) .stringValue rfl (takes_literal .double inside)
  have noInt : Rejects (.rule .intValue) ('"' :: value.toList ++ ['"'] ++ ';' :: u) := by
    have noSign : Takes (.opt (word "-")) [] ('"' :: value.toList ++ ['"'] ++ ';' :: u) :=
      .noOpt (refuses_word '-' rfl (by simp))
    refine rejects_token rfl (.seqSecond (w := []) token_ne_spaced noSign (.seq (.one ?_)))
    rintro _ ⟨⟩
    rfl
  rw [toList_written_text]
  refine ⟨solid_cons rfl (by decide), .altSecond (rejects_boolValue ?_) (.altSecond noInt
    ((passes.gets skipped_semicolon).imp ?_))⟩
  · rintro _ ⟨⟩
    decide
  · rintro _ ⟨start, stop, _, rfl, rfl⟩
    refine ⟨_, rfl, fun _ _ _ _ _ _ => ?_⟩
    have text : unquote (String.ofList (Quote.double.char :: value.toList ++ [Quote.double.char])) =
        value := by
      rw [show Quote.double.char = '"' from rfl, unquote_quoted, String.ofList_toList]
    rw [buildEntry_eq]
    simp only [Tree.rule, Tree.text, text]

/-- A value in front of a semicolon is read as it was written. -/
theorem gets_value {value : OptionValue} (writable : value.IsWritable) :
    Solid (value.written.toList ++ ';' :: u) ∧
      Gets valueRules (value.written.toList ++ ';' :: u) (';' :: u) (ValueOf value) := by
  cases value with
  | bool b => exact gets_bool b
  | int n => exact gets_int writable
  | text value => exact gets_text writable

def entryText (entry : OptionEntry) : List Char :=
  entry.key.toList ++ (' ' :: '=' :: ' ' :: (entry.value.written.toList ++ [';']))

def EntryOf (entry : OptionEntry) (trees : List Part) : Prop :=
  ∃ part : Part, trees = [part] ∧ buildEntry part = .ok entry

theorem gets_entry {entry : OptionEntry} (writable : entry.IsWritable) (skipped : Skipped u v) :
    Solid (entryText entry ++ u) ∧
      Gets (.rule .optionEntry) (entryText entry ++ u) v (EntryOf entry) := by
  have whole : entryText entry ++ u =
      entry.key.toList ++ (' ' :: '=' :: ' ' :: (entry.value.written.toList ++ ';' :: u)) := by
    simp [entryText]
  rw [whole]
  refine ⟨solid_of_isIdentifier writable.key, ?_⟩
  obtain ⟨solid, value⟩ := gets_value (u := u) writable.value
  have key := passes_token .identifier rfl (takes_identifier
    (u := ' ' :: '=' :: ' ' :: (entry.value.written.toList ++ ';' :: u)) writable.key
    (by rintro _ ⟨⟩; rfl))
  have row := (key.gets (.space (.here (solid_cons rfl (by decide))))).seq
    (((passes_word "=").gets (.space (.here solid))).seq
      (value.seq ((passes_word ";").gets skipped)))
  refine (Gets.rule .optionEntry rfl row).imp ?_
  rintro _ ⟨front, start, stop, _, rfl, _, _, rfl, ⟨s, e, _, rfl, rfl⟩, _, _, rfl, rfl, _, _, rfl,
    ⟨part, rfl, built⟩, rfl⟩
  refine ⟨_, rfl, ?_⟩
  rw [String.ofList_toList]
  exact built start stop (String.ofList front) entry.key s e

def entryLines (entries : List OptionEntry) : List Char :=
  entries.flatMap fun entry => ' ' :: ' ' :: (entryText entry ++ ['\n'])

theorem exists_lists_entries {entries : List OptionEntry}
    (writable : ∀ entry ∈ entries, entry.IsWritable) :
    ∃ t, Skipped (entryLines entries ++ '\x7d' :: u) t ∧
      Lists (.rule .optionEntry) EntryOf entries t ('\x7d' :: u) := by
  have closing : Solid ('\x7d' :: u) := solid_cons rfl (by decide)
  induction entries with
  | nil =>
      have refused : Rejects (.rule .optionEntry) ('\x7d' :: u) := by
        refine rejects_rule rfl (.seq (rejects_token rfl (.seq (.one ?_))))
        rintro _ ⟨⟩
        rfl
      exact ⟨_, .here closing, .stop closing refused⟩
  | cons entry rest ih =>
      rw [List.forall_mem_cons] at writable
      obtain ⟨t, skipped, lists⟩ := ih writable.2
      obtain ⟨solid, gets⟩ := gets_entry writable.1 (.blank rfl skipped : Skipped ('\n' :: _) t)
      have whole : entryLines (entry :: rest) ++ '\x7d' :: u =
          ' ' :: ' ' :: (entryText entry ++ '\n' :: (entryLines rest ++ '\x7d' :: u)) := by
        simp [entryLines]
      rw [whole]
      exact ⟨_, .space (.space (.here solid)), .next gets lists⟩

theorem mapM_buildEntry {entries : List OptionEntry} {trees : List Part}
    (rows : Rows EntryOf entries trees) : trees.mapM buildEntry = .ok entries := by
  obtain ⟨rows, rfl, all⟩ := rows
  induction all with
  | nil => rfl
  | cons built _ ih =>
      obtain ⟨part, rfl, built⟩ := built
      rw [List.flatten_cons, List.singleton_append, List.mapM_cons, built, ih]
      rfl

theorem buildItem_options {start stop : Nat} {front : String} {trees : List Part}
    {entries : List OptionEntry} (built : trees.mapM buildEntry = .ok entries) :
    buildItem (.node .optionsDecl start stop front trees) = .ok (some (.options entries)) := by
  have whole : buildItem (.node .optionsDecl start stop front trees) =
      (do return some (.options (← trees.mapM buildEntry))) := rfl
  rw [whole, built]
  rfl

def optionsText (entries : List OptionEntry) : List Char :=
  "options".toList ++ (' ' :: '\x7b' :: '\n' :: (entryLines entries ++ ['\x7d']))

/-- An option block is read with the entries that it was written with. -/
theorem gets_options {entries : List OptionEntry} (writable : ∀ entry ∈ entries, entry.IsWritable)
    (skipped : Skipped u v) : Gets (.rule .optionsDecl) (optionsText entries ++ u) v
      (Items (· = .options entries)) := by
  obtain ⟨t, skippedLines, lists⟩ := exists_lists_entries (u := u) writable
  have row := ((passes_word "options").gets (.space (.here (solid_cons (c := '\x7b') rfl
    (by decide))))).seq (((passes_word "\x7b").gets (.blank (c := '\n') rfl skippedLines)).seq
      (lists.star.seq ((passes_word "\x7d").gets skipped)))
  generalize spelled : "options".toList = word at row
  have whole : optionsText entries ++ u =
      word ++ (' ' :: '\x7b' :: '\n' :: (entryLines entries ++ '\x7d' :: u)) := by
    have rest : ' ' :: '\x7b' :: '\n' :: (entryLines entries ++ ['\x7d']) ++ u =
        ' ' :: '\x7b' :: '\n' :: (entryLines entries ++ '\x7d' :: u) := by simp
    rw [← spelled, ← rest]
    exact List.append_assoc _ _ _
  rw [whole]
  refine (Gets.rule .optionsDecl rfl row).imp ?_
  rintro _ ⟨front, start, stop, _, rfl, _, _, rfl, rfl, _, _, rfl, rfl, _, _, rfl, rows, rfl⟩
  rw [List.nil_append, List.nil_append, List.append_nil]
  exact ⟨_, _, rfl, buildItem_options (mapM_buildEntry rows), rfl⟩

end Format

end NodeWeave.Grammar

/-!
## The unit of the parser

The compilation unit of a parser between its marks. Main statement: a unit in which literals and
comments are closed is read up to the mark behind it, if this mark stands nowhere in the unit but in
literals and comments.
-/

namespace NodeWeave.Grammar.Format

open Peg Peg.Expr Peg.Rules Lexis Text

variable {u v name inner : List Char}

/-! ### Up to the mark -/

def parserEnd : List Char :=
  "PARSER_END".toList

/-- Brackets are nothing special in the unit of a parser. -/
def parserLexis : Lexis :=
  { Bracket.brace.lexis with opening := none, closing := none, solid := by simp }

/-- Literals and comments are closed in the text, and the word behind the unit stands nowhere
else. -/
structure IsParserText (text : List Char) : Prop where
  closes : parserLexis.Closes 0 text
  hides : ¬ parserLexis.Exposes parserEnd text

def parserPiece : Expr Rule :=
  .unless (word "PARSER_END") >> Bracket.brace.orLiteral anyChar

theorem takesItems_parserPiece :
    TakesItems .brace parserLexis parserPiece anyChar fun text => ¬ parserEnd <+: text where
  quotes := rfl
  comments := rfl
  whole := by
    intro w rest apart taken
    exact Takes.seq (w := []) (by decide) (.unless (.text apart)) taken
  single := fun _ => .one rfl
  feed := by
    intro c rest ended begins
    have spelled : parserEnd = 'P' :: "ARSER_END".toList := by decide
    rw [spelled, List.cons_prefix_cons] at begins
    obtain ⟨rfl, -⟩ := begins
    cases ended

/-- The word does not begin in a text that ends with the end of a line and go on behind it. -/
theorem not_parserEnd_of_append {text behind : List Char} (filled : text ≠ [])
    (last : ∀ c ∈ text.getLast?, c = '\n') (none : ¬ parserEnd <+: text) :
    ¬ parserEnd <+: text ++ behind := by
  intro begins
  rcases Nat.le_total parserEnd.length text.length with short | long
  · exact none (List.prefix_of_prefix_length_le begins (List.prefix_append _ _) short)
  · have inside : text <+: parserEnd :=
      List.prefix_of_prefix_length_le (List.prefix_append _ _) begins long
    have end' : text.getLast filled ∈ parserEnd := inside.subset (List.getLast_mem filled)
    rw [last _ (List.getLast_mem_getLast? filled)] at end'
    exact absurd end' (by decide)

theorem takes_parserPieces (sealed : Sealed parserLexis inner)
    (hides : ¬ parserLexis.Exposes parserEnd inner)
    (last : ∀ c ∈ inner.getLast?, c = '\n') : Takes (.star parserPiece) inner (parserEnd ++ u) := by
  induction sealed with
  | nil => exact .noStar (.seq (.unless .text))
  | nest opens => cases opens
  | @item item rest is _ ih =>
      have hidesRest : ¬ parserLexis.Exposes parserEnd rest := by
        rintro ⟨front, more, rfl, closes⟩
        exact hides ⟨item ++ front, more, (List.append_assoc _ _ _).symm, is.closes closes⟩
      have lastRest : ∀ c ∈ rest.getLast?, c = '\n' := by
        intro c ends
        exact last c (by rw [List.getLast?_append, ends]; rfl)
      have here : ¬ parserEnd <+: item ++ rest := by
        rintro ⟨more, whole⟩
        exact hides ⟨[], more, whole.symm, .code, rfl, rfl⟩
      have filled : item ++ rest ≠ [] := by simp [is.ne_nil]
      have apart : ∀ c ∈ (parserEnd ++ u).head?, c ≠ '/' ∧ c ≠ '*' := by
        rintro _ ⟨⟩
        decide
      refine takesItems_parserPiece.item (is.append apart) ?_ (ih hidesRest lastRest)
      rw [← List.append_assoc]
      exact not_parserEnd_of_append filled last here

/-- Blanks and comments in front of the unit are no part of it. -/
theorem exists_passes_parserBody (is : IsParserText inner) (last : ∀ c ∈ inner.getLast?, c = '\n') :
    ∃ t, Skipped (inner ++ (parserEnd ++ u)) t ∧ Passes (.rule .parserBody) t (parserEnd ++ u)
      fun trees => ∃ text, Node .parserBody text Nothing trees := by
  have solid : Solid (parserEnd ++ u) := solid_cons rfl (by decide)
  obtain ⟨front, content, rfl, scanned, skipped, sealed⟩ :=
    exists_content (v := parserEnd ++ u) rfl (by rintro _ ⟨⟩) solid (by rintro _ ⟨⟩; decide)
      is.closes.sealed
  have hides : ¬ parserLexis.Exposes parserEnd content := by
    rintro ⟨before, behind, rfl, place, later, rests⟩
    refine is.hides ⟨front ++ before, behind, (List.append_assoc _ _ _).symm, place, ?_, rests⟩
    rw [scan_append_of_eq scanned, later]
  have lastContent : ∀ c ∈ content.getLast?, c = '\n' := by
    intro c ends
    exact last c (by rw [List.getLast?_append, ends]; rfl)
  exact ⟨_, skipped,
    (passes_token .parserBody rfl (takes_parserPieces sealed hides lastContent)).imp
      fun _ node => ⟨content, node⟩⟩

theorem IsParserText.trimLines (is : IsParserText inner) : IsParserText (trimLines inner) where
  closes := closes_trimLines is.closes
  hides := fun exposes =>
    is.hides (exposes_of_trimLines (by decide) (by decide) is.closes exposes)

/-! ### The unit between its marks -/

/-- The text of the unit, which ends with the end of a line, between the marks with the name. -/
def parserText (name inner : List Char) : List Char :=
  "PARSER_BEGIN".toList ++ '(' :: (name ++ ')' :: '\n' :: (inner ++
    (parserEnd ++ '(' :: (name ++ [')']))))

theorem head?_parserText : (parserText name inner ++ u).head? = some 'P' := rfl

def IsParserOf (name : List Char) (item : Item) : Prop :=
  ∃ body, item = .parser ⟨String.ofList name, body⟩

theorem buildItem_parserDecl {start stop s e m n k l : Nat} {front name text : String} :
    buildItem (.node .parserDecl start stop front [.node .identifier s e name [],
      .node .parserBody m n text [], .node .identifier k l name []]) =
        .ok (some (.parser ⟨name, Text.trimEnd text⟩)) := by
  simp [buildItem, Tree.rule, buildParserUnit, Tree.children, Part.next, bind, Except.bind,
    Tree.text]
  rfl

theorem gets_parserUnit (identifier : isIdentifier name = true) (is : IsParserText inner)
    (last : ∀ c ∈ inner.getLast?, c = '\n') (skipped : Skipped u v) :
    Solid (parserText name inner ++ u) ∧
      Gets (.rule .parserDecl) (parserText name inner ++ u) v (Items (IsParserOf name)) := by
  have whole :
      '(' :: (name ++ ')' :: '\n' :: (inner ++ (parserEnd ++ '(' :: (name ++ [')'])))) ++ u =
        '(' :: (name ++ ')' :: '\n' :: (inner ++ (parserEnd ++ '(' :: (name ++ ')' :: u)))) := by
    simp
  have begins : parserText name inner ++ u = "PARSER_BEGIN".toList ++ _ := List.append_assoc _ _ _
  rw [begins, whole]
  have named {t : List Char} : Gets (.rule .identifier) (name ++ ')' :: t) (')' :: t)
      (Node .identifier name Nothing) :=
    (passes_token .identifier rfl (takes_identifier identifier (by rintro _ ⟨⟩; rfl))).gets
      (.here (solid_cons rfl (by decide)))
  have opening (word : String) {t : List Char} : Gets (Peg.Expr.word word)
      (word.toList ++ '(' :: t) ('(' :: t) Nothing :=
    (passes_word word).gets (.here (solid_cons rfl (by decide)))
  have behind {t : List Char} : Gets (word "(") ('(' :: (name ++ t)) (name ++ t) Nothing :=
    (passes_word "(").gets (.here (solid_of_isIdentifier identifier))
  obtain ⟨t, skippedGap, passes⟩ :=
    exists_passes_parserBody (u := '(' :: (name ++ ')' :: u)) is last
  have row := (opening "PARSER_BEGIN").seq (behind.seq (named.seq (((passes_word ")").gets
    (.blank (c := '\n') rfl skippedGap)).seq ((passes.gets (.here (solid_cons rfl (by decide)))).seq
      ((opening "PARSER_END").seq (behind.seq (named.seq
        ((passes_word ")").gets skipped))))))))
  refine ⟨solid_cons rfl (by decide), (Gets.rule .parserDecl rfl row).imp ?_⟩
  rintro _ ⟨front, start, stop, _, rfl, _, _, rfl, rfl, _, _, rfl, rfl, _, _, rfl,
    ⟨s, e, _, rfl, rfl⟩, _, _, rfl, rfl, _, _, rfl, ⟨text, s', e', _, rfl, rfl⟩, _, _, rfl, rfl,
    _, _, rfl, rfl, _, _, rfl, ⟨_, _, _, rfl, rfl⟩, rfl⟩
  refine ⟨_, _, rfl, buildItem_parserDecl, _, rfl⟩

end NodeWeave.Grammar.Format

/-!
## Whole files

An option block, the unit of the parser, and items behind them.
-/

namespace NodeWeave.Grammar.Format

open Peg Peg.Expr Peg.Rules Text

variable {t u v : List Char} {kinds others : List (Item → Prop)}

/-! ### Rows of items -/

section

variable {α : Type} {kinds : α → List Part → Prop} {as bs : List α} {trees more : List Part}

theorem Rows.append (first : Rows kinds as trees) (second : Rows kinds bs more) :
    Rows kinds (as ++ bs) (trees ++ more) := by
  obtain ⟨rows, rfl, all⟩ := first
  obtain ⟨others, rfl, both⟩ := second
  exact ⟨rows ++ others, List.flatten_append.symm, List.rel_append all both⟩

theorem rows_singleton {a : α} (held : kinds a trees) : Rows kinds [a] trees := by
  simpa using Rows.cons held rows_nil

end

abbrev AreOf (kinds : List (Item → Prop)) (items : List Item) : Prop :=
  List.Forall₂ (fun kind item => kind item) kinds items

theorem exists_mapM_buildItem {trees : List Part} (rows : Rows Items kinds trees) :
    ∃ items, trees.mapM buildItem = .ok (items.map some) ∧ AreOf kinds items := by
  obtain ⟨rows, rfl, all⟩ := rows
  induction all with
  | nil => exact ⟨[], rfl, .nil⟩
  | cons is _ ih =>
      obtain ⟨part, item, rfl, built, held⟩ := is
      obtain ⟨items, others, are⟩ := ih
      refine ⟨item :: items, ?_, .cons held are⟩
      rw [List.flatten_cons, List.singleton_append, List.mapM_cons, built, others]
      rfl

/-! ### Files -/

def itemsText (items : List (List Char)) : List Char :=
  items.flatMap fun text => '\n' :: (text ++ ['\n'])

/-- The option block of a file that has one, and the empty line behind it. -/
def optionsFront : Option (List OptionEntry) → List Char
  | some entries => optionsText entries ++ ['\n', '\n']
  | none => []

def fileText (options : Option (List OptionEntry)) (name inner : List Char)
    (items : List (List Char)) : List Char :=
  optionsFront options ++ (parserText name inner ++ '\n' :: itemsText items)

def fileKinds (options : Option (List OptionEntry)) (name : List Char)
    (kinds : List (Item → Prop)) : List (Item → Prop) :=
  options.toList.map (fun entries item => item = .options entries) ++ IsParserOf name :: kinds

theorem exists_lists_items {items : List (List Char)} (are : List.Forall₂ IsItemText kinds items) :
    ∃ t, Skipped ('\n' :: itemsText items) t ∧ Lists item Items kinds t [] := by
  induction are with
  | nil =>
      have noWord {w : String} {o : Char} (begins : w.toList.head? = some o) :
          Rejects (word w) [] :=
        rejects_word o begins (by simp)
      have noHeader : Rejects (.rule .productionHeader) [] :=
        rejects_productionHeader nofun solid_nil
      have noStates : Rejects (.rule .lexicalStates) [] := rejects_rule rfl (.seq (noWord rfl))
      have noKind : Rejects (.rule .regexprKind) [] :=
        rejects_token rfl (.seq (.alt (refuses_word 'S' rfl (by simp))
          (.alt (refuses_word 'T' rfl (by simp))
          (.alt (refuses_word 'S' rfl (by simp)) (refuses_word 'M' rfl (by simp))))))
      have refused : Rejects item [] :=
        .alt (rejects_rule rfl (.seq (noWord rfl))) (.alt
          (rejects_rule rfl (rejects_seq (.noOpt solid_nil noStates) (.seq noKind)))
          (.alt (rejects_rule rfl (.seq (noWord rfl))) (rejects_rule rfl (.seq noHeader))))
      exact ⟨[], .blank rfl (.here solid_nil), .stop solid_nil refused⟩
  | @cons kind text kinds items is _ ih =>
      obtain ⟨t, skipped, lists⟩ := ih
      obtain ⟨solid, gets⟩ := is skipped
      have whole : itemsText (text :: items) = '\n' :: (text ++ '\n' :: itemsText items) := by
        simp [itemsText]
      rw [whole]
      exact ⟨_, .blank rfl (.blank rfl (.here solid)), .next gets lists⟩

theorem gets_optionsFront {options : Option (List OptionEntry)}
    (writable : ∀ entries ∈ options, ∀ entry ∈ entries, entry.IsWritable) (solid : Solid v)
    (other : v.head? ≠ some 'o') :
    Solid (optionsFront options ++ v) ∧
      Gets (.opt (.rule .optionsDecl)) (optionsFront options ++ v) v
        (Rows Items (options.toList.map fun entries item => item = .options entries)) := by
  cases options with
  | none =>
      have refused : Rejects (.rule .optionsDecl) v :=
        rejects_rule rfl (.seq (rejects_word 'o' rfl other))
      refine ⟨solid, (Gets.noOpt solid refused).imp ?_⟩
      rintro _ rfl
      exact rows_nil
  | some entries =>
      have behind : Skipped ('\n' :: '\n' :: v) v := .blank rfl (.blank rfl (.here solid))
      have gets := gets_options (writable entries rfl) behind
      have whole : optionsFront (some entries) ++ v = optionsText entries ++ '\n' :: '\n' :: v :=
        List.append_assoc _ _ _
      rw [whole]
      exact ⟨solid_cons rfl (by decide), gets.opt.imp fun _ held => rows_singleton held⟩

theorem build_of_children (path : String) {start stop s e : Nat} {front last : String}
    {trees : List Part} {items : List Item}
    (built : trees.mapM buildItem = .ok (items.map some)) :
    build path (.node .file start stop front (trees ++ [.node .endOfInput s e last []])) =
      .ok ⟨path, items⟩ := by
  have all : (trees ++ [(.node .endOfInput s e last [] : Part)]).mapM buildItem =
      .ok (items.map some ++ [none]) := by
    rw [List.mapM_append, built]
    rfl
  have unfolded (children : List Part) : build path (.node .file start stop front children) =
      (do return { name := path, items := (← children.mapM buildItem).filterMap id }) := rfl
  rw [unfolded, all]
  simp [bind, Except.bind, pure, Except.pure]

/-- A file is read with the items whose texts it consists of. -/
theorem exists_read_fileText (path : String) {options : Option (List OptionEntry)}
    {name inner : List Char} {items : List (List Char)}
    (writable : ∀ entries ∈ options, ∀ entry ∈ entries, entry.IsWritable)
    (identifier : isIdentifier name = true) (is : IsParserText inner)
    (last : ∀ c ∈ inner.getLast?, c = '\n') (are : List.Forall₂ IsItemText kinds items) :
    ∃ again, read path (String.ofList (fileText options name inner items)) = .ok ⟨path, again⟩ ∧
      AreOf (fileKinds options name kinds) again := by
  obtain ⟨t, skipped, lists⟩ := exists_lists_items are
  obtain ⟨solidParser, parser⟩ := gets_parserUnit identifier is last skipped
  obtain ⟨solid, front⟩ := gets_optionsFront writable solidParser
    (by rw [head?_parserText]; decide)
  have finish : Passes (.rule .endOfInput) [] [] (Node .endOfInput [] Nothing) :=
    Passes.rule rfl (fun _ => ⟨[], [], .finish, rfl⟩) rfl
  have start : Gets .done
      (optionsFront options ++ (parserText name inner ++ '\n' :: itemsText items))
      (optionsFront options ++ (parserText name inner ++ '\n' :: itemsText items)) Nothing :=
    ⟨_, .here solid, fun _ => ⟨[], [], .done, rfl⟩⟩
  have row := Passes.seq start (Passes.seq front (Passes.seq parser (Passes.seq lists.star finish)))
  have passes : Passes (.rule .file) _ [] _ := row.rule rfl (List.append_nil _).symm
  obtain ⟨whole, _, parses, first, stop, _, rfl, _, _, rfl, rfl, ahead, _, rfl, opened, unit, _,
    rfl, parsed, rest, _, rfl, others, s, e, _, rfl, rfl⟩ := passes 0
  obtain ⟨again, built, areAgain⟩ := exists_mapM_buildItem (opened.append (Rows.cons parsed others))
  refine ⟨again, ?_, areAgain⟩
  have text : (String.ofList (fileText options name inner items)).toList =
      optionsFront options ++ (parserText name inner ++ '\n' :: itemsText items) :=
    String.toList_ofList
  have regroup (last : Part) : [] ++ (ahead ++ (unit ++ (rest ++ [last]))) =
      ahead ++ (unit ++ rest) ++ [last] := by simp
  rw [← text, regroup] at parses
  rw [read, parses.parse_eq_ok (settles_file _)]
  exact build_of_children path built

end NodeWeave.Grammar.Format
