import NodeWeave.Proofs.Grammar.FileTexts
import NodeWeave.Proofs.Grammar.Ordered
import NodeWeave.Proofs.Grammar.Unambiguous
import NodeWeave.Proofs.Woven.ItemLines

/-!
Woven grammars are read again. Main statement: where the texts of the host language in a grammar
that was read close all that they open, the text that is woven of the grammar is read, and what is
read are the same items in the same order, without nodes.
-/

namespace NodeWeave

open Grammar Grammar.Format Text Lexis

namespace Grammar

/-- The entries that are written to the woven grammar. -/
def keptEntries (entries : List OptionEntry) : List OptionEntry :=
  entries.filter fun entry => !isNodeOption entry.key

/-- The unit of the parser with what is added to it, up to the end of its last line. -/
def wovenUnit (style : ScopeStyle) (unit : ParserUnit) : List Char :=
  (ParserSupport.add unit.body unit.name style.parserImports style.parserInterfaces
    style.parserDeclarations).toList ++ ['\n']

theorem getLast?_wovenUnit (style : ScopeStyle) (unit : ParserUnit) :
    ∀ c ∈ (trimLines (wovenUnit style unit)).getLast?, c = '\n' := by
  rw [getLast?_trimLines, wovenUnit, List.getLast?_concat]
  rintro _ ⟨⟩
  rfl

namespace Item

/-- The texts of the host language in an item close all that they open. -/
def IsClosed (style : ScopeStyle) : Item → Prop
  | .options entries =>
      ∀ entry ∈ entries, ∀ text, entry.value = .text text → Inside .double text.toList
  | .parser unit => IsParserText (wovenUnit style unit)
  | .verbatim text => IsVerbatimText text.toList
  | .production p => p.IsClosed style

/-- The item is there again, without what concerns nodes only. -/
def IsAgain : Item → Item → Prop
  | .options entries, again => again = .options (keptEntries entries)
  | .parser unit, again => ∃ body, again = .parser ⟨unit.name, body⟩
  | .verbatim text, again => again = .verbatim (String.ofList (trimLines text.toList))
  | .production p, again => ∃ q, again = .production q ∧ p.IsAgain q

end Item

end Grammar

/-! ### Texts -/

namespace Piece

variable {pieces : List Piece}

def EndsLine (pieces : List Piece) : Prop :=
  ∃ front last, pieces = front ++ [last] ∧ last.text.toList.getLast? = some '\n'

theorem endsLine_line (front : List Piece) (level : Nat) (text : String) :
    EndsLine (front ++ [Piece.line level text]) :=
  ⟨front, _, rfl, getLast?_lineText level text⟩

theorem endsLine_raw (front : List Piece) (text : String) {feed : String}
    (newline : feed.toList.getLast? = some '\n') :
    EndsLine (front ++ [Piece.raw (text ++ feed)]) := by
  refine ⟨front, _, rfl, ?_⟩
  rw [Piece.text, String.toList_append, List.getLast?_append, newline]
  rfl

theorem EndsLine.append (ends : EndsLine pieces) (front : List Piece) :
    EndsLine (front ++ pieces) := by
  obtain ⟨before, last, rfl, newline⟩ := ends
  exact ⟨front ++ before, last, (List.append_assoc _ _ _).symm, newline⟩

theorem EndsLine.toList_render (ends : EndsLine pieces) (kept : AllKept pieces) :
    (render pieces).toList = written pieces := by
  refine Piece.toList_render kept ?_
  obtain ⟨front, last, rfl, newline⟩ := ends
  have whole : (concat (front ++ [last])).toList = (concat front).toList ++ last.text.toList := by
    simp [concat, String.toList_join]
  rw [whole, List.getLast?_append, newline]
  rintro _ ⟨⟩
  rfl

end Piece

namespace WovenItem

theorem endsLine_pieces (item : WovenItem) : Piece.EndsLine item.pieces := by
  cases item with
  | options entries => exact Piece.endsLine_line _ 0 "\x7d"
  | parser name body => exact Piece.endsLine_line [_, _] 0 _
  | verbatim text => exact Piece.endsLine_raw [] text rfl
  | production p =>
      cases p with
      | rules => exact Piece.endsLine_line _ 0 "\x7d"
      | scopedRules | scopedCode =>
          exact (Piece.endsLine_line [Piece.regionStop 0] 0 "\x7d").append _
      | code header text => exact Piece.endsLine_raw [_] _ rfl

theorem endsLine_piecesAll (item : WovenItem) (items : List WovenItem) :
    Piece.EndsLine (piecesAll (item :: items)) := by
  induction items generalizing item with
  | nil => exact item.endsLine_pieces
  | cons next rest ih =>
      rw [piecesAll_cons_cons]
      exact (ih next).append _

end WovenItem

namespace Grammar

variable {path text : String} {g : Grammar} {style : ScopeStyle}

theorem suits_of_read (done : read path text = .ok g) (inert : style.options.IsInert) :
    style.Suits g where
  options := inert
  throws := fun _ declared => isDotted_throws_of_read done declared

/-- The entries that are written have keys that are names, and values that are read as they are. -/
theorem isWritable_of_read (done : read path text = .ok g) {entries : List OptionEntry}
    (mem : Item.options entries ∈ g.items) (closed : (Item.options entries).IsClosed style) :
    ∀ entry ∈ keptEntries entries, entry.IsWritable := by
  intro entry listed
  have inside := List.mem_of_mem_filter listed
  obtain ⟨key, range⟩ := isRead_of_read done mem entry inside
  refine ⟨key, ?_⟩
  cases value : entry.value with
  | bool b => trivial
  | int n => exact range n value
  | text text => exact closed entry inside text value

theorem exists_itemText_weaveItem (done : read path text = .ok g) (inert : style.options.IsInert)
    {item : Item} (mem : item ∈ g.items) (behind : item.IsBehind) (closed : item.IsClosed style) :
    ∃ text, Piece.written (g.weaveItem style item).pieces = text ++ ['\n'] ∧
      IsItemText item.IsAgain text := by
  cases item with
  | options | parser => cases behind
  | verbatim text =>
      exact ⟨_, WovenItem.written_verbatim closed, isItemText_verbatim closed.trimLines⟩
  | production p =>
      have declared : p ∈ g.productions := List.mem_filterMap.mpr ⟨_, mem, rfl⟩
      exact exists_itemText_weaveProduction (suits_of_read done inert) declared closed
        fun e expands => isWhole_of_read done declared expands

/-- The lines of the items behind the unit of the parser are texts of these items. -/
theorem exists_itemsText_weaveItems (done : read path text = .ok g) (inert : style.options.IsInert)
    {items : List Item} (listed : ∀ item ∈ items, item ∈ g.items)
    (behind : ∀ item ∈ items, item.IsBehind) (closed : ∀ item ∈ items, item.IsClosed style) :
    ∃ texts,
      ((items.map (g.weaveItem style)).flatMap fun next => '\n' :: Piece.written next.pieces) =
        itemsText texts ∧ List.Forall₂ IsItemText (items.map Item.IsAgain) texts := by
  induction items with
  | nil => exact ⟨[], rfl, .nil⟩
  | cons item rest ih =>
      rw [List.forall_mem_cons] at listed behind closed
      obtain ⟨text, written, is⟩ := exists_itemText_weaveItem done inert listed.1 behind.1 closed.1
      obtain ⟨texts, whole, are⟩ := ih listed.2 behind.2 closed.2
      refine ⟨text :: texts, ?_, .cons is are⟩
      rw [List.map_cons, List.flatMap_cons, whole, written]
      rfl

/-- The lines of a woven grammar are the text of a file. -/
theorem written_wovenPieces {options : Option (List OptionEntry)} {unit : ParserUnit}
    {rest : List Item} {texts : List (List Char)} (ordered : g.IsOrdered options unit rest)
    (identifier : isIdentifier unit.name.toList = true)
    (writable : ∀ entries ∈ options, ∀ entry ∈ keptEntries entries, entry.IsWritable)
    (whole :
      ((rest.map (g.weaveItem style)).flatMap fun next => '\n' :: Piece.written next.pieces) =
        itemsText texts) :
    Piece.written (g.wovenPieces style) =
      fileText (options.map keptEntries) unit.name.toList (trimLines (wovenUnit style unit))
        texts := by
  rw [wovenPieces, weaveItems, ordered.items]
  cases options with
  | none =>
      have listed : (Option.toList none).map Item.options ++ .parser unit :: rest =
          .parser unit :: rest := rfl
      rw [listed, List.map_cons, WovenItem.written_piecesAll_cons, whole, weaveItem,
        WovenItem.written_parserUnit identifier, fileText, wovenUnit]
      simp [optionsFront]
  | some entries =>
      have listed : (Option.toList (some entries)).map Item.options ++ .parser unit :: rest =
          .options entries :: .parser unit :: rest := rfl
      have kept : g.weaveItem style (.options entries) = .options (keptEntries entries) := rfl
      rw [listed, List.map_cons, List.map_cons, WovenItem.written_piecesAll_cons, List.flatMap_cons,
        whole, kept, weaveItem, WovenItem.written_options (writable entries rfl),
        WovenItem.written_parserUnit identifier, fileText, wovenUnit]
      simp [optionsFront]

/-- The kinds of the items of a woven grammar are those of the items it is woven of. -/
theorem fileKinds_of_isOrdered {options : Option (List OptionEntry)} {unit : ParserUnit}
    {rest : List Item} (ordered : g.IsOrdered options unit rest) :
    fileKinds (options.map keptEntries) unit.name.toList (rest.map Item.IsAgain) =
      g.items.map Item.IsAgain := by
  have parser : IsParserOf unit.name.toList = (Item.parser unit).IsAgain := by
    funext item
    rw [IsParserOf, String.ofList_toList]
    rfl
  rw [ordered.items, List.map_append, List.map_cons, fileKinds, parser]
  cases options <;> rfl

/-- A woven grammar is read again, with the same items in the same order, where the texts of the
host language in it close all that they open. -/
theorem exists_read_weave {switches : Switches} {options : NodeOptions}
    (done : read path text = .ok g) (inert : options.IsInert)
    (closed : ∀ item ∈ g.items, item.IsClosed ⟨options, switches⟩) (again : String) :
    ∃ items, read again (g.weave options switches) = .ok ⟨again, items⟩ ∧
      List.Forall₂ Item.IsAgain g.items items := by
  obtain ⟨entries, unit, rest, ordered⟩ := exists_isOrdered_of_read done
  have listed : ∀ item ∈ rest, item ∈ g.items := by
    intro item mem
    simp [ordered.items, mem]
  have block {block : List OptionEntry} (given : block ∈ entries) :
      Item.options block ∈ g.items := by
    rw [ordered.items, Option.mem_def.mp given]
    simp
  have parser : Item.parser unit ∈ g.items := by simp [ordered.items]
  have identifier : isIdentifier unit.name.toList = true := hasNames_of_read done _ parser
  have writable : ∀ block ∈ entries, ∀ entry ∈ keptEntries block, entry.IsWritable :=
    fun _ given => isWritable_of_read done (block given) (closed _ (block given))
  have is : IsParserText _ := closed _ parser
  obtain ⟨texts, whole, are⟩ := exists_itemsText_weaveItems done inert listed ordered.behind
    fun item mem => closed item (listed item mem)
  have written := written_wovenPieces ordered identifier writable whole
  have ends : Piece.EndsLine (g.wovenPieces ⟨options, switches⟩) := by
    have filled : g.items ≠ [] := List.ne_nil_of_mem parser
    obtain ⟨item, others, split⟩ := List.exists_cons_of_ne_nil filled
    rw [wovenPieces, weaveItems, split]
    exact WovenItem.endsLine_piecesAll _ _
  have rendered : (g.weave options switches).toList = _ :=
    (ends.toList_render (WovenItem.allKept_piecesAll _)).trans written
  have writableBlock : ∀ kept ∈ entries.map keptEntries, ∀ entry ∈ kept, entry.IsWritable := by
    simpa using writable
  obtain ⟨items, done, areAgain⟩ := exists_read_fileText again writableBlock identifier is.trimLines
    (getLast?_wovenUnit _ unit) are
  rw [← rendered, String.ofList_toList] at done
  rw [fileKinds_of_isOrdered ordered] at areAgain
  exact ⟨items, done, (List.forall₂_map_left_iff (f := Item.IsAgain)).mp areAgain⟩

/-- An option for nodes only and one that is kept, a token, and a production that throws and opens a
node. -/
def markedText : String :=
  "options\x7bMULTI=true;LOOKAHEAD=2;\x7dPARSER_BEGIN(P)class P\x7b\x7dPARSER_END(P)" ++
    "SKIP:\x7b\" \"\x7dvoid A()throws E#N(1):\x7b\x7d\x7b\"a\"\x7d"

def markedProduction : Production where
  name := "A"
  header := "void A()"
  throws := ["E"]
  descriptor := some ⟨"N", some ⟨"1", false⟩⟩
  body := .rules "" (.terminal none "\"a\"")
  offset := 79

def markedGrammar : Grammar where
  name := "G.jjt"
  items := [.options [⟨"MULTI", .bool true⟩, ⟨"LOOKAHEAD", .int 2⟩],
    .parser ⟨"P", "class P\x7b\x7d"⟩, .verbatim "SKIP:\x7b\" \"\x7d", .production markedProduction]

def markedStyle : ScopeStyle := ⟨.ofGrammar markedGrammar, {}⟩

def isMarked : Grammar → Bool
  | ⟨name, [.options entries, .parser unit, .verbatim token,
      .production ⟨head, header, throws, descriptor, .rules code (.terminal none text), offset⟩]⟩ =>
      name == "G.jjt" && entries == [⟨"MULTI", .bool true⟩, ⟨"LOOKAHEAD", .int 2⟩] &&
        unit == ⟨"P", "class P\x7b\x7d"⟩ && token == "SKIP:\x7b\" \"\x7d" && head == "A" &&
        header == "void A()" && throws == ["E"] && descriptor == some ⟨"N", some ⟨"1", false⟩⟩ &&
        code == "" && text == "\"a\"" && offset == 79
  | _ => false

theorem eq_of_isMarked {g : Grammar} (marked : isMarked g = true) : g = markedGrammar := by
  unfold isMarked at marked
  split at marked
  · simp only [Bool.and_eq_true, beq_iff_eq] at marked
    obtain ⟨⟨⟨⟨⟨⟨⟨⟨⟨⟨rfl, rfl⟩, rfl⟩, rfl⟩, rfl⟩, rfl⟩, rfl⟩, rfl⟩, rfl⟩, rfl⟩, rfl⟩ := marked
    rfl
  · cases marked

theorem read_markedText : read "G.jjt" markedText = .ok markedGrammar := by
  have marked : (read "G.jjt" markedText).toOption.any isMarked = true := by decide +kernel
  cases done : read "G.jjt" markedText with
  | error fault =>
      rw [done] at marked
      cases marked
  | ok g =>
      rw [done] at marked
      rw [eq_of_isMarked marked]

theorem isClosed_markedProduction : markedProduction.IsClosed markedStyle where
  heading := by
    refine ⟨⟨none, ['v', 'o', 'i', 'd'], [], [], [], ['A'], []⟩, by decide, by decide, ?_⟩
    exact {
      modifier := nofun
      plain := fun _ => by decide
      first := by decide
      tail := ⟨.inl rfl, .inl rfl, 0, rfl⟩
      name := by decide
      closes := seals_eq_true_iff.mp (by decide)
      solid := solid_cons rfl (by decide)
      trimmed := ⟨nofun, nofun⟩ }
  node := by
    rintro name ⟨⟩
    refine ⟨⟨by decide, by decide⟩, ?_⟩
    rintro _ ⟨⟩
    exact seals_eq_true_iff.mp (by decide)
  declarations := by
    rintro _ _ ⟨⟩
    refine ⟨seals_eq_true_iff.mp (by decide), ?_⟩
    rintro _ mem
    obtain rfl := List.mem_singleton.mp mem
    exact ⟨nofun, .inl ⟨['a'], by decide, .char (by decide) (by decide) (by decide) .nil⟩⟩
  code := nofun

theorem exists_read_weave_marked : read "G.jjt" markedText = .ok markedGrammar ∧
    markedStyle.options.IsInert ∧ (∀ item ∈ markedGrammar.items, item.IsClosed markedStyle) ∧
    ∃ items, read "G.jj" (markedGrammar.weave (.ofGrammar markedGrammar) {}) = .ok ⟨"G.jj", items⟩ ∧
      List.Forall₂ Item.IsAgain markedGrammar.items items := by
  have inert : markedStyle.options.IsInert :=
    ⟨by decide +kernel, by decide +kernel, by decide +kernel⟩
  have closed : ∀ item ∈ markedGrammar.items, item.IsClosed markedStyle := by
    have options : (Item.options [⟨"MULTI", .bool true⟩, ⟨"LOOKAHEAD", .int 2⟩]).IsClosed
        markedStyle := by
      simp [Item.IsClosed]
    have parser : (Item.parser ⟨"P", "class P\x7b\x7d"⟩).IsClosed markedStyle := by
      refine ⟨seals_eq_true_iff.mp (by decide +kernel), ?_⟩
      rintro ⟨front, rest, whole, -⟩
      have inside : parserEnd <:+: _ :=
        ⟨front, rest, (whole.trans (List.append_assoc _ _ _).symm).symm⟩
      exact absurd inside (by decide +kernel)
    have token : (Item.verbatim "SKIP:\x7b\" \"\x7d").IsClosed markedStyle :=
      @IsVerbatimText.tokens [] [] [] [] ['"', ' ', '"'] "SKIP" .none (by decide) .nil .none .nil
        (seals_eq_true_iff.mp (by decide))
    have listed : markedGrammar.items = [_, _, _, .production markedProduction] := rfl
    rw [listed]
    exact List.forall_mem_cons.mpr ⟨options, List.forall_mem_cons.mpr ⟨parser,
      List.forall_mem_cons.mpr ⟨token, List.forall_mem_singleton.mpr isClosed_markedProduction⟩⟩⟩
  exact ⟨read_markedText, inert, closed, exists_read_weave read_markedText inert closed "G.jj"⟩

end Grammar

end NodeWeave
