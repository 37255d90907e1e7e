import NodeWeave.Woven.Piece

/-!
Texts cut at the marks of generated regions. Marks are looked for from left to right, and none of
them overlaps another one.
-/

namespace NodeWeave.Mark

/-- What every mark at which a region begins starts with. -/
def startText : List Char := "/*@bgen(jjtree)".toList

def stopText : List Char := Piece.stopMark.toList

inductive Token where
  | start
  | stop
  | char (c : Char)
  deriving DecidableEq, Repr

def tokensBehind : Nat → List Char → List Token
  | _, [] => []
  | skipped + 1, _ :: rest => tokensBehind skipped rest
  | 0, c :: rest =>
      if startText.isPrefixOf (c :: rest) then .start :: tokensBehind (startText.length - 1) rest
      else if stopText.isPrefixOf (c :: rest) then .stop :: tokensBehind (stopText.length - 1) rest
      else .char c :: tokensBehind 0 rest

def tokens (text : List Char) : List Token :=
  tokensBehind 0 text

/-- Marks take turns: the first one begins a region, and the last one ends one. -/
def alternate : List Token → Bool
  | [] => true
  | .char _ :: rest => alternate rest
  | .start :: rest => stops rest
  | .stop :: _ => false
where
  stops : List Token → Bool
    | [] => false
    | .char _ :: rest => stops rest
    | .stop :: rest => alternate rest
    | .start :: _ => false

/-- The characters outside regions. A region goes from a mark that begins it through the next mark
that ends one. -/
def outside : List Token → List Char
  | [] => []
  | .char c :: rest => c :: outside rest
  | .stop :: rest => outside rest
  | .start :: rest => behind rest
where
  behind : List Token → List Char
    | [] => []
    | .stop :: rest => outside rest
    | _ :: rest => behind rest

def solid (text : List Char) : List Char :=
  text.filter fun c => !Text.isBlank c

def IsFree (text : List Char) : Prop :=
  ¬ startText <:+: text ∧ ¬ stopText <:+: text

def isSeparator (c : Char) : Bool :=
  !startText.contains c && !stopText.contains c

/-! ### Texts without marks -/

theorem startText_ne_nil : startText ≠ [] := by decide

theorem stopText_ne_nil : stopText ≠ [] := by decide

theorem slash_mem_startText : '/' ∈ startText := by decide

theorem slash_mem_stopText : '/' ∈ stopText := by decide

theorem head?_startText : startText.head? = some '/' := by decide

theorem head?_stopText : stopText.head? = some '/' := by decide

theorem isFree_nil : IsFree [] :=
  ⟨fun mark => startText_ne_nil (List.infix_nil.mp mark),
    fun mark => stopText_ne_nil (List.infix_nil.mp mark)⟩

theorem isFree_cons {c : Char} {text : List Char} :
    IsFree (c :: text) ↔
      ¬ startText <+: c :: text ∧ ¬ stopText <+: c :: text ∧ IsFree text := by
  simp only [IsFree, List.infix_cons_iff, not_or]
  constructor
  · rintro ⟨⟨start, starts⟩, stop, stops⟩
    exact ⟨start, stop, starts, stops⟩
  · rintro ⟨start, stop, starts, stops⟩
    exact ⟨⟨start, starts⟩, stop, stops⟩

theorem IsFree.of_infix {part text : List Char} (free : IsFree text) (within : part <:+: text) :
    IsFree part :=
  ⟨fun mark => free.1 (mark.trans within), fun mark => free.2 (mark.trans within)⟩

theorem isFree_of_no_slash {text : List Char} (plain : '/' ∉ text) : IsFree text := by
  exact ⟨fun mark => plain (mark.subset slash_mem_startText),
    fun mark => plain (mark.subset slash_mem_stopText)⟩

theorem not_prefix_of_ne {mark : List Char} {c first : Char} {text : List Char}
    (begins : mark.head? = some first) (ne : c ≠ first) : ¬ mark <+: c :: text := by
  cases mark with
  | nil => cases begins
  | cons d rest =>
      cases begins
      rw [List.cons_prefix_cons]
      exact fun same => ne same.1.symm

theorem IsFree.prepend {front text : List Char} (free : IsFree text) (plain : '/' ∉ front) :
    IsFree (front ++ text) := by
  induction front with
  | nil => exact free
  | cons c rest ih =>
      have ne : c ≠ '/' := fun same => plain (same ▸ List.mem_cons_self)
      rw [List.cons_append, isFree_cons]
      exact ⟨not_prefix_of_ne head?_startText ne, not_prefix_of_ne head?_stopText ne,
        ih fun mem => plain (List.mem_cons_of_mem _ mem)⟩

/-- A prefix without the character ends before it. -/
theorem prefix_append_cons_iff {mark front text : List Char} {c : Char} (away : c ∉ mark) :
    mark <+: front ++ c :: text ↔ mark <+: front := by
  induction mark generalizing front with
  | nil => simp
  | cons d rest ih =>
      rw [List.mem_cons, not_or] at away
      cases front with
      | nil =>
          rw [List.nil_append, List.cons_prefix_cons]
          constructor
          · exact fun same => absurd same.1.symm away.1
          · intro none
            exact absurd (List.prefix_nil.mp none) (List.cons_ne_nil _ _)
      | cons e front =>
          rw [List.cons_append, List.cons_prefix_cons, List.cons_prefix_cons, ih away.2]

def EndsApart (text : List Char) : Prop :=
  ∃ front c, text = front ++ [c] ∧ isSeparator c = true

theorem EndsApart.prepend {text : List Char} (ends : EndsApart text) (front : List Char) :
    EndsApart (front ++ text) := by
  obtain ⟨before, c, rfl, apart⟩ := ends
  exact ⟨front ++ before, c, (List.append_assoc ..).symm, apart⟩

theorem isSeparator_iff {c : Char} : isSeparator c = true ↔ c ∉ startText ∧ c ∉ stopText := by
  simp [isSeparator]

theorem IsFree.append_separator {front text : List Char} {c : Char} (first : IsFree front)
    (second : IsFree text) (apart : isSeparator c = true) : IsFree (front ++ c :: text) := by
  obtain ⟨noStart, noStop⟩ := isSeparator_iff.mp apart
  induction front with
  | nil =>
      refine isFree_cons.mpr ⟨?_, ?_, second⟩
      · rw [← List.nil_append (c :: text), prefix_append_cons_iff noStart, List.prefix_nil]
        exact startText_ne_nil
      · rw [← List.nil_append (c :: text), prefix_append_cons_iff noStop, List.prefix_nil]
        exact stopText_ne_nil
  | cons d rest ih =>
      obtain ⟨start, stop, others⟩ := isFree_cons.mp first
      rw [List.cons_append, isFree_cons]
      refine ⟨?_, ?_, ih others⟩
      · rwa [← List.cons_append, prefix_append_cons_iff noStart]
      · rwa [← List.cons_append, prefix_append_cons_iff noStop]

theorem isFree_commentEnd : IsFree ['*', '/'] := by
  refine isFree_cons.mpr ⟨not_prefix_of_ne head?_startText (by decide),
    not_prefix_of_ne head?_stopText (by decide), isFree_cons.mpr ⟨?_, ?_, isFree_nil⟩⟩ <;>
  · intro mark
    exact absurd mark.length_le (by decide)

/-! ### Tokens -/

@[simp] theorem tokens_nil : tokens [] = [] := rfl

theorem tokensBehind_append {skipped text : List Char} :
    tokensBehind skipped.length (skipped ++ text) = tokens text := by
  induction skipped with
  | nil => rfl
  | cons c rest ih => exact ih

/-- A mark that begins a region is read as such. -/
theorem tokens_start (text : List Char) : tokens (startText ++ text) = .start :: tokens text := by
  have cut : startText = '/' :: startText.tail := by decide
  rw [cut, List.cons_append, tokens, tokensBehind, ← List.cons_append, ← cut, if_pos (by simp),
    ← List.length_tail, tokensBehind_append]

theorem tokens_stop (text : List Char) : tokens (stopText ++ text) = .stop :: tokens text := by
  have cut : stopText = '/' :: stopText.tail := by decide
  have other : ¬ startText.isPrefixOf (stopText ++ text) = true := by
    rw [List.isPrefixOf_iff_prefix]
    rintro ⟨rest, same⟩
    have begins := congrArg (List.take 4) same
    rw [List.take_append_of_le_length (by decide), List.take_append_of_le_length (by decide)]
      at begins
    exact absurd begins (by decide)
  rw [cut, List.cons_append, tokens, tokensBehind, ← List.cons_append, ← cut, if_neg other,
    if_pos (by simp), ← List.length_tail, tokensBehind_append]

theorem tokens_cons {c : Char} {text : List Char} (noStart : ¬ startText <+: c :: text)
    (noStop : ¬ stopText <+: c :: text) : tokens (c :: text) = .char c :: tokens text := by
  rw [tokens, tokensBehind, if_neg (by rwa [List.isPrefixOf_iff_prefix]),
    if_neg (by rwa [List.isPrefixOf_iff_prefix])]
  rfl

theorem tokens_of_isFree {text : List Char} (free : IsFree text) :
    tokens text = text.map .char := by
  induction text with
  | nil => rfl
  | cons c rest ih =>
      obtain ⟨start, stop, others⟩ := isFree_cons.mp free
      rw [tokens_cons start stop, ih others, List.map_cons]

theorem tokens_append_separator {front text : List Char} {c : Char}
    (apart : isSeparator c = true) :
    tokens (front ++ c :: text) = tokens front ++ .char c :: tokens text := by
  obtain ⟨noStart, noStop⟩ := isSeparator_iff.mp apart
  match front with
  | [] =>
      refine tokens_cons ?_ ?_
      · rw [← List.nil_append (c :: text), prefix_append_cons_iff noStart, List.prefix_nil]
        exact startText_ne_nil
      · rw [← List.nil_append (c :: text), prefix_append_cons_iff noStop, List.prefix_nil]
        exact stopText_ne_nil
  | d :: rest =>
      by_cases starts : startText <+: d :: rest
      · obtain ⟨more, same⟩ := starts
        have shorter : more.length < (d :: rest).length := by
          have := congrArg List.length same
          have := List.length_pos_iff.mpr startText_ne_nil
          rw [List.length_append] at *
          omega
        rw [← same, List.append_assoc, tokens_start, tokens_start,
          tokens_append_separator apart, List.cons_append]
      · by_cases stops : stopText <+: d :: rest
        · obtain ⟨more, same⟩ := stops
          have shorter : more.length < (d :: rest).length := by
            have := congrArg List.length same
            have := List.length_pos_iff.mpr stopText_ne_nil
            rw [List.length_append] at *
            omega
          rw [← same, List.append_assoc, tokens_stop, tokens_stop,
            tokens_append_separator apart, List.cons_append]
        · rw [tokens_cons starts stops, List.cons_append, tokens_cons ?_ ?_,
            tokens_append_separator apart, List.cons_append]
          · rwa [← List.cons_append, prefix_append_cons_iff noStart]
          · rwa [← List.cons_append, prefix_append_cons_iff noStop]
termination_by front.length
decreasing_by
  · exact shorter
  · exact shorter
  · exact Nat.lt_succ_self rest.length

theorem EndsApart.tokens_append {front : List Char} (ends : EndsApart front) (text : List Char) :
    tokens (front ++ text) = tokens front ++ tokens text := by
  obtain ⟨before, c, rfl, apart⟩ := ends
  rw [List.append_assoc, List.singleton_append, tokens_append_separator apart,
    tokens_append_separator apart, List.append_assoc]
  rfl

/-! ### Regions -/

/-- Tokens in which all regions are closed and hold no other mark, with the characters outside
them. -/
inductive Regions : List Token → List Char → Prop where
  | nil : Regions [] []
  | char (c : Char) {tokens : List Token} {text : List Char} (rest : Regions tokens text) :
      Regions (.char c :: tokens) (c :: text)
  | region (inside : List Char) {tokens : List Token} {text : List Char}
      (rest : Regions tokens text) :
      Regions (.start :: inside.map .char ++ .stop :: tokens) text

namespace Regions

theorem append {first second : List Token} {text following : List Char}
    (left : Regions first text) (right : Regions second following) :
    Regions (first ++ second) (text ++ following) := by
  induction left with
  | nil => exact right
  | char c _ ih => exact .char c ih
  | region inside _ ih =>
      rw [List.append_assoc, List.cons_append]
      exact .region inside ih

theorem of_chars (text : List Char) : Regions (text.map .char) text := by
  induction text with
  | nil => exact .nil
  | cons c rest ih => exact .char c ih

theorem of_isFree {text : List Char} (free : IsFree text) : Regions (tokens text) text := by
  rw [tokens_of_isFree free]
  exact of_chars text

theorem alternate_eq {tokens : List Token} {text : List Char} (regions : Regions tokens text) :
    alternate tokens = true := by
  induction regions with
  | nil => rfl
  | char c _ ih => exact ih
  | region inside _ ih =>
      rw [List.cons_append, alternate]
      induction inside with
      | nil => exact ih
      | cons c rest within => exact within

theorem outside_eq {tokens : List Token} {text : List Char} (regions : Regions tokens text) :
    outside tokens = text := by
  induction regions with
  | nil => rfl
  | char c _ ih => exact congrArg (c :: ·) ih
  | region inside _ ih =>
      rw [List.cons_append, outside]
      induction inside with
      | nil => exact ih
      | cons c rest within => exact within

end Regions

/-- In the text all regions are closed and hold no other mark. -/
def HasRegions (text : List Char) : Prop :=
  ∃ left, Regions (tokens text) left

theorem IsFree.hasRegions {text : List Char} (free : IsFree text) : HasRegions text :=
  ⟨text, .of_isFree free⟩

theorem HasRegions.append {first second : List Char} (left : HasRegions first)
    (ends : EndsApart first) (right : HasRegions second) : HasRegions (first ++ second) := by
  obtain ⟨text, regions⟩ := left
  obtain ⟨next, others⟩ := right
  exact ⟨text ++ next, ends.tokens_append second ▸ regions.append others⟩

theorem HasRegions.enclosed {inside text : List Char} (free : IsFree inside)
    (ends : EndsApart inside) (others : HasRegions text) :
    HasRegions (startText ++ inside ++ stopText ++ text) := by
  obtain ⟨left, regions⟩ := others
  refine ⟨left, ?_⟩
  rw [List.append_assoc, List.append_assoc, tokens_start, ends.tokens_append, tokens_stop,
    tokens_of_isFree free]
  exact .region inside regions

/-! ### Blanks -/

theorem solid_append (first second : List Char) :
    solid (first ++ second) = solid first ++ solid second :=
  List.filter_append ..

def solidTokens (tokens : List Token) : List Token :=
  tokens.filter fun
    | .char c => !Text.isBlank c
    | _ => true

@[simp] theorem solidTokens_append (first second : List Token) :
    solidTokens (first ++ second) = solidTokens first ++ solidTokens second :=
  List.filter_append ..

/-- Marks that take turns do so up to any place, but for a region that is open there. -/
theorem alternate_of_append (first second : List Token) :
    (alternate (first ++ second) = true →
        alternate first = true ∨ alternate (first ++ [.stop]) = true) ∧
      (alternate.stops (first ++ second) = true →
        alternate.stops first = true ∨ alternate.stops (first ++ [.stop]) = true) := by
  induction first with
  | nil => exact ⟨fun _ => .inl rfl, fun _ => .inr rfl⟩
  | cons token rest ih =>
      cases token with
      | start => exact ⟨ih.2, nofun⟩
      | stop => exact ⟨nofun, ih.1⟩
      | char c => exact ih

theorem alternate_solidTokens_and (tokens : List Token) :
    alternate (solidTokens tokens) = alternate tokens ∧
      alternate.stops (solidTokens tokens) = alternate.stops tokens := by
  induction tokens with
  | nil => exact ⟨rfl, rfl⟩
  | cons token rest ih =>
      cases token with
      | start => exact ⟨ih.2, rfl⟩
      | stop => exact ⟨rfl, ih.1⟩
      | char c =>
          cases blank : Text.isBlank c with
          | true => simpa [solidTokens, blank, alternate, alternate.stops] using ih
          | false => simpa [solidTokens, blank, alternate, alternate.stops] using ih

theorem alternate_solidTokens (tokens : List Token) :
    alternate (solidTokens tokens) = alternate tokens :=
  (alternate_solidTokens_and tokens).1

theorem outside_solidTokens_and (tokens : List Token) :
    outside (solidTokens tokens) = solid (outside tokens) ∧
      outside.behind (solidTokens tokens) = solid (outside.behind tokens) := by
  induction tokens with
  | nil => exact ⟨rfl, rfl⟩
  | cons token rest ih =>
      cases token with
      | start => exact ⟨ih.2, ih.2⟩
      | stop => exact ⟨ih.1, ih.1⟩
      | char c =>
          cases blank : Text.isBlank c with
          | true => simpa [solidTokens, blank, outside, outside.behind, solid] using ih
          | false => simpa [solidTokens, blank, outside, outside.behind, solid] using ih

theorem outside_solidTokens (tokens : List Token) :
    outside (solidTokens tokens) = solid (outside tokens) :=
  (outside_solidTokens_and tokens).1

theorem isSeparator_of_isBlank {c : Char} (blank : Text.isBlank c = true) :
    isSeparator c = true := by
  have start : startText.any Text.isBlank = false := by decide
  have stop : stopText.any Text.isBlank = false := by decide
  rw [isSeparator_iff]
  constructor
  · exact fun mem => List.any_eq_false.mp start c mem blank
  · exact fun mem => List.any_eq_false.mp stop c mem blank

theorem solidTokens_append_blanks {text blanks : List Char}
    (blank : ∀ c ∈ blanks, Text.isBlank c = true) :
    solidTokens (tokens (text ++ blanks)) = solidTokens (tokens text) := by
  induction blanks generalizing text with
  | nil => rw [List.append_nil]
  | cons c rest ih =>
      have first := blank c List.mem_cons_self
      have others := @ih [] fun d mem => blank d (List.mem_cons_of_mem _ mem)
      rw [tokens_append_separator (isSeparator_of_isBlank first), solidTokens_append]
      rw [List.nil_append] at others
      simp only [solidTokens] at others ⊢
      rw [List.filter_cons, others]
      simp [first]

theorem exists_dropBlanksEnd (text : List Char) :
    ∃ blanks, text = Text.dropBlanksEnd text ++ blanks ∧ ∀ c ∈ blanks, Text.isBlank c = true := by
  refine ⟨(text.reverse.takeWhile Text.isBlank).reverse, ?_, ?_⟩
  · rw [Text.dropBlanksEnd, ← List.reverse_append, List.takeWhile_append_dropWhile,
      List.reverse_reverse]
  · intro c mem
    exact List.all_eq_true.mp List.all_takeWhile c (List.mem_reverse.mp mem)

theorem exists_dropReturn (line : List Char) :
    ∃ blanks, line = Text.dropReturn line ++ blanks ∧ ∀ c ∈ blanks, Text.isBlank c = true := by
  unfold Text.dropReturn
  split
  · next ends =>
      obtain ⟨front, rfl⟩ := List.getLast?_eq_some_iff.mp ends
      refine ⟨['\r'], by simp, ?_⟩
      intro c mem
      cases List.mem_singleton.mp mem
      rfl
  · exact ⟨[], (List.append_nil line).symm, nofun⟩

theorem solidTokens_tidy (line : List Char) :
    solidTokens (tokens (Text.dropBlanksEnd line)) = solidTokens (tokens line) := by
  obtain ⟨blanks, same, blank⟩ := exists_dropBlanksEnd line
  rw [same, solidTokens_append_blanks blank, ← same]

theorem solidTokens_dropReturn (line : List Char) :
    solidTokens (tokens (Text.dropReturn line)) = solidTokens (tokens line) := by
  obtain ⟨blanks, same, blank⟩ := exists_dropReturn line
  rw [same, solidTokens_append_blanks blank, ← same]

theorem lineChars_append {line rest : List Char} (whole : '\n' ∉ line) :
    Text.lineChars (line ++ '\n' :: rest) = Text.dropReturn line :: Text.lineChars rest := by
  obtain ⟨first, others, pieces⟩ := List.exists_cons_of_ne_nil (List.splitOn_ne_nil '\n' rest)
  rw [Text.lineChars, List.splitOn_append_cons_self_of_not_mem whole, Text.lineChars, pieces,
    List.dropLast_cons_cons, List.getLast?_cons_cons, List.map_cons]
  cases (first :: others).getLast? with
  | none => rfl
  | some last => cases last <;> rfl

theorem lineChars_last {line : List Char} (whole : '\n' ∉ line) :
    Text.lineChars line = if line = [] then [] else [line] := by
  rw [Text.lineChars, List.splitOn_eq_singleton whole]
  cases line <;> rfl

/-- Tidying lines changes blanks only. -/
theorem solidTokens_tidied (text : List Char) :
    solidTokens (tokens ((Text.lineChars text).flatMap fun line =>
      Text.dropBlanksEnd line ++ ['\n'])) = solidTokens (tokens text) := by
  have apart : isSeparator '\n' = true := by decide
  by_cases more : '\n' ∈ text
  · obtain ⟨line, rest, rfl, whole⟩ := List.eq_append_cons_of_mem more
    have shorter : rest.length < (line ++ '\n' :: rest).length := by
      rw [List.length_append, List.length_cons]
      omega
    rw [lineChars_append whole, List.flatMap_cons, List.append_assoc, List.singleton_append,
      tokens_append_separator apart, tokens_append_separator apart, solidTokens_append,
      solidTokens_append, solidTokens_tidy, solidTokens_dropReturn]
    have others := solidTokens_tidied rest
    simp only [solidTokens] at others ⊢
    rw [List.filter_cons, List.filter_cons, others]
  · rw [lineChars_last more]
    split
    · next empty => simp [empty]
    · rw [List.flatMap_cons, List.flatMap_nil, List.append_nil, solidTokens_append_blanks,
        solidTokens_tidy]
      intro c mem
      cases List.mem_singleton.mp mem
      rfl
termination_by text.length

theorem toList_tidyLines (text : String) :
    (Text.tidyLines text).toList = (Text.lineChars text.toList).flatMap fun line =>
      Text.dropBlanksEnd line ++ ['\n'] := by
  simp [Text.tidyLines, List.flatMap, Function.comp_def]

end NodeWeave.Mark
