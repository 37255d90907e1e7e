import NodeWeave.Proofs.Woven.Mark

/-! Pieces of output whose generated regions are closed, and what they leave outside regions. -/

namespace NodeWeave.Piece

open Mark

/-- No mark begins in the piece and ends behind it. -/
def IsClosed (piece : Piece) : Prop :=
  EndsApart piece.text.toList

/-- All regions in the pieces are closed, and this is left outside of them, up to blanks. -/
def Leaves (pieces : List Piece) (kept : List Char) : Prop :=
  (∀ piece ∈ pieces, piece.IsClosed) ∧
    ∃ text, Regions (pieces.flatMap fun piece => tokens piece.text.toList) text ∧
      solid text = kept

/-- A line or a text as it is, without marks. -/
def IsPlain (piece : Piece) : Prop :=
  piece.IsClosed ∧ IsFree piece.text.toList

theorem leaves_nil : Leaves [] [] :=
  ⟨nofun, [], .nil, rfl⟩

theorem solid_spaces {blanks : List Char} (blank : ∀ c ∈ blanks, c = ' ') : solid blanks = [] := by
  apply List.filter_eq_nil_iff.mpr
  intro c mem
  rw [blank c mem]
  decide

theorem Leaves.append {first second : List Piece} {kept following : List Char}
    (left : Leaves first kept) (right : Leaves second following) :
    Leaves (first ++ second) (kept ++ following) := by
  obtain ⟨closed, text, regions, rfl⟩ := left
  obtain ⟨closedNext, next, regionsNext, rfl⟩ := right
  refine ⟨fun piece mem => ?_, text ++ next, ?_, solid_append text next⟩
  · rcases List.mem_append.mp mem with mem | mem
    · exact closed piece mem
    · exact closedNext piece mem
  · rw [List.flatMap_append]
    exact regions.append regionsNext

theorem leaves_plain {piece : Piece} (plain : piece.IsPlain) :
    Leaves [piece] (solid piece.text.toList) := by
  refine ⟨fun other mem => ?_, piece.text.toList, ?_, rfl⟩
  · rw [List.mem_singleton.mp mem]
    exact plain.1
  · rw [List.flatMap_cons, List.flatMap_nil, List.append_nil]
    exact .of_isFree plain.2

theorem exists_leaves_of_isPlain {pieces : List Piece} (plain : ∀ piece ∈ pieces, piece.IsPlain) :
    ∃ kept, Leaves pieces kept := by
  induction pieces with
  | nil => exact ⟨[], leaves_nil⟩
  | cons piece rest ih =>
      obtain ⟨kept, leaves⟩ := ih fun other mem => plain other (List.mem_cons_of_mem _ mem)
      exact ⟨_, (leaves_plain (plain piece List.mem_cons_self)).append leaves⟩

theorem exists_leaves_raw {text : String} (regions : HasRegions text.toList) :
    ∃ kept, Leaves [.raw (text ++ "\n")] kept := by
  obtain ⟨left, closed⟩ := regions
  have ended : (text ++ "\n").toList = text.toList ++ '\n' :: [] := by simp
  have feed : isSeparator '\n' = true := by decide
  refine ⟨solid (left ++ ['\n']), fun piece mem => ?_, left ++ ['\n'], ?_, rfl⟩
  · rw [List.mem_singleton.mp mem]
    exact ⟨text.toList, '\n', ended, feed⟩
  · rw [List.flatMap_cons, List.flatMap_nil, List.append_nil, Piece.text, ended,
      tokens_append_separator feed]
    exact closed.append (.char '\n' .nil)

/-! ### Lines -/

theorem toList_lineText (level : Nat) (text : String) :
    ∃ blanks, (lineText level text).toList = blanks ++ text.toList ++ ['\n'] ∧
      (∀ c ∈ blanks, c = ' ') := by
  unfold lineText
  split
  · next empty => exact ⟨[], by simp_all, nofun⟩
  · refine ⟨(indentation level).toList, by simp, ?_⟩
    simp [indentation, List.mem_replicate]

theorem isClosed_lineText {piece : Piece} {level : Nat} {text : String}
    (same : piece.text = lineText level text) : piece.IsClosed := by
  obtain ⟨blanks, listed, _⟩ := toList_lineText level text
  exact ⟨blanks ++ text.toList, '\n', by rw [same, listed], by decide⟩

theorem isFree_lineText {level : Nat} {text : String} (free : IsFree text.toList) :
    IsFree (lineText level text).toList := by
  obtain ⟨blanks, listed, blank⟩ := toList_lineText level text
  rw [listed, List.append_assoc]
  refine (free.append_separator isFree_nil (by decide)).prepend fun mem => ?_
  cases blank _ mem

theorem solid_lineText (level : Nat) (text : String) :
    solid (lineText level text).toList = solid text.toList := by
  obtain ⟨blanks, listed, blank⟩ := toList_lineText level text
  rw [listed, solid_append, solid_append, solid_spaces blank, List.nil_append]
  exact List.append_nil _

theorem isPlain_line (level : Nat) {text : String} (free : IsFree text.toList) :
    (line level text).IsPlain :=
  ⟨isClosed_lineText rfl, isFree_lineText free⟩

theorem leaves_line (level : Nat) {text : String} (free : IsFree text.toList) :
    Leaves [line level text] (solid text.toList) := by
  rw [← solid_lineText level text]
  exact leaves_plain (isPlain_line level free)

/-! ### Generated regions -/

theorem tokens_spaces_append {blanks text : List Char} (blank : ∀ c ∈ blanks, c = ' ') :
    tokens (blanks ++ text) = blanks.map .char ++ tokens text := by
  induction blanks with
  | nil => rfl
  | cons c rest ih =>
      cases blank c List.mem_cons_self
      have first := @tokens_append_separator [] (rest ++ text) ' ' (by decide)
      rw [List.nil_append, tokens_nil, List.nil_append] at first
      rw [List.cons_append, first, ih fun d mem => blank d (List.mem_cons_of_mem _ mem),
        List.map_cons, List.cons_append]

theorem exists_startMark (label : Option String) (free : ∀ text ∈ label, IsFree text.toList) :
    ∃ rest, (startMark label).toList = startText ++ rest ∧ IsFree rest := by
  cases label with
  | none => exact ⟨['*', '/'], by decide, isFree_commentEnd⟩
  | some label =>
      refine ⟨' ' :: label.toList ++ ' ' :: ['*', '/'], ?_, ?_⟩
      · have before : "/*@bgen(jjtree) ".toList = startText ++ [' '] := by decide
        have behind : " */".toList = [' ', '*', '/'] := by decide
        have whole : startMark (some label) = "/*@bgen(jjtree) " ++ label ++ " */" := rfl
        simp only [whole, String.toList_append, before, behind, List.append_assoc,
          List.cons_append, List.nil_append]
      · have space : isSeparator ' ' = true := by decide
        exact isFree_nil.append_separator
          ((free label rfl).append_separator isFree_commentEnd space) space

theorem leaves_region {level last : Nat} {label : Option String} {lines : List Piece}
    (labelFree : ∀ text ∈ label, IsFree text.toList) (plain : ∀ piece ∈ lines, piece.IsPlain) :
    Leaves (regionStart level label :: lines ++ [regionStop last]) [] := by
  obtain ⟨rest, begins, free⟩ := exists_startMark label labelFree
  obtain ⟨front, startLine, blank⟩ := toList_lineText level (startMark label)
  obtain ⟨back, stopLine, blankBack⟩ := toList_lineText last stopMark
  constructor
  · intro piece mem
    simp only [List.cons_append, List.mem_cons, List.mem_append, List.not_mem_nil, or_false] at mem
    rcases mem with rfl | mem | rfl
    · exact isClosed_lineText rfl
    · exact (plain piece mem).1
    · exact isClosed_lineText rfl
  · have inner : (lines.flatMap fun piece => tokens piece.text.toList) =
        (lines.flatMap fun piece => piece.text.toList).map .char := by
      rw [List.map_flatMap, List.flatMap, List.flatMap]
      exact congrArg List.flatten
        (List.map_congr_left fun piece mem => tokens_of_isFree (plain piece mem).2)
    have opening : tokens (regionStart level label).text.toList =
        front.map .char ++ .start :: (rest ++ ['\n']).map .char := by
      rw [Piece.text, startLine, begins, List.append_assoc, List.append_assoc,
        tokens_spaces_append blank, tokens_start,
        tokens_of_isFree (free.append_separator isFree_nil (by decide))]
    have closing : tokens (regionStop last).text.toList =
        back.map .char ++ .stop :: [.char '\n'] := by
      have newline : tokens ['\n'] = [.char '\n'] := by decide
      rw [Piece.text, stopLine, List.append_assoc, tokens_spaces_append blankBack, ← newline]
      exact congrArg _ (tokens_stop ['\n'])
    refine ⟨front ++ ['\n'], ?_, ?_⟩
    · rw [List.cons_append, List.flatMap_cons, List.flatMap_append, List.flatMap_cons,
        List.flatMap_nil, List.append_nil, opening, closing, inner]
      have region := Regions.region (rest ++ ['\n'] ++
        (lines.flatMap fun piece => piece.text.toList) ++ back) (.char '\n' .nil)
      simpa using (Regions.of_chars front).append region
    · rw [solid_append, solid_spaces blank]
      rfl

/-! ### Rendering -/

theorem tokens_concat {pieces : List Piece} (closed : ∀ piece ∈ pieces, piece.IsClosed) :
    tokens (concat pieces).toList = pieces.flatMap fun piece => tokens piece.text.toList := by
  rw [concat, String.toList_join]
  induction pieces with
  | nil => rfl
  | cons piece rest ih =>
      rw [List.map_cons, List.flatMap_cons, List.flatMap_cons,
        (closed piece List.mem_cons_self).tokens_append,
        ih fun other mem => closed other (List.mem_cons_of_mem _ mem)]

theorem alternate_render (pieces : List Piece) :
    alternate (tokens (Piece.render pieces).toList) =
      alternate (tokens (concat pieces).toList) := by
  rw [← alternate_solidTokens, Piece.render, toList_tidyLines, solidTokens_tidied,
    alternate_solidTokens]

theorem outside_render (pieces : List Piece) :
    solid (Mark.outside (tokens (Piece.render pieces).toList)) =
      solid (Mark.outside (tokens (concat pieces).toList)) := by
  rw [← outside_solidTokens, Piece.render, toList_tidyLines, solidTokens_tidied,
    outside_solidTokens]

/-- In the rendered text marks take turns, and outside regions is left what the pieces leave. -/
theorem Leaves.render {pieces : List Piece} {kept : List Char} (leaves : Leaves pieces kept) :
    alternate (tokens (Piece.render pieces).toList) = true ∧
      solid (Mark.outside (tokens (Piece.render pieces).toList)) = kept := by
  obtain ⟨closed, text, regions, rfl⟩ := leaves
  rw [← tokens_concat closed] at regions
  rw [alternate_render, outside_render]
  exact ⟨regions.alternate_eq, congrArg solid regions.outside_eq⟩

end NodeWeave.Piece
