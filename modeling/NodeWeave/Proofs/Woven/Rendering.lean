import NodeWeave.Proofs.Grammar.Pieces
import NodeWeave.Proofs.Woven.Mark

/-!
The rendered text of pieces, piece by piece, and what a scan for braces makes of it. Main
statements: where no piece ends with a blank that a later one could leave at the end of a line, the
text is made of the trimmed texts of the pieces; and code stays code when its lines are trimmed.
-/

namespace NodeWeave

open Grammar.Format Text

/-! ### Tidied lines -/

namespace Text

theorem dropBlanksEnd_dropReturn (line : List Char) :
    dropBlanksEnd (dropReturn line) = dropBlanksEnd line := by
  unfold dropReturn
  split
  · next ends =>
      obtain ⟨front, rfl⟩ := List.getLast?_eq_some_iff.mp ends
      rw [List.dropLast_concat, dropBlanksEnd_append_blank front rfl]
  · rfl

/-- Where the last line is closed, tidying drops blanks only. -/
theorem flatMap_lineChars {chars : List Char} (closed : ∀ c ∈ chars.getLast?, c = '\n') :
    (lineChars chars).flatMap (fun line => dropBlanksEnd line ++ ['\n']) = trimLines chars := by
  by_cases more : '\n' ∈ chars
  · obtain ⟨line, rest, rfl, whole⟩ := List.eq_append_cons_of_mem more
    have closedRest : ∀ c ∈ rest.getLast?, c = '\n' := by
      intro c last
      refine closed c ?_
      rw [List.getLast?_append, List.getLast?_cons, last]
      rfl
    have shorter : rest.length < (line ++ '\n' :: rest).length := by
      rw [List.length_append, List.length_cons]
      omega
    rw [Mark.lineChars_append whole, List.flatMap_cons, flatMap_lineChars closedRest,
      trimLines_line whole, dropBlanksEnd_dropReturn, List.append_assoc, List.singleton_append]
  · cases chars with
    | nil => rfl
    | cons c rest =>
        have last := closed _ (List.getLast?_eq_some_getLast (List.cons_ne_nil c rest))
        exact absurd (last ▸ List.getLast_mem (List.cons_ne_nil c rest)) more
termination_by chars.length

end Text

/-! ### Pieces -/

namespace Piece

/-- The texts of the pieces, each without the blanks at the ends of its lines. -/
def written (pieces : List Piece) : List Char :=
  pieces.flatMap fun piece => trimLines piece.text.toList

/-- The end of the piece stays, whatever stands behind it. -/
def IsKept (piece : Piece) : Prop :=
  ∀ c ∈ piece.text.toList.getLast?, Text.IsKept c

variable {pieces more : List Piece} {piece : Piece} {level : Nat} {text : String}

@[simp] theorem written_nil : written [] = [] := rfl

@[simp] theorem written_cons :
    written (piece :: pieces) = trimLines piece.text.toList ++ written pieces :=
  List.flatMap_cons

@[simp] theorem written_append : written (pieces ++ more) = written pieces ++ written more :=
  List.flatMap_append

theorem trimLines_concat (kept : ∀ piece ∈ pieces, piece.IsKept) :
    trimLines (concat pieces).toList = written pieces := by
  rw [concat, String.toList_join]
  induction pieces with
  | nil => rfl
  | cons piece rest ih =>
      rw [List.forall_mem_cons] at kept
      rw [List.map_cons, List.flatMap_cons, trimLines_append (.inl kept.1), ih kept.2, written_cons]

theorem toList_lineText_eq (level : Nat) (text : String) :
    (lineText level text).toList =
      (if text.isEmpty then [] else List.replicate (2 * level) ' ') ++ text.toList ++ ['\n'] := by
  unfold lineText
  split
  · next empty => simp_all
  · simp [indentation]

theorem getLast?_lineText (level : Nat) (text : String) :
    (lineText level text).toList.getLast? = some '\n' := by
  rw [toList_lineText_eq, List.getLast?_append]
  rfl

theorem isKept_of_lineText (same : piece.text = lineText level text) : piece.IsKept := by
  rw [IsKept, same, getLast?_lineText]
  rintro _ ⟨⟩
  exact .inr rfl

theorem isKept_line : (line level text).IsKept := isKept_of_lineText rfl

theorem isKept_regionStart {label : Option String} : (regionStart level label).IsKept :=
  isKept_of_lineText rfl

theorem isKept_regionStop : (regionStop level).IsKept := isKept_of_lineText rfl

/-- The rendered text of pieces, the last of which closes its line. -/
theorem toList_render (kept : ∀ piece ∈ pieces, piece.IsKept)
    (closed : ∀ c ∈ (concat pieces).toList.getLast?, c = '\n') :
    (render pieces).toList = written pieces := by
  rw [render, Mark.toList_tidyLines, flatMap_lineChars closed, trimLines_concat kept]

/-- A line whose text neither begins nor ends with a blank. -/
theorem trimLines_lineText {c d : Char} (first : text.toList.head? = some c)
    (last : text.toList.getLast? = some d) (solidFirst : isBlank c = false)
    (solidLast : isBlank d = false) :
    trimLines (lineText level text).toList =
      List.replicate (2 * level) ' ' ++ trimLines text.toList ++ ['\n'] := by
  have filled : text.isEmpty = false := by
    cases empty : text.isEmpty with
    | false => rfl
    | true =>
        rw [String.isEmpty_iff.mp empty] at first
        cases first
  have closed : trimLines (text.toList ++ ['\n']) = trimLines text.toList ++ ['\n'] := by
    rw [trimLines_append (.inl ?_), trimLines_newline, trimLines_nil]
    rw [last]
    rintro _ ⟨⟩
    exact .inl solidLast
  have spaces : trimLines (List.replicate (2 * level) ' ') = List.replicate (2 * level) ' ' :=
    trimLines_of_not_mem fun mem => by cases List.eq_of_mem_replicate mem
  obtain ⟨rest, same⟩ := List.head?_eq_some_iff.mp first
  rw [toList_lineText_eq, filled, if_neg Bool.false_ne_true, List.append_assoc,
    trimLines_append (.inr ?_), spaces, closed, List.append_assoc]
  rw [same, List.cons_append, trimLines_cons_of_solid solidFirst]
  rintro ⟨⟩
  cases solidFirst

end Piece

/-! ### Code -/

/-- The text leaves a scan for braces where it was: outside of literals and comments, with as many
braces open. -/
def IsCode (text : List Char) : Prop :=
  ∀ depth, Bracket.brace.lexis.scan (.code, depth) text = some (.code, depth)

/-- A character that neither a literal, nor a comment, nor a brace begins or ends with. -/
def isInertChar (c : Char) : Bool :=
  c != '"' && c != '\'' && c != '/' && c != '\x7b' && c != '\x7d'

def Inert (text : String) : Prop :=
  ∀ c ∈ text.toList, isInertChar c = true

instance (text : String) : Decidable (Inert text) :=
  inferInstanceAs (Decidable (∀ c ∈ text.toList, isInertChar c = true))

namespace IsCode

variable {text more : List Char} {c : Char}

theorem nil : IsCode [] := fun _ => rfl

theorem append (first : IsCode text) (second : IsCode more) : IsCode (text ++ more) := by
  intro depth
  rw [Lexis.scan_append_of_eq (first depth), second depth]

theorem trimLines (code : IsCode text) : IsCode (trimLines text) :=
  fun depth => Lexis.scan_trimLines (code depth)

theorem closes (code : IsCode text) : Bracket.brace.lexis.Closes 0 text :=
  ⟨.code, code 0, rfl⟩

theorem closes_append (code : IsCode text) (closes : Bracket.brace.lexis.Closes 0 more) :
    Bracket.brace.lexis.Closes 0 (text ++ more) := by
  obtain ⟨place, scanned, rested⟩ := closes
  exact ⟨place, by rw [Lexis.scan_append_of_eq (code 0), scanned], rested⟩

theorem isPlain_of_isInertChar (inert : isInertChar c = true) : Bracket.brace.lexis.IsPlain c := by
  simp only [isInertChar, Bool.and_eq_true, bne_iff_ne] at inert
  obtain ⟨⟨⟨⟨double, single⟩, slash⟩, opening⟩, closing⟩ := inert
  refine ⟨?_, fun _ => slash, ?_, ?_, rfl⟩
  · rintro (_ | _) _ rfl
    · exact double rfl
    · exact single rfl
  · exact fun same => opening (Option.some.inj same).symm
  · exact fun same => closing (Option.some.inj same).symm

theorem of_forall (inert : ∀ c ∈ text, isInertChar c = true) : IsCode text :=
  fun _ => Lexis.scan_of_isPlain fun c mem => isPlain_of_isInertChar (inert c mem)

/-- A text that closes all it opens, in front of a character that is no part of a comment. -/
theorem of_closes (closes : Bracket.brace.lexis.Closes 0 text) (inert : isInertChar c = true)
    (noStar : c ≠ '*') : IsCode (text ++ [c]) := by
  have plain := isPlain_of_isInertChar inert
  intro depth
  obtain ⟨place, scanned, rested⟩ : ∃ place,
      Bracket.brace.lexis.scan (.code, depth) text = some (place, depth) ∧
        Bracket.brace.lexis.rests place = true := closes.scan
  rw [Lexis.scan_append_of_eq scanned, Lexis.scan_cons]
  have admitted : Bracket.brace.lexis.admits '/' = true := rfl
  cases place with
  | code =>
      rw [Lexis.step, plain.stepCode]
      rfl
  | slash =>
      rw [Lexis.step, if_neg (plain.noSlash rfl), if_neg noStar, if_pos admitted, plain.stepCode]
      rfl
  | literal | escape | line | block | star => cases rested

theorem cons_append (inert : isInertChar c = true) (code : IsCode text) : IsCode (c :: text) := by
  have single : IsCode [c] := of_forall (by simpa using inert)
  exact single.append code

end IsCode

namespace Inert

variable {first second : String}

theorem isCode (inert : Inert first) : IsCode first.toList :=
  .of_forall inert

theorem append (left : Inert first) (right : Inert second) : Inert (first ++ second) := by
  rw [Inert, String.toList_append, List.forall_mem_append]
  exact ⟨left, right⟩

end Inert

/-- A scan stays outside of literals and comments, and where so many braces were open, so many are
open behind the text. -/
def Shifts (text : List Char) (before behind : Nat) : Prop :=
  ∀ depth, Bracket.brace.lexis.scan (.code, depth + before) text = some (.code, depth + behind)

namespace Shifts

variable {text more : List Char} {a b c : Nat}

theorem of_isCode (code : IsCode text) : Shifts text a a :=
  fun depth => code (depth + a)

theorem isCode (shifts : Shifts text 0 0) : IsCode text :=
  fun depth => shifts depth

theorem append (first : Shifts text a b) (second : Shifts more b c) :
    Shifts (text ++ more) a c := by
  intro depth
  rw [Lexis.scan_append_of_eq (first depth), second depth]

theorem trimLines (shifts : Shifts text a b) : Shifts (trimLines text) a b :=
  fun depth => Lexis.scan_trimLines (shifts depth)

theorem opening : Shifts ['\x7b'] 0 1 := fun _ => rfl

theorem closing : Shifts ['\x7d'] 1 0 := fun _ => rfl

theorem lineText {level : Nat} {text : String} (shifts : Shifts text.toList a b) :
    Shifts (Piece.lineText level text).toList a b := by
  have spaces : IsCode (if text.isEmpty then [] else List.replicate (2 * level) ' ') := by
    refine .of_forall fun c mem => ?_
    split at mem
    · cases mem
    · rw [List.eq_of_mem_replicate mem]
      rfl
  rw [Piece.toList_lineText_eq]
  exact ((of_isCode spaces).append shifts).append (of_isCode (.of_forall (by decide)))

end Shifts

/-! ### Pieces of code -/

namespace Piece

/-- As they are written, the pieces shift the number of open braces. -/
abbrev Shift (pieces : List Piece) (before behind : Nat) : Prop :=
  Shifts (written pieces) before behind

variable {pieces more : List Piece} {level : Nat} {text : String} {a b c : Nat}

theorem Shift.append (first : Shift pieces a b) (second : Shift more b c) :
    Shift (pieces ++ more) a c := by
  rw [Shift, written_append]
  exact Shifts.append first second

theorem shift_line (level : Nat) (shifts : Shifts text.toList a b) :
    Shift [line level text] a b := by
  rw [Shift, written_cons, written_nil, List.append_nil]
  exact shifts.lineText.trimLines

theorem Shift.cons {piece : Piece} (first : Shift [piece] a b) (second : Shift pieces b c) :
    Shift (piece :: pieces) a c :=
  first.append second

end Piece

end NodeWeave
