import NodeWeave.Proofs.Grammar.UnitTexts
import NodeWeave.Proofs.Woven.Bracing

/-!
The lines of woven units, as they are read again: marks of generated regions are comments, generated
blocks are actions, and a scope is a guarded unit between them.
-/

namespace NodeWeave

open Grammar Grammar.Format Text

/-! ### Marks -/

/-- The mark of a region goes up to its own end. -/
def IsOpenLabel (label : String) : Prop :=
  ¬ ['*', '/'] <:+: label.toList

instance (label : String) : Decidable (IsOpenLabel label) :=
  inferInstanceAs (Decidable (¬ _))

theorem infix_append_cons_iff {mark front text : List Char} {c : Char} (filled : mark ≠ [])
    (away : c ∉ mark) :
    mark <:+: front ++ c :: text ↔ mark <:+: front ∨ mark <:+: text := by
  induction front with
  | nil =>
      rw [List.nil_append, List.infix_cons_iff, List.infix_nil]
      refine or_congr_left (iff_of_false ?_ filled)
      have : mark <+: [] ++ c :: text ↔ mark <+: [] := Mark.prefix_append_cons_iff away
      rw [List.nil_append, List.prefix_nil] at this
      exact this.not.mpr filled
  | cons d front ih =>
      rw [List.cons_append, List.infix_cons_iff, List.infix_cons_iff, ih, ← List.cons_append,
        Mark.prefix_append_cons_iff away, or_assoc]

theorem isGap_spaces (n : Nat) : IsGap (List.replicate n ' ') := by
  refine isGap_blanks fun c mem => ?_
  rw [List.eq_of_mem_replicate mem]
  rfl

theorem isGap_newline : IsGap ['\n'] :=
  isGap_blanks (by decide)

theorem isGap_comment {inner : List Char} (unended : ¬ ['*', '/'] <:+: inner) :
    IsGap ('/' :: '*' :: inner ++ ['*', '/']) :=
  fun _ _ skipped => .block unended skipped

namespace Piece

variable {pieces : List Piece} {level : Nat} {text : String}

/-- The text is a comment that goes up to its first end mark. -/
def IsComment (text : List Char) : Prop :=
  ∃ inner, text = '/' :: '*' :: inner ++ ['*', '/'] ∧ ¬ ['*', '/'] <:+: inner

theorem isComment_stopMark : IsComment stopMark.toList :=
  ⟨"@egen".toList, by decide, by decide⟩

theorem isComment_startMark {label : Option String} (openLabel : ∀ text ∈ label, IsOpenLabel text) :
    IsComment (startMark label).toList := by
  cases label with
  | none => exact ⟨"@bgen(jjtree)".toList, by decide, by decide⟩
  | some label =>
      have same : startMark (some label) = "/*@bgen(jjtree) " ++ label ++ " */" := rfl
      refine ⟨"@bgen(jjtree)".toList ++ ' ' :: (label.toList ++ [' ']), by rw [same]; simp, ?_⟩
      have space : ' ' ∉ ['*', '/'] := by decide
      rw [infix_append_cons_iff (List.cons_ne_nil _ _) space,
        infix_append_cons_iff (List.cons_ne_nil _ _) space]
      rintro (front | inside | behind)
      · exact absurd front (by decide)
      · exact openLabel label rfl inside
      · exact absurd behind (by decide)

theorem isGap_lineText (comment : IsComment text.toList) :
    IsGap (trimLines (lineText level text).toList) := by
  obtain ⟨inner, whole, unended⟩ := comment
  have last : text.toList.getLast? = some '/' := by
    rw [whole, List.getLast?_append]
    rfl
  rw [trimLines_lineText (by rw [whole]; rfl) last rfl rfl, whole]
  refine ((isGap_spaces _).append ?_).append isGap_newline
  rw [List.cons_append, List.cons_append, trimLines_cons_of_solid rfl, trimLines_cons_of_solid rfl,
    trimLines_append_solid rfl]
  exact isGap_comment fun ended => unended (infix_of_trimLines rfl ended)

theorem isGap_regionStop (level : Nat) : IsGap (written [regionStop level]) := by
  rw [written_cons, written_nil, List.append_nil]
  exact isGap_lineText isComment_stopMark

theorem isGap_regionStart (level : Nat) (label : Option String)
    (openLabel : ∀ text ∈ label, IsOpenLabel text) : IsGap (written [regionStart level label]) := by
  rw [written_cons, written_nil, List.append_nil]
  exact isGap_lineText (isComment_startMark openLabel)

theorem shifts_lineText (comment : IsComment text.toList) :
    Shifts (trimLines (lineText level text).toList) 0 0 := by
  obtain ⟨inner, whole, unended⟩ := comment
  have code : IsCode text.toList := by
    intro depth
    rw [whole]
    exact Lexis.scan_blockComment rfl unended
  exact (Shifts.of_isCode code).lineText.trimLines

theorem shift_regionStop (level : Nat) : Shift [regionStop level] 0 0 := by
  rw [Shift, written_cons, written_nil, List.append_nil]
  exact shifts_lineText isComment_stopMark

theorem shift_regionStart (level : Nat) (label : Option String)
    (openLabel : ∀ text ∈ label, IsOpenLabel text) : Shift [regionStart level label] 0 0 := by
  rw [Shift, written_cons, written_nil, List.append_nil]
  exact shifts_lineText (isComment_startMark openLabel)

/-! ### Lines of units -/

/-- A line whose text neither begins nor ends with a blank. -/
theorem written_line {c d : Char} (first : text.toList.head? = some c)
    (last : text.toList.getLast? = some d) (solidFirst : isBlank c = false)
    (solidLast : isBlank d = false) : written [line level text] =
      List.replicate (2 * level) ' ' ++ trimLines text.toList ++ ['\n'] := by
  rw [written_cons, written_nil, List.append_nil]
  exact trimLines_lineText first last solidFirst solidLast

theorem written_sign {c : Char} (sign : text.toList = [c]) (solid : isBlank c = false) :
    written [line level text] = List.replicate (2 * level) ' ' ++ [c] ++ ['\n'] := by
  have whole : trimLines [c] = [c] := trimLines_cons_of_solid solid
  rw [written_line (by rw [sign]; rfl) (by rw [sign]; rfl) solid solid, sign, whole]

theorem units_line {c d : Char} (first : text.toList.head? = some c)
    (last : text.toList.getLast? = some d) (solidFirst : isBlank c = false)
    (solidLast : isBlank d = false) (is : IsUnitText (trimLines text.toList)) :
    Units (written [line level text]) := by
  rw [written_line first last solidFirst solidLast]
  exact ((isGap_spaces _).units.append is.units).append isGap_newline.units

/-- What stands between the lines of two brackets, from the end of the one to the other one. -/
def inside (level : Nat) (text : List Char) : List Char :=
  '\n' :: text ++ List.replicate (2 * level) ' '

theorem choices_inside {text : List Char} (choices : Choices text) : Choices (inside level text) :=
  (isGap_newline.choices choices).append_gap (isGap_spaces _)

theorem isCode_inside {text : List Char} (code : IsCode text) : IsCode (inside level text) := by
  refine (IsCode.cons_append rfl code).append (.of_forall fun c mem => ?_)
  rw [List.eq_of_mem_replicate mem]
  rfl

theorem units_block (level : Nat) (code : Piece.Shift pieces 0 0) :
    Units (written (block level "" pieces)) := by
  have whole : written (block level "" pieces) = List.replicate (2 * level) ' ' ++
      ('\x7b' :: inside level (written pieces) ++ ['\x7d']) ++ ['\n'] := by
    have same : block level "" pieces = [line level "\x7b"] ++ pieces ++ [line level "\x7d"] := rfl
    rw [same, written_append, written_append, written_sign (c := '\x7b') rfl rfl,
      written_sign (c := '\x7d') rfl rfl]
    simp [inside]
  rw [whole]
  exact ((isGap_spaces _).units.append
    (isUnitText_action (isCode_inside code.isCode).closes).units).append isGap_newline.units

theorem units_group (choices : Choices (written pieces)) (occurrence : Option Occurrence) :
    Units (written (line level "(" :: pieces ++
      [line level (")" ++ (occurrence.map Occurrence.symbol).getD "")])) := by
  have closing : ∃ d, (")" ++ (occurrence.map Occurrence.symbol).getD "").toList.getLast? = some d ∧
      isBlank d = false ∧ '\n' ∉ (")" ++ (occurrence.map Occurrence.symbol).getD "").toList := by
    rcases occurrence with _ | _ | _ | _
    · exact ⟨')', rfl, rfl, by decide⟩
    · exact ⟨'?', rfl, rfl, by decide⟩
    · exact ⟨'*', rfl, rfl, by decide⟩
    · exact ⟨'+', rfl, rfl, by decide⟩
  obtain ⟨d, last, solid, oneLine⟩ := closing
  have front : (")" ++ (occurrence.map Occurrence.symbol).getD "").toList.head? = some ')' := by
    rw [String.toList_append]
    rfl
  have whole : written (line level "(" :: pieces ++
      [line level (")" ++ (occurrence.map Occurrence.symbol).getD "")]) =
        List.replicate (2 * level) ' ' ++ ('(' :: inside level (written pieces) ++
          ')' :: ((occurrence.map Occurrence.symbol).getD "").toList) ++ ['\n'] := by
    rw [← List.singleton_append, written_append, written_append,
      written_sign (c := '(') rfl rfl, written_line front last rfl solid,
      trimLines_of_not_mem oneLine]
    simp [inside]
  rw [whole]
  exact ((isGap_spaces _).units.append
    (isUnitText_group (choices_inside choices) occurrence).units).append isGap_newline.units

theorem units_optional (choices : Choices (written pieces)) :
    Units (written (line level "[" :: pieces ++ [line level "]"])) := by
  have whole : written (line level "[" :: pieces ++ [line level "]"]) =
      List.replicate (2 * level) ' ' ++
        ('[' :: inside level (written pieces) ++ [']']) ++ ['\n'] := by
    rw [← List.singleton_append, written_append, written_append,
      written_sign (c := '[') rfl rfl, written_sign (c := ']') rfl rfl]
    simp [inside]
  rw [whole]
  exact ((isGap_spaces _).units.append
    (isUnitText_optional (choices_inside choices)).units).append isGap_newline.units

theorem units_guarded {clauses : String} {d : Char} (choices : Choices (written pieces))
    (last : ("\x7d" ++ clauses).toList.getLast? = some d) (solid : isBlank d = false)
    (are : IsClausesText (trimLines clauses.toList)) :
    Units (written (line level "try \x7b" :: pieces ++ [line level ("\x7d" ++ clauses)])) := by
  have front : ("\x7d" ++ clauses).toList.head? = some '\x7d' := by
    rw [String.toList_append]
    rfl
  have whole : written (line level "try \x7b" :: pieces ++ [line level ("\x7d" ++ clauses)]) =
      List.replicate (2 * level) ' ' ++ ("try \x7b".toList ++ inside level (written pieces) ++
        '\x7d' :: trimLines clauses.toList) ++ ['\n'] := by
    have oneLine : trimLines "try \x7b".toList = "try \x7b".toList :=
      trimLines_of_not_mem (by decide)
    have brace : trimLines ("\x7d" ++ clauses).toList = '\x7d' :: trimLines clauses.toList := by
      rw [String.toList_append]
      exact trimLines_cons_of_solid rfl
    rw [← List.singleton_append, written_append, written_append,
      written_line (c := 't') (d := '\x7b') rfl (by decide) rfl rfl,
      written_line front last rfl solid, oneLine, brace]
    simp [inside]
  rw [whole]
  exact ((isGap_spaces _).units.append
    (isUnitText_guarded (choices_inside choices) are).units).append isGap_newline.units

end Piece

/-! ### Scopes -/

theorem closes_parameter {exception : String} (dotted : Dotted exception.toList) :
    Bracket.paren.lexis.Closes 0 ("Throwable " ++ exception).toList := by
  have plain : ∀ c ∈ ("Throwable " ++ exception).toList, Bracket.paren.lexis.IsPlain c := by
    have plainChar (c : Char) (other : c ∉ ['"', '\'', '/', '(', ')']) :
        Bracket.paren.lexis.IsPlain c := by
      simp only [List.mem_cons, List.not_mem_nil, or_false, not_or] at other
      obtain ⟨double, single, slash, opening, closing⟩ := other
      refine ⟨?_, fun _ => slash, ?_, ?_, rfl⟩
      · rintro (_ | _) _ rfl
        · exact double rfl
        · exact single rfl
      · exact fun same => opening (Option.some.inj same).symm
      · exact fun same => closing (Option.some.inj same).symm
    rw [String.toList_append]
    refine List.forall_mem_append.mpr ⟨fun c mem => plainChar c ?_, fun c mem => plainChar c ?_⟩
    · revert c
      decide
    · exact (dotted c mem).elim (P := fun c => c ∉ ['"', '\'', '/', '(', ')']) (by decide)
  exact ⟨.code, Lexis.scan_of_isPlain plain, rfl⟩

namespace Guard

variable {guard : Guard} {pieces : List Piece}

theorem written_handler (level : Nat) {exception : String} (dotted : Dotted exception.toList) :
    Piece.written [Piece.line level ("\x7d catch (Throwable " ++ exception ++ ") \x7b")] =
      List.replicate (2 * level) ' ' ++ '\x7d' :: (" catch (".toList ++
        ("Throwable " ++ exception).toList ++ ") \x7b".toList) ++ ['\n'] := by
  have oneLine : '\n' ∉ ("\x7d catch (Throwable " ++ exception ++ ") \x7b").toList := by
    simp only [String.toList_append, List.mem_append, not_or]
    refine ⟨⟨by decide, fun mem => ?_⟩, by decide⟩
    exact absurd (dotted _ mem) (by decide)
  have first : ("\x7d catch (Throwable " ++ exception ++ ") \x7b").toList.head? = some '\x7d' := by
    simp
  have last : ("\x7d catch (Throwable " ++ exception ++ ") \x7b").toList.getLast? =
      some '\x7b' := by
    rw [String.toList_append, List.getLast?_append]
    rfl
  rw [Piece.written_line first last rfl rfl, trimLines_of_not_mem oneLine]
  simp

theorem written_around (level : Nat) (dotted : Dotted guard.exception.toList) :
    Piece.written (guard.around level pieces) =
    List.replicate (2 * level) ' ' ++ ("try \x7b".toList ++
      Piece.inside level (Piece.written [Piece.regionStop level] ++ Piece.written pieces ++
        Piece.written [Piece.regionStart level none]) ++ '\x7d' ::
      (" catch (".toList ++ ("Throwable " ++ guard.exception).toList ++ ") \x7b".toList ++
        Piece.inside level (Piece.written (Statement.piecesAll (level + 1) guard.handler)) ++
        '\x7d' ::
      (" finally \x7b".toList ++
        Piece.inside level (Piece.written (Statement.piecesAll (level + 1) guard.cleanup)) ++
          ['\x7d']))) ++ ['\n'] := by
  have opening : Piece.written [Piece.line level "try \x7b"] =
      List.replicate (2 * level) ' ' ++ "try \x7b".toList ++ ['\n'] := by
    rw [Piece.written_line (c := 't') (d := '\x7b') rfl (by decide) rfl rfl,
      trimLines_of_not_mem (by decide)]
  have cleaned : Piece.written [Piece.line level "\x7d finally \x7b"] =
      List.replicate (2 * level) ' ' ++ '\x7d' :: " finally \x7b".toList ++ ['\n'] := by
    rw [Piece.written_line (c := '\x7d') (d := '\x7b') rfl (by decide) rfl rfl,
      trimLines_of_not_mem (by decide)]
    simp
  have closing : Piece.written [Piece.line level "\x7d"] =
      List.replicate (2 * level) ' ' ++ ['\x7d'] ++ ['\n'] := Piece.written_sign rfl rfl
  have listed : guard.around level pieces =
      [Piece.line level "try \x7b"] ++ [Piece.regionStop level] ++ pieces ++
      [Piece.regionStart level none] ++
        [Piece.line level ("\x7d catch (Throwable " ++ guard.exception ++ ") \x7b")] ++
      Statement.piecesAll (level + 1) guard.handler ++ [Piece.line level "\x7d finally \x7b"] ++
      Statement.piecesAll (level + 1) guard.cleanup ++ [Piece.line level "\x7d"] := by
    simp [around]
  rw [listed]
  simp only [Piece.written_append, opening, written_handler level dotted, cleaned, closing]
  simp [Piece.inside]

/-- The lines of a guard close all braces that they open, if the code in it does. -/
theorem shift_around (level : Nat) (code : Piece.Shift pieces 0 0)
    (dotted : Dotted guard.exception.toList)
    (handler : ∀ statement ∈ guard.handler, statement.IsBraced)
    (cleanup : ∀ statement ∈ guard.cleanup, statement.IsBraced) :
    Piece.Shift (guard.around level pieces) 0 0 := by
  have turn (text : String) (inert : Inert text) :
      Shifts ("\x7d" ++ text ++ "\x7b").toList 1 1 := by
    rw [String.toList_append, String.toList_append]
    exact (Shifts.closing.append (.of_isCode inert.isCode)).append .opening
  have caught : Shifts ("\x7d catch (Throwable " ++ guard.exception ++ ") \x7b").toList 1 1 := by
    have whole : "\x7d catch (Throwable " ++ guard.exception ++ ") \x7b" =
        "\x7d" ++ (" catch (Throwable " ++ guard.exception ++ ") ") ++ "\x7b" := by
      rw [← String.toList_inj]
      simp
    rw [whole]
    exact turn _ ((Inert.append (by decide) dotted.inert).append (by decide))
  have stop := Statement.shift_inside (Piece.shift_regionStop level)
  have start := Statement.shift_inside (Piece.shift_regionStart level none nofun)
  have handled := Statement.shift_inside (Statement.shift_piecesAll handler (level + 1))
  have cleaned := Statement.shift_inside (Statement.shift_piecesAll cleanup (level + 1))
  have opening : Shifts "try \x7b".toList 0 1 := Statement.shifts_head "try" (by decide)
  have body := Piece.Shift.cons (Piece.shift_line level opening)
    (stop.cons (Statement.shift_inside code))
  have handlers := (start.cons (Piece.shift_line level caught)).append handled
  have cleanups := (Piece.shift_line level (turn " finally " (by decide))).append cleaned
  have whole := ((body.append handlers).append cleanups).append
    (Piece.shift_line level Statement.shifts_last)
  have listed : guard.around level pieces =
      Piece.line level "try \x7b" :: Piece.regionStop level :: pieces ++
      ([Piece.regionStart level none, Piece.line level
        ("\x7d catch (Throwable " ++ guard.exception ++ ") \x7b")] ++
        Statement.piecesAll (level + 1) guard.handler) ++ ([Piece.line level "\x7d finally \x7b"] ++
          Statement.piecesAll (level + 1) guard.cleanup) ++ [Piece.line level "\x7d"] := by
    simp [around]
  rw [listed]
  exact whole

/-- The lines of a guard and of what stands in it are a guarded unit. -/
theorem units_around (level : Nat) (body : Choices (Piece.written pieces))
    (exception : Dotted guard.exception.toList)
    (handler : ∀ statement ∈ guard.handler, statement.IsBraced)
    (cleanup : ∀ statement ∈ guard.cleanup, statement.IsBraced) :
    Units (Piece.written (guard.around level pieces)) := by
  rw [written_around level exception]
  have code {statements : List Statement} (braced : ∀ statement ∈ statements, statement.IsBraced) :
      Bracket.brace.lexis.Closes 0
        (Piece.inside level (Piece.written (Statement.piecesAll (level + 1) statements))) :=
    (Piece.isCode_inside (Statement.shift_piecesAll braced (level + 1)).isCode).closes
  have inside := (Piece.isGap_regionStop level).choices body |>.append_gap
    (Piece.isGap_regionStart level none nofun)
  have clauses := IsClausesText.catch (closes_parameter exception) (code handler)
    (isClausesText_finally (code cleanup))
  exact ((isGap_spaces _).units.append
    (isUnitText_guarded (Piece.choices_inside inside) clauses).units).append isGap_newline.units

end Guard

/-- The lines of a scope: an action and a guarded unit, with marks around them and in them. -/
theorem Woven.units_scope {label : String} {opening : List Statement} {body : Woven} {guard : Guard}
    {level : Nat} (openLabel : IsOpenLabel label)
    (braced : ∀ statement ∈ opening, statement.IsBraced)
    (choices : Choices (Piece.written (body.pieces (level + 1))))
    (exception : Dotted guard.exception.toList)
    (handler : ∀ statement ∈ guard.handler, statement.IsBraced)
    (cleanup : ∀ statement ∈ guard.cleanup, statement.IsBraced) :
    Units (Piece.written ((Woven.scope label opening body guard).pieces level)) := by
  have start : Units (Piece.written [Piece.regionStart level (some label)]) :=
    (Piece.isGap_regionStart level _ (by rintro _ ⟨⟩; exact openLabel)).units
  have block := Piece.units_block level (Statement.shift_piecesAll braced (level + 1))
  have around := Guard.units_around level choices exception handler cleanup
  rw [Woven.pieces, ← List.singleton_append, Piece.written_append, Piece.written_append,
    Piece.written_append]
  exact ((start.append block).append around).append (Piece.isGap_regionStop level).units

end NodeWeave
