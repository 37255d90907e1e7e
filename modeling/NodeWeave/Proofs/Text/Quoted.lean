import NodeWeave.Text.Basic
import NodeWeave.Text.Blank

/-!
Comments and literals of a text, and the places outside of them. Main statement: blanks in front of
such a place are outside, too, unless a comment up to the end of its line ends in them.
-/

namespace NodeWeave.Quoted

open Text

/-- What stands behind a literal with this quote, from its first character on. A literal may have to
end in its line, and a backslash takes the next character with it. -/
def behindLiteral? (quote : Char) (inLine : Bool) : List Char → Option (List Char)
  | [] => none
  | '\\' :: [] => none
  | '\\' :: _ :: rest => behindLiteral? quote inLine rest
  | c :: rest =>
      if c = quote then some rest
      else if inLine && (c == '\n' || c == '\r') then none
      else behindLiteral? quote inLine rest

/-- What stands behind the comment or the literal that begins here. A comment up to the end of its
line takes this end with it, for what is put in front of it is still in the comment. -/
def behindQuoted? : List Char → Option (List Char)
  | '"' :: rest => behindLiteral? '"' true rest
  | '\'' :: rest => behindLiteral? '\'' false rest
  | '/' :: '*' :: rest => (splitFirst? ['*', '/'] rest).map Prod.snd
  | '/' :: '/' :: rest => some ((rest.dropWhile fun c => c != '\n' && c != '\r').drop 1)
  | _ => none

/-- Whole comments, whole literals and single characters lead from one place of a text to a later
one, so that the later one is outside of them if the first one is. -/
inductive Reaches : List Char → List Char → Prop where
  | here (text : List Char) : Reaches text text
  | quoted {text next later : List Char} (behind : behindQuoted? text = some next)
      (rest : Reaches next later) : Reaches text later
  | char {c : Char} {next later : List Char} (plain : behindQuoted? (c :: next) = none)
      (rest : Reaches next later) : Reaches (c :: next) later

/-- A comment up to the end of its line ends at this place of the text. -/
def EndsLineComment (text place : List Char) : Prop :=
  ∃ comment, ['/', '/'] <+: comment ∧ Reaches text comment ∧ behindQuoted? comment = some place

variable {text next later place rest : List Char} {c : Char}

/-! ### Comments and literals -/

theorem exists_of_behindLiteral? {quote : Char} {inLine : Bool}
    (behind : behindLiteral? quote inLine text = some rest) :
    ∃ inside, text = inside ++ quote :: rest := by
  fun_induction behindLiteral? quote inLine text with
  | case1 => cases behind
  | case2 => cases behind
  | case3 d later ih =>
      obtain ⟨inside, rfl⟩ := ih behind
      exact ⟨'\\' :: d :: inside, rfl⟩
  | case4 later =>
      cases behind
      exact ⟨[], rfl⟩
  | case5 => cases behind
  | case6 d later _ _ _ _ ih =>
      obtain ⟨inside, rfl⟩ := ih behind
      exact ⟨d :: inside, rfl⟩

/-- A comment or literal ends with a quote or a slash, unless it is a comment up to the end of its
line. -/
theorem exists_of_behindQuoted? (behind : behindQuoted? text = some rest) :
    ∃ part, text = part ++ rest ∧ part ≠ [] ∧
      (['/', '/'] <+: text ∨ ∃ init last, part = init ++ [last] ∧ isBlank last = false) := by
  unfold behindQuoted? at behind
  split at behind
  · obtain ⟨inside, rfl⟩ := exists_of_behindLiteral? behind
    exact ⟨'"' :: (inside ++ ['"']), by simp, by simp, .inr ⟨'"' :: inside, '"', rfl, by decide⟩⟩
  · obtain ⟨inside, rfl⟩ := exists_of_behindLiteral? behind
    exact ⟨'\'' :: (inside ++ ['\'']), by simp, by simp,
      .inr ⟨'\'' :: inside, '\'', rfl, by decide⟩⟩
  · obtain ⟨⟨inside, _⟩, split, rfl⟩ := Option.map_eq_some_iff.mp behind
    rw [eq_of_splitFirst? split]
    exact ⟨'/' :: '*' :: (inside ++ ['*', '/']), by simp, by simp,
      .inr ⟨'/' :: '*' :: (inside ++ ['*']), '/', by simp, by decide⟩⟩
  · next line =>
      obtain rfl := Option.some.inj behind
      obtain ⟨inside, same⟩ : (line.dropWhile fun c => c != '\n' && c != '\r').drop 1 <:+ line :=
        (List.drop_suffix 1 _).trans (List.dropWhile_suffix _)
      exact ⟨'/' :: '/' :: inside, congrArg ('/' :: '/' :: ·) same.symm, List.cons_ne_nil _ _,
        .inl ⟨line, rfl⟩⟩
  · cases behind

theorem length_lt_of_behindQuoted? (behind : behindQuoted? text = some rest) :
    rest.length < text.length := by
  obtain ⟨part, rfl, some, -⟩ := exists_of_behindQuoted? behind
  rw [List.length_append]
  have := List.length_pos_iff.mpr some
  omega

theorem behindQuoted?_eq_none (plain : c ∉ ['"', '\'', '/']) :
    behindQuoted? (c :: rest) = none := by
  unfold behindQuoted?
  split
  case h_5 => rfl
  all_goals
    next same =>
      obtain ⟨rfl, _⟩ := List.cons.inj same
      exact absurd plain (by decide)

/-! ### Places outside of them -/

namespace Reaches

theorem trans (first : Reaches text next) (second : Reaches next later) : Reaches text later := by
  induction first with
  | here => exact second
  | quoted behind _ ih => exact .quoted behind (ih second)
  | char plain _ ih => exact .char plain (ih second)

theorem suffix (reaches : Reaches text later) : later <:+ text := by
  induction reaches with
  | here => exact List.suffix_refl _
  | quoted behind _ ih =>
      obtain ⟨part, rfl, -⟩ := exists_of_behindQuoted? behind
      exact ih.trans (List.suffix_append part _)
  | char _ _ ih => exact ih.trans (List.suffix_cons _ _)

/-- Of two places of a text, the later one is reached from the first one. -/
theorem of_length_le {other : List Char} (first : Reaches text next) (second : Reaches text other)
    (le : other.length ≤ next.length) : Reaches next other := by
  induction first with
  | here => exact second
  | quoted behind rest ih =>
      cases second with
      | here =>
          have shorter := rest.suffix.length_le
          have := length_lt_of_behindQuoted? behind
          omega
      | quoted behindToo restToo =>
          cases behind.symm.trans behindToo
          exact ih restToo le
      | char plain => cases behind.symm.trans plain
  | char plain rest ih =>
      cases second with
      | here =>
          have shorter := rest.suffix.length_le
          rw [List.length_cons] at le
          omega
      | quoted behind => cases behind.symm.trans plain
      | char _ restToo => exact ih restToo le

/-- What is reached does not begin in a comment or a literal. -/
theorem not_inside (first : Reaches text next) (behind : behindQuoted? next = some rest)
    (second : Reaches text place) :
    ¬ (rest.length < place.length ∧ place.length < next.length) := by
  rintro ⟨long, short⟩
  cases first.of_length_le second (Nat.le_of_lt short) with
  | here => omega
  | quoted behindToo later =>
      cases behind.symm.trans behindToo
      have := later.suffix.length_le
      omega
  | char plain => cases behind.symm.trans plain

/-- Characters that begin no comment and no literal are passed one by one. -/
theorem of_forall_not_mem {front : List Char} (plain : ∀ c ∈ front, c ∉ ['"', '\'', '/'])
    (rest : List Char) : Reaches (front ++ rest) rest := by
  induction front with
  | nil => exact .here rest
  | cons c front ih =>
      refine .char (behindQuoted?_eq_none (plain c List.mem_cons_self)) (ih fun d mem => ?_)
      exact plain d (List.mem_cons_of_mem c mem)

end Reaches

/-- A place of a text is outside of comments and literals, or it is inside of one. -/
theorem reaches_or_inside (text place : List Char) (isPlace : place <:+ text) :
    Reaches text place ∨ ∃ next rest, Reaches text next ∧ behindQuoted? next = some rest ∧
      rest.length < place.length ∧ place.length < next.length := by
  rcases Nat.lt_or_ge place.length text.length with shorter | whole
  · rcases quoted : behindQuoted? text with _ | rest
    · cases text with
      | nil => simp at shorter
      | cons c next =>
          rcases List.suffix_cons_iff.mp isPlace with rfl | later
          · simp at shorter
          · rcases reaches_or_inside next place later with there | ⟨first, rest, reached, inside⟩
            · exact .inl (.char quoted there)
            · exact .inr ⟨first, rest, .char quoted reached, inside⟩
    · rcases Nat.lt_or_ge rest.length place.length with inside | behind
      · exact .inr ⟨text, rest, .here text, quoted, inside, shorter⟩
      · have less := length_lt_of_behindQuoted? quoted
        obtain ⟨part, same, -⟩ := exists_of_behindQuoted? quoted
        have later := List.suffix_of_suffix_length_le isPlace ⟨part, same.symm⟩ behind
        rcases reaches_or_inside rest place later with there | ⟨first, next, reached, inside⟩
        · exact .inl (.quoted quoted there)
        · exact .inr ⟨first, next, .quoted quoted reached, inside⟩
  · rw [isPlace.eq_of_length_le whole]
    exact .inl (.here text)
termination_by text.length

/-- Blanks in front of a place outside of comments and literals are outside, too, unless a comment
up to the end of its line ends in them. -/
theorem Reaches.of_blanks {gap : List Char} (reaches : Reaches text place)
    (isPlace : gap ++ place <:+ text) (blank : ∀ c ∈ gap, isBlank c = true)
    (ends : ∀ rest, rest <:+ gap → ¬ EndsLineComment text (rest ++ place)) :
    Reaches text (gap ++ place) := by
  rcases reaches_or_inside text _ isPlace with there | ⟨next, behind, first, quoted, short, long⟩
  · exact there
  -- What the gap begins in ends in the gap, and only comments up to the end of a line end so.
  · exfalso
    have before : place.length ≤ behind.length := by
      refine Nat.le_of_not_lt fun longer => first.not_inside quoted reaches ⟨longer, ?_⟩
      rw [List.length_append] at long
      omega
    obtain ⟨part, same, some, kind⟩ := exists_of_behindQuoted? quoted
    obtain ⟨front, whole⟩ :=
      List.suffix_of_suffix_length_le isPlace first.suffix (Nat.le_of_lt long)
    obtain ⟨cut, inGap⟩ : behind <:+ gap ++ place :=
      List.suffix_of_suffix_length_le ⟨part, same.symm⟩ ⟨front, whole⟩ (Nat.le_of_lt short)
    obtain ⟨rest, rfl⟩ : place <:+ behind :=
      List.suffix_of_suffix_length_le (List.suffix_append gap place) ⟨cut, inGap⟩ before
    rw [← List.append_assoc] at inGap
    have gapCut : cut ++ rest = gap := List.append_cancel_right inGap
    rcases kind with line | ⟨init, last, ended, solid⟩
    · exact ends rest ⟨cut, gapCut⟩ ⟨next, line, first, quoted⟩
    · have parts : part = front ++ cut := by
        rw [same, ← gapCut, List.append_assoc, ← List.append_assoc front] at whole
        exact (List.append_cancel_right whole).symm
      have inCut : last ∈ cut := by
        rcases List.eq_nil_or_concat cut with rfl | ⟨inner, final, rfl⟩
        · rw [← inGap] at short
          simp at short
        · rw [ended, List.concat_eq_append, ← List.append_assoc] at parts
          obtain ⟨-, same⟩ := List.append_inj' parts rfl
          rw [List.concat_eq_append, ← same]
          exact List.mem_append_right inner List.mem_cons_self
      have inGap : last ∈ gap := gapCut ▸ List.mem_append_left rest inCut
      rw [blank last inGap] at solid
      cases solid

end NodeWeave.Quoted
