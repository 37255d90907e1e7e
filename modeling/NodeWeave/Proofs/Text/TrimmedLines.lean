import Mathlib.Data.List.Induction
import NodeWeave.Text.Line

/-!
A text without the blanks at the ends of its lines. Main statement: two texts side by side are
trimmed one by one, unless the first one ends in blanks that stand at the end of a line then.
-/

namespace NodeWeave.Text

-- Without these, where all of the library is there, all characters would be tried one by one.
instance decidableForallMemList {P : Char → Prop} [DecidablePred P] {text : List Char} :
    Decidable (∀ c ∈ text, P c) :=
  List.decidableBAll P text

instance decidableForallMemOption {P : Char → Prop} [DecidablePred P] {first : Option Char} :
    Decidable (∀ c ∈ first, P c) :=
  Option.decidableForallMem first

/-- The text without the blanks at the ends of its lines. Behind the last line feed nothing ends. -/
def trimLines : List Char → List Char
  | [] => []
  | c :: rest =>
      if isBlank c && c != '\n' && (trimLines rest).head? == some '\n' then trimLines rest
      else c :: trimLines rest

/-- The character stays, whatever stands behind it. -/
def IsKept (c : Char) : Prop :=
  isBlank c = false ∨ c = '\n'

variable {c : Char} {front rest : List Char}

@[simp] theorem trimLines_nil : trimLines [] = [] := rfl

theorem trimLines_cons_of_isKept (kept : IsKept c) :
    trimLines (c :: rest) = c :: trimLines rest := by
  rw [trimLines, if_neg]
  rcases kept with solid | rfl
  · simp [solid]
  · simp

theorem trimLines_cons_of_solid (solid : isBlank c = false) :
    trimLines (c :: rest) = c :: trimLines rest :=
  trimLines_cons_of_isKept (.inl solid)

@[simp] theorem trimLines_newline : trimLines ('\n' :: rest) = '\n' :: trimLines rest :=
  trimLines_cons_of_isKept (.inr rfl)

@[simp] theorem trimLines_eq_nil_iff {text : List Char} : trimLines text = [] ↔ text = [] := by
  cases text with
  | nil => simp
  | cons c rest =>
      rw [trimLines]
      split
      · next dropped =>
          rw [Bool.and_eq_true, beq_iff_eq] at dropped
          constructor
          · intro none
            rw [none] at dropped
            cases dropped.2
          · exact nofun
      · simp

/-- Nothing is dropped across the border of two texts, if the first one ends with a character that
stays or the second one does not begin with the end of a line. -/
theorem trimLines_append (border : (∀ c ∈ front.getLast?, IsKept c) ∨
    (trimLines rest).head? ≠ some '\n') :
    trimLines (front ++ rest) = trimLines front ++ trimLines rest := by
  induction front with
  | nil => rfl
  | cons c front ih =>
      cases front with
      | nil =>
          rcases border with kept | other
          · have kept := kept c rfl
            rw [List.singleton_append, trimLines_cons_of_isKept kept, trimLines_cons_of_isKept kept]
            rfl
          · simp [trimLines, other]
      | cons d front =>
          have same : (trimLines ((d :: front) ++ rest)).head? =
              (trimLines (d :: front)).head? := by
            rw [ih (border.imp_left fun kept => by simpa using kept)]
            cases trimmed : trimLines (d :: front) with
            | nil => cases trimLines_eq_nil_iff.mp trimmed
            | cons => rfl
          rw [List.cons_append, trimLines, trimLines, same,
            ih (border.imp_left fun kept => by simpa using kept)]
          split <;> rfl

theorem trimLines_append_isKept (kept : IsKept c) :
    trimLines (front ++ [c] ++ rest) = trimLines (front ++ [c]) ++ trimLines rest :=
  trimLines_append (.inl (by simpa using kept))

theorem trimLines_append_solid (solid : isBlank c = false) :
    trimLines (front ++ c :: rest) = trimLines front ++ c :: trimLines rest := by
  rw [← trimLines_cons_of_solid solid]
  refine trimLines_append (.inr ?_)
  rw [trimLines_cons_of_solid solid]
  rintro ⟨⟩
  cases solid

/-- Of a text that begins and ends with no blank, both ends stay. -/
theorem head?_trimLines (solid : ∀ c ∈ front.head?, IsKept c) :
    (trimLines front).head? = front.head? := by
  cases front with
  | nil => rfl
  | cons c rest => rw [trimLines_cons_of_isKept (solid c rfl), List.head?_cons, List.head?_cons]

theorem trimLines_append_of_head (solid : ∀ c ∈ rest.head?, isBlank c = false) :
    trimLines (front ++ rest) = trimLines front ++ trimLines rest := by
  refine trimLines_append (.inr ?_)
  rw [head?_trimLines fun c first => .inl (solid c first)]
  intro feed
  cases solid _ feed

theorem getLast?_trimLines (text : List Char) : (trimLines text).getLast? = text.getLast? := by
  induction text with
  | nil => rfl
  | cons c rest ih =>
      cases rest with
      | nil => simp [trimLines]
      | cons d rest =>
          rw [trimLines]
          split
          · rw [ih, List.getLast?_cons_cons]
          · cases trimmed : trimLines (d :: rest) with
            | nil => cases trimLines_eq_nil_iff.mp trimmed
            | cons e more => rw [List.getLast?_cons_cons, ← trimmed, ih, List.getLast?_cons_cons]

theorem mem_of_mem_trimLines {text : List Char} (mem : c ∈ trimLines text) : c ∈ text := by
  induction text with
  | nil => cases mem
  | cons d rest ih =>
      rw [trimLines] at mem
      split at mem
      · exact List.mem_cons_of_mem d (ih mem)
      · rcases List.mem_cons.mp mem with rfl | mem
        · exact List.mem_cons_self
        · exact List.mem_cons_of_mem d (ih mem)

theorem trimLines_of_not_mem {text : List Char} (oneLine : '\n' ∉ text) :
    trimLines text = text := by
  induction text with
  | nil => rfl
  | cons c rest ih =>
      rw [List.mem_cons, not_or] at oneLine
      rw [trimLines, ih oneLine.2, if_neg]
      rw [Bool.and_eq_true, beq_iff_eq]
      exact fun dropped => oneLine.2 (List.mem_of_mem_head? dropped.2)

theorem trimLines_congr {other : List Char} (same : trimLines rest = trimLines other) :
    trimLines (front ++ rest) = trimLines (front ++ other) := by
  induction front with
  | nil => exact same
  | cons c front ih => rw [List.cons_append, List.cons_append, trimLines, trimLines, ih]

/-- Solid characters that stand side by side stood there before. -/
theorem infix_of_trimLines {text : List Char} {a b : Char} (solid : isBlank b = false)
    (sideBySide : [a, b] <:+: trimLines text) :
    [a, b] <:+: text := by
  induction text with
  | nil => exact sideBySide
  | cons c rest ih =>
      rw [trimLines] at sideBySide
      split at sideBySide
      · exact List.infix_cons (ih sideBySide)
      · rcases List.infix_cons_iff.mp sideBySide with ⟨more, whole⟩ | later
        · obtain ⟨rfl, same⟩ := List.cons.inj whole
          have head : (trimLines rest).head? = some b := by
            rw [show trimLines rest = b :: more from same.symm]
            rfl
          refine List.infix_cons_iff.mpr (.inl ?_)
          cases rest with
          | nil => cases head
          | cons d rest =>
              rw [trimLines] at head
              split at head
              · next dropped =>
                  rw [Bool.and_eq_true, beq_iff_eq] at dropped
                  obtain rfl := Option.some.inj (dropped.2.symm.trans head)
                  cases solid
              · cases head
                exact ⟨rest, rfl⟩
        · exact List.infix_cons (ih later)

/-- A word without blanks that the lines begin with without their blanks, they began with before. -/
theorem prefix_of_trimLines {word text : List Char} (solid : ∀ c ∈ word, isBlank c = false)
    (begins : word <+: trimLines text) : word <+: text := by
  induction word generalizing text with
  | nil => exact List.nil_prefix
  | cons d word ih =>
      rw [List.forall_mem_cons] at solid
      cases text with
      | nil => exact begins
      | cons c rest =>
          rw [trimLines] at begins
          split at begins
          · next dropped =>
              rw [Bool.and_eq_true, beq_iff_eq] at dropped
              obtain ⟨more, whole⟩ := begins
              rw [← whole] at dropped
              cases dropped.2
              cases solid.1
          · rw [List.cons_prefix_cons] at begins ⊢
            exact ⟨begins.1, ih solid.2 begins.2⟩

/-- A word without blanks stood in the lines before, behind a text that leaves what now stands in
front of it. -/
theorem exists_append_of_trimLines {word text : List Char} (filled : word ≠ [])
    (solid : ∀ c ∈ word, isBlank c = false) (same : trimLines text = front ++ (word ++ rest)) :
    ∃ before behind, text = before ++ (word ++ behind) ∧ trimLines before = front := by
  induction text generalizing front with
  | nil => simp [filled] at same
  | cons c text ih =>
      by_cases dropped : (isBlank c && c != '\n' && (trimLines text).head? == some '\n') = true
      · rw [trimLines, if_pos dropped] at same
        obtain ⟨before, behind, rfl, rfl⟩ := ih same
        refine ⟨c :: before, behind, rfl, ?_⟩
        rw [trimLines, if_pos]
        rw [Bool.and_eq_true, beq_iff_eq, same] at dropped
        rw [Bool.and_eq_true, beq_iff_eq]
        refine ⟨dropped.1, ?_⟩
        cases trimmed : trimLines before with
        | nil =>
            obtain ⟨d, more, rfl⟩ := List.exists_cons_of_ne_nil filled
            rw [trimmed] at dropped
            cases dropped.2
            cases solid '\n' List.mem_cons_self
        | cons d more =>
            rw [trimmed] at dropped
            exact dropped.2
      · rw [trimLines, if_neg dropped] at same
        cases front with
        | nil =>
            have begins : word <+: trimLines (c :: text) := by
              rw [trimLines, if_neg dropped, same]
              exact List.prefix_append _ _
            obtain ⟨behind, whole⟩ := prefix_of_trimLines solid begins
            exact ⟨[], behind, whole.symm, rfl⟩
        | cons d front =>
            rw [List.cons_append, List.cons.injEq] at same
            obtain ⟨rfl, same⟩ := same
            obtain ⟨before, behind, rfl, rfl⟩ := ih same
            refine ⟨c :: before, behind, rfl, ?_⟩
            rw [trimLines, if_neg]
            rw [Bool.and_eq_true, beq_iff_eq, same] at dropped
            rw [Bool.and_eq_true, beq_iff_eq]
            rintro ⟨blank, first⟩
            exact dropped ⟨blank, by rw [List.head?_append, first]; rfl⟩

theorem trimLines_line {line : List Char} (whole : '\n' ∉ line) :
    trimLines (line ++ '\n' :: rest) = dropBlanksEnd line ++ '\n' :: trimLines rest := by
  induction line using List.reverseRecOn with
  | nil => exact trimLines_newline
  | append_singleton line c ih =>
      rw [List.mem_append, not_or] at whole
      cases blank : isBlank c with
      | false =>
          rw [dropBlanksEnd_append_solid line blank, trimLines_append_isKept (.inl blank),
            trimLines_newline, trimLines_of_not_mem]
          exact fun mem => (List.mem_append.mp mem).elim whole.1 whole.2
      | true =>
          have other : c ≠ '\n' := fun same => whole.2 (List.mem_singleton.mpr same.symm)
          rw [dropBlanksEnd_append_blank line blank, ← ih whole.1, List.append_assoc]
          refine trimLines_congr ?_
          rw [List.singleton_append, trimLines, trimLines_newline, if_pos]
          simp [blank, other]

theorem trimLines_trimLines (text : List Char) : trimLines (trimLines text) = trimLines text := by
  induction text with
  | nil => rfl
  | cons c rest ih =>
      by_cases dropped : (isBlank c && c != '\n' && (trimLines rest).head? == some '\n') = true
      · rw [trimLines, if_pos dropped, ih]
      · rw [trimLines, if_neg dropped, trimLines, ih, if_neg dropped]

theorem mem_of_mem_dropBlanksEnd {text : List Char} (mem : c ∈ dropBlanksEnd text) : c ∈ text :=
  List.mem_reverse.mp ((List.dropWhile_suffix _).subset (List.mem_reverse.mp mem))

/-! ### Trimmed texts -/

/-- No blank stands at the ends of the text. -/
structure IsTrimmed (text : List Char) : Prop where
  first : ∀ c ∈ text.head?, isBlank c = false
  last : ∀ c ∈ text.getLast?, isBlank c = false

namespace IsTrimmed

variable {text : List Char}

theorem dropBlanks (trimmed : IsTrimmed text) : dropBlanks text = text := by
  cases text with
  | nil => rfl
  | cons c rest => exact List.dropWhile_cons_of_neg (by simp [trimmed.first c rfl])

theorem dropBlanksEnd (trimmed : IsTrimmed text) : dropBlanksEnd text = text := by
  rcases List.eq_nil_or_concat text with rfl | ⟨front, c, rfl⟩
  · rfl
  · rw [List.concat_eq_append] at trimmed ⊢
    exact dropBlanksEnd_append_solid front (trimmed.last c List.getLast?_concat)

theorem trim {text : String} (trimmed : IsTrimmed text.toList) : trim text = text := by
  rw [Text.trim, trimmed.dropBlanks, trimmed.dropBlanksEnd, String.ofList_toList]

protected theorem trimLines (trimmed : IsTrimmed text) : IsTrimmed (trimLines text) where
  first := by
    rw [head?_trimLines fun c begins => .inl (trimmed.first c begins)]
    exact trimmed.first
  last := by
    rw [getLast?_trimLines]
    exact trimmed.last

end IsTrimmed

end NodeWeave.Text
