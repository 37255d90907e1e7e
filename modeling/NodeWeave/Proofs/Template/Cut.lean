import NodeWeave.Template.Reader
import NodeWeave.Proofs.Woven.Mark

/-!
How templates are cut. A tag goes from the first two opening braces to the first two closing braces
behind them; the rest is text. What a tag says does not depend on the blanks around its content.
-/

namespace NodeWeave.Text

/-! ### Splitting at a doubled character -/

variable {c : Char} {before following text : List Char}

theorem splitFirst?_double (free : ¬ [c, c] <:+: before ++ [c]) (following : List Char) :
    splitFirst? [c, c] (before ++ [c, c] ++ following) = some (before, following) := by
  induction before with
  | nil => simp [splitFirst?, after?]
  | cons d before ih =>
      rw [List.cons_append, List.infix_cons_iff, not_or] at free
      have passes : after? [c, c] (d :: (before ++ [c, c] ++ following)) = none := by
        apply after?_eq_none_iff.mpr
        intro start
        have part : d :: (before ++ [c]) <+: d :: (before ++ [c, c] ++ following) :=
          ⟨c :: following, by simp⟩
        exact free.1 (List.prefix_of_prefix_length_le start part (by simp))
      rw [List.cons_append, List.cons_append, splitFirst?, passes, ih free.2]
      rfl

theorem not_infix_of_splitFirst?_double
    (split : splitFirst? [c, c] text = some (before, following)) :
    ¬ [c, c] <:+: before ++ [c] := by
  induction text generalizing before with
  | nil => simp [splitFirst?] at split
  | cons d rest ih =>
      rw [splitFirst?] at split
      split at split
      · cases split
        intro within
        exact absurd within.length_le (by simp)
      · next passes =>
          obtain ⟨⟨front, _⟩, found, same⟩ := Option.map_eq_some_iff.mp split
          cases same
          rw [List.cons_append, List.infix_cons_iff, not_or]
          refine ⟨fun start => after?_eq_none_iff.mp passes (start.trans ?_), ih found⟩
          exact ⟨c :: following, by rw [eq_of_splitFirst? found]; simp⟩

end NodeWeave.Text

namespace NodeWeave.Template

open Text

/-! ### Pieces -/

/-- A text that can stand in front of a tag. -/
def IsText (text : List Char) : Prop :=
  ¬ opening <:+: text ++ ['\x7b']

/-- What can stand between the braces of a tag. -/
def IsContent (content : List Char) : Prop :=
  ¬ closing <:+: content ++ ['\x7d']

instance (text : List Char) : Decidable (IsText text) :=
  inferInstanceAs (Decidable (¬ _))

instance (content : List Char) : Decidable (IsContent content) :=
  inferInstanceAs (Decidable (¬ _))

variable {before content rest text : List Char}

theorem splitFirst?_opening_eq_none_iff : splitFirst? opening text = none ↔ ¬ opening <:+: text :=
  splitFirst?_eq_none_iff (List.cons_ne_nil _ _)

theorem splitFirst?_closing_eq_none_iff : splitFirst? closing text = none ↔ ¬ closing <:+: text :=
  splitFirst?_eq_none_iff (List.cons_ne_nil _ _)

theorem tokens_text (free : ¬ opening <:+: text) (offset : Nat) :
    tokens offset text = textToken text := by
  have none : splitFirst? opening text = none := splitFirst?_opening_eq_none_iff.mpr free
  rw [tokens]
  split
  · rfl
  · next found => exact absurd (none.symm.trans found) nofun

theorem tokens_unclosed (lead : IsText before) (openEnd : ¬ closing <:+: rest) (offset : Nat) :
    tokens offset (before ++ opening ++ rest) =
      textToken before ++ [.unclosed (offset + byteLength before)] := by
  have first : splitFirst? opening (before ++ opening ++ rest) = some (before, rest) :=
    splitFirst?_double lead rest
  have second : splitFirst? closing rest = none := splitFirst?_closing_eq_none_iff.mpr openEnd
  rw [tokens]
  split
  · next found => exact absurd (first.symm.trans found) nofun
  · next found =>
      cases first.symm.trans found
      split
      · rfl
      · next closed => exact absurd (second.symm.trans closed) nofun

theorem tokens_tag (lead : IsText before) (whole : IsContent content) (rest : List Char)
    (offset : Nat) :
    tokens offset (before ++ opening ++ (content ++ closing ++ rest)) =
      textToken before ++ .tag (trimmed content) (offset + byteLength before) ::
        tokens (offset + byteLength (before ++ opening ++ (content ++ closing))) rest := by
  have first : splitFirst? opening (before ++ opening ++ (content ++ closing ++ rest)) =
      some (before, content ++ closing ++ rest) := splitFirst?_double lead _
  have second : splitFirst? closing (content ++ closing ++ rest) = some (content, rest) :=
    splitFirst?_double whole rest
  have braces : byteLength opening = 2 ∧ byteLength closing = 2 := by decide
  rw [tokens]
  split
  · next found => exact absurd (first.symm.trans found) nofun
  · next found =>
      cases first.symm.trans found
      split
      · next closed => exact absurd (second.symm.trans closed) nofun
      · next closed =>
          cases second.symm.trans closed
          rw [byteLength_append, byteLength_append, byteLength_append, braces.1, braces.2]
          simp only [Nat.add_assoc]

/-- Every text has no tag, or ends in a tag that is never closed, or starts with a first tag. -/
@[elab_as_elim]
theorem cut_induction {motive : List Char → Prop}
    (text : ∀ text, ¬ opening <:+: text → motive text)
    (unclosed : ∀ before rest, IsText before → ¬ closing <:+: rest →
      motive (before ++ opening ++ rest))
    (tag : ∀ before content rest, IsText before → IsContent content → motive rest →
      motive (before ++ opening ++ (content ++ closing ++ rest))) :
    ∀ all, motive all := by
  intro all
  induction length : all.length using Nat.strongRecOn generalizing all with
  | ind n ih =>
      subst length
      cases first : splitFirst? opening all with
      | none => exact text all (splitFirst?_opening_eq_none_iff.mp first)
      | some found =>
          obtain ⟨before, behind⟩ := found
          have lead : IsText before := not_infix_of_splitFirst?_double first
          have shorter := length_of_splitFirst? first
          rw [eq_of_splitFirst? first]
          cases second : splitFirst? closing behind with
          | none => exact unclosed before behind lead (splitFirst?_closing_eq_none_iff.mp second)
          | some found =>
              obtain ⟨content, rest⟩ := found
              have whole : IsContent content := not_infix_of_splitFirst?_double second
              have stillShorter := length_of_splitFirst? second
              rw [eq_of_splitFirst? second]
              refine tag before content rest lead whole (ih rest.length ?_ rest rfl)
              simp only [opening, closing, List.length_cons, List.length_nil]
                at shorter stillShorter
              omega

end NodeWeave.Template
