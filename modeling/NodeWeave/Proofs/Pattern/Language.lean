import NodeWeave.Hierarchy.Shorthand

/-!
Languages of patterns by the rules that hold of any of them: what groups and anchors mean, and when
a text is refused. The rules leave open which other texts are patterns and what these match.
-/

namespace NodeWeave

/-- What a pattern matches: the part of a text between two places. -/
abbrev Meaning := List Char → Nat → Nat → Prop

namespace Meaning

def textStart : Meaning := fun _ i j => i = 0 ∧ i = j

def textEnd : Meaning := fun text i j => i = text.length ∧ i = j

def followedBy (m n : Meaning) : Meaning := fun text i j => ∃ k, m text i k ∧ n text k j

theorem followedBy_assoc (l m n : Meaning) :
    (l.followedBy m).followedBy n = l.followedBy (m.followedBy n) := by
  funext text i j
  refine propext ⟨?_, ?_⟩
  · rintro ⟨k, ⟨h, first, second⟩, third⟩
    exact ⟨h, first, k, second, third⟩
  · rintro ⟨h, first, k, second, third⟩
    exact ⟨k, ⟨h, first, second⟩, third⟩

/-- The pattern matches some part of the text. -/
def Occurs (m : Meaning) (text : List Char) : Prop :=
  ∃ i j, m text i j

def MatchesWhole (m : Meaning) (text : List Char) : Prop :=
  m text 0 text.length

theorem occurs_anchored_iff {m : Meaning} {text : List Char} :
    (textStart.followedBy (m.followedBy textEnd)).Occurs text ↔ m.MatchesWhole text := by
  constructor
  · rintro ⟨_, _, _, ⟨rfl, rfl⟩, _, whole, rfl, rfl⟩
    exact whole
  · intro whole
    exact ⟨0, text.length, 0, ⟨rfl, rfl⟩, text.length, whole, rfl, rfl⟩

end Meaning

namespace Pattern

/-- Every sign of a comment is followed by the end of a line. -/
def ClosesComments (text : List Char) : Prop :=
  ∀ before after, text = before ++ '#' :: after → '\n' ∈ after

theorem ClosesComments.of_suffix {text rest : List Char} (closed : ClosesComments text)
    (inside : rest <:+ text) : ClosesComments rest := by
  obtain ⟨front, rfl⟩ := inside
  intro before after same
  exact closed (front ++ before) after (by rw [same, List.append_assoc])

theorem closesComments_of_not_mem {text : List Char} (noSign : '#' ∉ text) : ClosesComments text :=
  fun before _ same => absurd (same ▸ List.mem_append_right before List.mem_cons_self) noSign

end Pattern

/-- A language of patterns, as a library offers it. -/
structure PatternLanguage where
  /-- What a text means by its syntax, unless it is malformed. -/
  meaning? : String → Option Meaning
  /-- A comment that the text opens would go on behind it. -/
  EndsInComment : String → Prop
  /-- The text keeps to the limits for the depth and the size of patterns. -/
  fits : String → Bool
  compile : Hierarchy.Matcher

namespace PatternLanguage

/-- Texts whose parts are read one after the other: a pattern in a group, and anchors around it. -/
inductive Composes (language : PatternLanguage) : String → Meaning → Prop where
  | group {text : String} {m : Meaning} (means : language.meaning? text = some m)
      (closed : ¬language.EndsInComment text) : Composes language ("(?:" ++ text ++ ")") m
  | textStart {text : String} {m : Meaning} (rest : Composes language text m) :
      Composes language ("^" ++ text) (.followedBy .textStart m)
  | textEnd {text : String} {m : Meaning} (first : Composes language text m) :
      Composes language (text ++ "$") (m.followedBy .textEnd)

/-- What is documented of reading and of searching. -/
structure Lawful (language : PatternLanguage) : Prop where
  compile_eq_none_iff : ∀ text, language.compile text = none ↔
    language.meaning? text = none ∨ language.fits text = false
  /-- A pattern may be found in any part of a name. -/
  isMatch_iff : ∀ {text isMatch m}, language.compile text = some isMatch →
    language.meaning? text = some m → ∀ name, isMatch name = true ↔ m.Occurs name.toList
  not_endsInComment : ∀ {text : String}, Pattern.ClosesComments text.toList →
    ¬language.EndsInComment text
  meaning?_of_composes : ∀ {text m}, language.Composes text m → language.meaning? text = some m

end PatternLanguage

end NodeWeave
