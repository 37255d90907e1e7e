import NodeWeave.Proofs.Pattern.Anchored

/-!
Entries of a hierarchy that are patterns, in any language of patterns that keeps to what is
documented of it. Main statement: the names that an entry stands for, and when it is refused. The
text of a pattern is put between anchors before it is read, so that it may mean more there, or less,
than by itself.
-/

namespace NodeWeave.Hierarchy

/-- These are the declared names of this kind, each once and in the order of declaration. -/
structure Selects (d : Declared) (kind : String → Prop) (names : List String) : Prop where
  sublist : names.Sublist d.rawNames
  nodup : names.Nodup
  mem_iff : ∀ raw, raw ∈ names ↔ d.declares raw = true ∧ kind raw

theorem selects_filter (d : Declared) (isMatch : String → Bool) :
    Selects d (fun raw => isMatch raw = true) (d.rawNames.filter isMatch) where
  sublist := List.filter_sublist
  nodup := d.nodup_rawNames.sublist List.filter_sublist
  mem_iff raw := by rw [List.mem_filter, Declared.mem_rawNames]

namespace Outline

def patternNode (entry : Entry) (text : String) (children : List Outline) : Outline :=
  node { entry with name := "r:" ++ text } children

def refused (entry : Entry) (text : String) : Reported (List Outline) :=
  ⟨[], [.make .invalidRegex ("Invalid regex '" ++ text ++ "'") [entry.place]]⟩

/-- The entry stands for the declared names of this kind and is not reported as invalid. Nodes may
stand below it only if there is one name. -/
def StandsFor (compile : Matcher) (d : Declared) (entry : Entry) (text : String)
    (children : List Outline) (kind : String → Prop) : Prop :=
  ∃ names, Selects d kind names ∧
    (expand compile d (patternNode entry text children)).value =
      (if children = [] ∨ names.length = 1 then
        names.map (found d entry.place (expandAll compile d children).value) else []) ∧
    ∀ report ∈ (expand compile d (patternNode entry text children)).reports,
      report.category = .invalidRegex → report ∈ (expandAll compile d children).reports

section

variable {compile : Matcher} {text : String}

theorem expand_patternNode_of_none (d : Declared) (entry : Entry) (children : List Outline)
    (invalid : compile (wholeName text) = none) :
    expand compile d (patternNode entry text children) = refused entry text := by
  rw [patternNode, expand, Shorthand.ofName_pattern]
  dsimp only
  rw [invalid]
  rfl

theorem standsFor_of_some (d : Declared) (entry : Entry) (children : List Outline)
    {isMatch : String → Bool} (valid : compile (wholeName text) = some isMatch) :
    StandsFor compile d entry text children fun raw => isMatch raw = true := by
  refine ⟨_, selects_filter d isMatch, ?_⟩
  rw [patternNode, expand, Shorthand.ofName_pattern]
  dsimp only
  rw [valid]
  dsimp only
  generalize d.rawNames.filter isMatch = names
  rcases children with _ | ⟨child, rest⟩ <;> rcases names with _ | ⟨raw, _ | ⟨second, more⟩⟩
  · exact ⟨rfl, by simp [Report.make]⟩
  · exact ⟨rfl, by simp⟩
  · exact ⟨rfl, by simp⟩
  · exact ⟨rfl, by simp⟩
  · refine ⟨rfl, fun report mem same => ?_⟩
    simp only [Reported.bind_reports, Reported.tell_reports, Reported.pure_reports,
      List.append_nil, List.singleton_append, List.mem_cons] at mem
    rcases mem with rfl | below
    · cases same
    · exact below
  · exact ⟨rfl, by simp⟩

theorem StandsFor.congr {d : Declared} {entry : Entry} {children : List Outline}
    {kind other : String → Prop} (stands : StandsFor compile d entry text children kind)
    (same : ∀ raw, kind raw ↔ other raw) : StandsFor compile d entry text children other := by
  obtain ⟨names, selects, rest⟩ := stands
  refine ⟨names, ⟨selects.sublist, selects.nodup, fun raw => ?_⟩, rest⟩
  rw [selects.mem_iff, same]

end

section

variable {language : PatternLanguage} {text : String} {m : Meaning}

theorem standsFor_of_meaning? (lawful : language.Lawful) (d : Declared) (entry : Entry)
    (children : List Outline) (means : language.meaning? (wholeName text) = some m)
    (fits : language.fits (wholeName text) = true) :
    StandsFor language.compile d entry text children fun raw => m.Occurs raw.toList := by
  cases compiled : language.compile (wholeName text) with
  | none =>
      rcases (lawful.compile_eq_none_iff _).mp compiled with malformed | large
      · exact absurd (malformed.symm.trans means) nofun
      · exact absurd (large.symm.trans fits) nofun
  | some isMatch =>
      exact (standsFor_of_some d entry children compiled).congr fun raw =>
        lawful.isMatch_iff compiled means raw

theorem composes_wholeName (means : language.meaning? text = some m)
    (closed : ¬language.EndsInComment text) :
    language.Composes (wholeName text) (.followedBy .textStart (m.followedBy .textEnd)) := by
  have spelled : wholeName text = "^" ++ ("(?:" ++ text ++ ")" ++ "$") := by
    rw [← String.toList_inj]
    simp [wholeName]
  exact spelled ▸ .textStart (.textEnd (.group means closed))

end

/-- When a pattern is refused, and which names it stands for otherwise. One that is read by itself
and does not end in a comment is refused only for its size, and stands for the names that it matches
as a whole. -/
theorem expand_patternNode {language : PatternLanguage} (lawful : language.Lawful) (d : Declared)
    (entry : Entry) (text : String) (children : List Outline) :
    (language.meaning? (wholeName text) = none ∨ language.fits (wholeName text) = false →
      expand language.compile d (patternNode entry text children) = refused entry text) ∧
    (∀ m, language.meaning? (wholeName text) = some m → language.fits (wholeName text) = true →
      StandsFor language.compile d entry text children fun raw => m.Occurs raw.toList) ∧
    ∀ m, language.meaning? text = some m → ¬language.EndsInComment text →
      if language.fits (wholeName text) then
        StandsFor language.compile d entry text children fun raw => m.MatchesWhole raw.toList
      else expand language.compile d (patternNode entry text children) = refused entry text := by
  have refuses : language.meaning? (wholeName text) = none ∨
      language.fits (wholeName text) = false →
        expand language.compile d (patternNode entry text children) = refused entry text :=
    fun invalid => expand_patternNode_of_none d entry children
      ((lawful.compile_eq_none_iff _).mpr invalid)
  refine ⟨refuses, fun m => standsFor_of_meaning? lawful d entry children, ?_⟩
  intro m means closed
  split
  · next fits =>
      have between := lawful.meaning?_of_composes (composes_wholeName means closed)
      exact (standsFor_of_meaning? lawful d entry children between fits).congr fun _ =>
        Meaning.occurs_anchored_iff
  · next large => exact refuses (.inr (Bool.eq_false_iff.mpr large))

theorem expand_patternNode_plain : Pattern.language.Lawful ∧ ∃ m,
    Pattern.language.meaning? "A+|B" = some m ∧ ¬Pattern.language.EndsInComment "A+|B" ∧
      Pattern.language.fits (wholeName "A+|B") = true ∧
      StandsFor Pattern.language.compile (.ofNames "" "p" ["AA", "BA", "B"])
        { name := "", place := .data [] } "A+|B" [] fun raw => m.MatchesWhole raw.toList := by
  obtain ⟨m, means⟩ : ∃ m, Pattern.language.meaning? "A+|B" = some m := ⟨_, rfl⟩
  have closed : ¬Pattern.language.EndsInComment "A+|B" :=
    Pattern.lawful_language.not_endsInComment (Pattern.closesComments_of_not_mem (by decide))
  have fits : Pattern.language.fits (wholeName "A+|B") = true := by decide +kernel
  have stands := (expand_patternNode Pattern.lawful_language (.ofNames "" "p" ["AA", "BA", "B"])
    { name := "", place := .data [] } "A+|B" []).2.2 m means closed
  rw [if_pos fits] at stands
  exact ⟨Pattern.lawful_language, m, means, closed, fits, stands⟩

/-- A text that closes the group of the anchors is read although it is no pattern by itself, and
finds names that are longer. A comment takes the end of the group with it. -/
theorem not_expand_patternNode_alone :
    (Pattern.compile? "A)|(B").isNone ∧
      ((expand Pattern.compile? (.ofNames "" "p" ["Ax", "xB", "C"])
        (patternNode { name := "", place := .data [] } "A)|(B" [])).value.map (·.entry.name)) =
          ["p.Ax", "p.xB"] ∧
    (Pattern.compile? "(?x)A #c").isSome ∧
      ((expand Pattern.compile? (.ofNames "" "p" ["A"])
        (patternNode { name := "", place := .data [] } "(?x)A #c" [])).reports.map (·.category)) =
          [.invalidRegex] :=
  by decide +kernel

end Outline

end NodeWeave.Hierarchy
