import Mathlib.Tactic.ByContra
import NodeWeave.Text.Substitution

/-!
Whole occurrences of a word. They part a text, and replacing the word fills the gaps between the
parts with something else.
-/

namespace NodeWeave.Text

variable {word text new lead behind following : List Char} {before last : Option Char}

structure IsPlainWord (word : List Char) : Prop where
  ne_nil : word ≠ []
  chars : ∀ c ∈ word, isWord c = true

/-- The word begins and ends at boundaries where it stands between the two texts. -/
def StandsWhole (lead word behind : List Char) : Prop :=
  isBoundary lead.getLast? word.head? = true ∧ isBoundary word.getLast? behind.head? = true

def HasWord (word text : List Char) : Prop :=
  ∃ lead behind, text = lead ++ word ++ behind ∧ StandsWhole lead word behind

/-! ### Boundaries -/

theorem getLast?_cons_or {c : Char} :
    (c :: lead).getLast?.or before = lead.getLast?.or (some c) := by
  rw [List.getLast?_cons]
  cases lead.getLast? <;> rfl

theorem isWordAt_or_of_ne_nil (some : lead ≠ []) :
    isWordAt (lead.getLast?.or before) = isWordAt lead.getLast? := by
  rw [List.getLast?_eq_some_getLast some, Option.some_or]

theorem isWordAt_head?_of_takeWhile (none : text.takeWhile isWord = []) :
    isWordAt text.head? = false := by
  cases text with
  | nil => rfl
  | cons c rest =>
      rw [List.takeWhile_cons] at none
      split at none
      · cases none
      · next notWord => simpa [isWordAt] using notWord

theorem takeWhile_of_isWordAt_head? (bound : isWordAt text.head? = false) :
    text.takeWhile isWord = [] := by
  cases text with
  | nil => rfl
  | cons c rest =>
      rw [List.head?_cons, isWordAt] at bound
      exact List.takeWhile_cons_of_neg (by simp [bound])

theorem append_cases {front tail lead rest : List Char} (same : front ++ tail = lead ++ rest) :
    (∃ more, lead = front ++ more ∧ tail = more ++ rest) ∨
      ∃ more, more ≠ [] ∧ front = lead ++ more ∧ rest = more ++ tail := by
  rcases List.append_eq_append_iff.mp same with longer | ⟨more, rfl, rfl⟩
  · exact .inl longer
  · cases more with
    | nil => exact .inl ⟨[], by simp, rfl⟩
    | cons c more => exact .inr ⟨c :: more, nofun, rfl, rfl⟩

namespace IsPlainWord

theorem isWordAt_head? (plain : IsPlainWord word) : isWordAt word.head? = true := by
  rw [List.head?_eq_some_head plain.ne_nil]
  exact plain.chars _ (List.head_mem _)

theorem isWordAt_getLast? (plain : IsPlainWord word) : isWordAt word.getLast? = true := by
  rw [List.getLast?_eq_some_getLast plain.ne_nil]
  exact plain.chars _ (List.getLast_mem _)

theorem standsWhole_iff (plain : IsPlainWord word) : StandsWhole lead word behind ↔
    isWordAt lead.getLast? = false ∧ isWordAt behind.head? = false := by
  rw [StandsWhole, isBoundary, isBoundary, plain.isWordAt_head?, plain.isWordAt_getLast?]
  simp

/-- A plain word stands at the front where it is the longest run of word characters. -/
theorem takeWhile_append (plain : IsPlainWord word) (bound : isWordAt behind.head? = false) :
    (word ++ behind).takeWhile isWord = word := by
  rw [List.takeWhile_append_of_pos plain.chars, takeWhile_of_isWordAt_head? bound, List.append_nil]

theorem afterWord?_eq_some_iff (plain : IsPlainWord word) :
    afterWord? word before text = some following ↔
      text = word ++ following ∧ isWordAt before = false ∧ isWordAt following.head? = false := by
  have last : isWordAt (word.getLast?.or before) = true := by
    rw [isWordAt_or_of_ne_nil plain.ne_nil, plain.isWordAt_getLast?]
  unfold afterWord?
  cases found : after? word text with
  | none =>
      refine iff_of_false nofun fun split => ?_
      rw [after?_eq_some_iff.mpr split.1] at found
      cases found
  | some rest =>
      obtain rfl := after?_eq_some_iff.mp found
      have front : isWordAt (word ++ rest).head? = true := by
        rw [List.head?_append, List.head?_eq_some_head plain.ne_nil, Option.some_or,
          ← List.head?_eq_some_head plain.ne_nil, plain.isWordAt_head?]
      simp only [isBoundary, front, last, List.append_cancel_left_eq]
      constructor
      · intro same
        split at same
        · next bounds =>
            cases same
            simpa using bounds
        · cases same
      · rintro ⟨rfl, start, stop⟩
        simp [start, stop]

theorem afterWord?_of_takeWhile (plain : IsPlainWord word) (whole : text.takeWhile isWord = word)
    (start : isWordAt before = false) :
    afterWord? word before text = some (text.dropWhile isWord) := by
  refine plain.afterWord?_eq_some_iff.mpr ⟨?_, start, ?_⟩
  · rw [← whole, List.takeWhile_append_dropWhile]
  · have stop := List.head?_dropWhile_not isWord text
    cases ends : (text.dropWhile isWord).head? with
    | none => rfl
    | some c => rwa [ends] at stop

theorem eq_of_hasWord (plain : IsPlainWord word) (other : IsPlainWord text)
    (has : HasWord word text) : word = text := by
  obtain ⟨lead, behind, rfl, stands⟩ := has
  obtain ⟨start, stop⟩ := plain.standsWhole_iff.mp stands
  have noLead : lead = [] := by
    by_contra some
    have last := other.chars (lead.getLast some)
      (List.mem_append_left _ (List.mem_append_left _ (List.getLast_mem some)))
    rw [List.getLast?_eq_some_getLast some, isWordAt, last] at start
    cases start
  have noRest : behind = [] := by
    cases behind with
    | nil => rfl
    | cons c rest =>
        have next := other.chars c (List.mem_append_right _ List.mem_cons_self)
        rw [List.head?_cons, isWordAt, next] at stop
        cases stop
  rw [noLead, noRest, List.nil_append, List.append_nil]

end IsPlainWord

/-! ### Partings -/

/-- The parts of a text between the occurrences of a word. -/
structure Parting where
  first : List Char
  others : List (List Char)

namespace Parting

/-- The parts with a text in each gap between them. -/
def fill (parting : Parting) (gap : List Char) : List Char :=
  parting.first ++ parting.others.flatMap (gap ++ ·)

/-- There is a gap behind this much of the text that the word fills the gaps of. -/
def HasGap (parting : Parting) (word lead : List Char) : Prop :=
  ∃ earlier part later, parting.others = earlier ++ part :: later ∧
    lead = fill ⟨parting.first, earlier⟩ word

/-- The gaps between the parts are where the word stands whole in the text. -/
structure Parts (parting : Parting) (word text : List Char) : Prop where
  fill_eq : parting.fill word = text
  standsWhole_iff : ∀ lead behind, text = lead ++ word ++ behind →
    (StandsWhole lead word behind ↔ parting.HasGap word lead)

variable {parting : Parting} {c : Char} {first second part : List Char} {others : List (List Char)}

theorem fill_cons_first (gap : List Char) :
    fill ⟨c :: first, others⟩ gap = c :: fill ⟨first, others⟩ gap := rfl

theorem fill_cons_others (gap : List Char) :
    fill ⟨[], part :: others⟩ gap = gap ++ fill ⟨part, others⟩ gap := by
  simp [fill]

theorem hasGap_cons_first :
    HasGap ⟨c :: first, others⟩ word (c :: lead) ↔ HasGap ⟨first, others⟩ word lead := by
  simp only [HasGap, fill_cons_first, List.cons.injEq, true_and]

theorem not_hasGap_nil : ¬ HasGap ⟨c :: first, others⟩ word [] :=
  fun ⟨_, _, _, _, same⟩ => nomatch same

theorem hasGap_nil : HasGap ⟨[], part :: others⟩ word [] :=
  ⟨[], part, others, rfl, rfl⟩

theorem hasGap_cons_others (some : word ≠ []) :
    HasGap ⟨[], part :: others⟩ word (word ++ lead) ↔ HasGap ⟨part, others⟩ word lead := by
  constructor
  · rintro ⟨earlier, later, rest, listed, same⟩
    cases earlier with
    | nil => exact absurd (List.append_eq_nil_iff.mp same).1 some
    | cons start earlier =>
        rw [List.cons_append, List.cons.injEq] at listed
        obtain ⟨rfl, listed⟩ := listed
        rw [fill_cons_others, List.append_cancel_left_eq] at same
        exact ⟨earlier, later, rest, listed, same⟩
  · rintro ⟨earlier, later, rest, rfl, rfl⟩
    exact ⟨part :: earlier, later, rest, rfl, (fill_cons_others word).symm⟩

theorem length_le_of_hasGap (gap : HasGap ⟨[], part :: others⟩ word lead) (some : lead ≠ []) :
    word.length ≤ lead.length := by
  obtain ⟨earlier, later, rest, listed, rfl⟩ := gap
  cases earlier with
  | nil => exact absurd rfl some
  | cons start earlier =>
      rw [fill_cons_others, List.length_append]
      exact Nat.le_add_right _ _

theorem length_fill (parting : Parting) (gap : List Char) :
    (parting.fill gap).length =
      (parting.fill []).length + parting.others.length * gap.length := by
  obtain ⟨start, others⟩ := parting
  induction others with
  | nil => simp [fill]
  | cons part others ih =>
      simp only [fill, List.length_append, List.flatMap_cons, List.length_cons,
        List.length_nil] at ih ⊢
      rw [Nat.succ_mul]
      omega

theorem eq_of_fill_eq (gaps : parting.others ≠ [])
    (same : parting.fill first = parting.fill second) : first = second := by
  have lengths := congrArg List.length same
  rw [length_fill, length_fill parting second] at lengths
  have equal := Nat.eq_of_mul_eq_mul_left (List.length_pos_iff.mpr gaps)
    (Nat.add_left_cancel lengths)
  obtain ⟨part, others, listed⟩ := List.exists_cons_of_ne_nil gaps
  rw [fill, fill, listed, List.flatMap_cons, List.flatMap_cons, List.append_assoc,
    List.append_assoc] at same
  exact (List.append_inj (List.append_cancel_left same) equal).1

end Parting

/-! ### The search -/

/-- How the search parts a text that stands behind a character. -/
inductive Searches (word : List Char) : Option Char → List Char → Parting → Prop where
  | done {before : Option Char} : Searches word before [] ⟨[], []⟩
  | skip {before : Option Char} {c : Char} {rest first : List Char} {others : List (List Char)}
      (missed : afterWord? word before (c :: rest) = none)
      (tail : Searches word (some c) rest ⟨first, others⟩) :
      Searches word before (c :: rest) ⟨c :: first, others⟩
  | found {before : Option Char} {text following part : List Char} {others : List (List Char)}
      (here : afterWord? word before text = some following)
      (tail : Searches word word.getLast? following ⟨part, others⟩) :
      Searches word before text ⟨[], part :: others⟩

theorem exists_searches (plain : IsPlainWord word) {bound : Nat} (enough : text.length ≤ bound)
    (before : Option Char) : ∃ parting, Searches word before text parting ∧
      ∀ new, replaceWordChars word new bound before text = parting.fill new := by
  induction bound generalizing text before with
  | zero =>
      obtain rfl := List.eq_nil_of_length_eq_zero (Nat.le_zero.mp enough)
      exact ⟨⟨[], []⟩, .done, fun _ => rfl⟩
  | succ bound ih =>
      cases text with
      | nil => exact ⟨⟨[], []⟩, .done, fun _ => rfl⟩
      | cons c rest =>
          cases here : afterWord? word before (c :: rest) with
          | none =>
              obtain ⟨⟨first, others⟩, tail, filled⟩ :=
                ih (Nat.le_of_succ_le_succ enough) (some c)
              refine ⟨⟨c :: first, others⟩, .skip here tail, ?_⟩
              intro new
              rw [replaceWordChars, here]
              exact congrArg (c :: ·) (filled new)
          | some following =>
              have split := (plain.afterWord?_eq_some_iff.mp here).1
              have shorter : following.length ≤ bound := by
                have := congrArg List.length split
                have := List.length_pos_iff.mpr plain.ne_nil
                simp only [List.length_append, List.length_cons] at *
                omega
              obtain ⟨⟨part, others⟩, tail, filled⟩ := ih shorter word.getLast?
              refine ⟨⟨[], part :: others⟩, .found here tail, ?_⟩
              intro new
              rw [replaceWordChars, here, Parting.fill_cons_others, ← filled new]

namespace Searches

variable {parting : Parting}

theorem fill_eq (plain : IsPlainWord word) (search : Searches word before text parting) :
    parting.fill word = text := by
  induction search with
  | done => rfl
  | skip _ _ ih => exact congrArg _ ih
  | found here _ ih =>
      rw [Parting.fill_cons_others, ih, (plain.afterWord?_eq_some_iff.mp here).1]

theorem hasGap_iff (plain : IsPlainWord word) (search : Searches word before text parting)
    (split : text = lead ++ word ++ behind) : parting.HasGap word lead ↔
      isWordAt (lead.getLast?.or before) = false ∧ isWordAt behind.head? = false := by
  induction search generalizing lead with
  | done => simp [plain.ne_nil] at split
  | @skip before c rest first others missed tail ih =>
      cases lead with
      | nil =>
          refine iff_of_false Parting.not_hasGap_nil ?_
          intro ⟨start, stop⟩
          have here : afterWord? word before (c :: rest) = some behind :=
            plain.afterWord?_eq_some_iff.mpr ⟨split, start, stop⟩
          rw [missed] at here
          cases here
      | cons d lead =>
          rw [List.append_assoc, List.cons_append, List.cons.injEq, ← List.append_assoc] at split
          obtain ⟨rfl, split⟩ := split
          rw [Parting.hasGap_cons_first, ih split, getLast?_cons_or]
  | @found before text following part others here tail ih =>
      obtain ⟨rfl, start, stop⟩ := plain.afterWord?_eq_some_iff.mp here
      rw [List.append_assoc] at split
      -- An occurrence stands behind the one that was found, or begins in it.
      rcases append_cases split with ⟨rest, rfl, inside⟩ | ⟨rest, some, cut, split⟩
      · have last : (word ++ rest).getLast?.or before = rest.getLast?.or word.getLast? := by
          rw [List.getLast?_append, Option.or_assoc, List.getLast?_eq_some_getLast plain.ne_nil,
            Option.some_or]
        rw [Parting.hasGap_cons_others plain.ne_nil, last, ih (by rw [inside, List.append_assoc])]
      · by_cases front : lead = []
        · subst front
          obtain rfl : word = rest := cut
          obtain rfl := List.append_cancel_left split
          exact iff_of_true Parting.hasGap_nil ⟨start, stop⟩
        · refine iff_of_false ?_ ?_
          · intro gap
            have := Parting.length_le_of_hasGap gap front
            have := List.length_pos_iff.mpr some
            have := congrArg List.length cut
            simp only [List.length_append] at this
            omega
          · intro ⟨bound, _⟩
            have isLast : isWord (lead.getLast front) = true := by
              apply plain.chars
              rw [cut]
              exact List.mem_append_left _ (List.getLast_mem front)
            rw [List.getLast?_eq_some_getLast front, Option.some_or, isWordAt, isLast] at bound
            cases bound

/-- What the search comes to does not change the run of word characters that it stands in. -/
theorem takeWhile_fill (plain : IsPlainWord word) (search : Searches word before text parting)
    (within : isWordAt before = true) (new : List Char) :
    (parting.fill new).takeWhile isWord = text.takeWhile isWord := by
  induction search with
  | done => rfl
  | @skip before c rest first others missed tail ih =>
      rw [Parting.fill_cons_first, List.takeWhile_cons, List.takeWhile_cons]
      cases kind : isWord c with
      | true => rw [ih kind]
      | false => rfl
  | found here =>
      have start := (plain.afterWord?_eq_some_iff.mp here).2.1
      rw [within] at start
      cases start

/-- The word is left behind only where it is part of what is put in. The text in front of which the
result stands may end otherwise than that in front of the source, unless a word begins here. -/
theorem not_hasWord_fill (plain : IsPlainWord word) (search : Searches word before text parting)
    (absent : ¬ HasWord word new)
    (bound : isWordAt text.head? = true → isWordAt last = false → isWordAt before = false)
    (split : parting.fill new = lead ++ word ++ behind) :
    ¬ (isWordAt (lead.getLast?.or last) = false ∧ isWordAt behind.head? = false) := by
  induction search generalizing lead last with
  | done => simp [Parting.fill, plain.ne_nil] at split
  | @skip before c rest first others missed tail ih =>
      rw [Parting.fill_cons_first] at split
      cases lead with
      | nil =>
          -- The word would be the run of word characters here, in the source as in the result.
          intro ⟨start, stop⟩
          have whole := plain.takeWhile_append stop
          rw [List.nil_append] at split
          rw [← split, List.takeWhile_cons] at whole
          cases kind : isWord c with
          | false =>
              rw [kind] at whole
              exact plain.ne_nil whole.symm
          | true =>
              rw [kind, if_pos rfl, tail.takeWhile_fill plain kind,
                ← List.takeWhile_cons_of_pos kind] at whole
              have here := plain.afterWord?_of_takeWhile whole (bound kind start)
              rw [missed] at here
              cases here
      | cons d lead =>
          rw [List.append_assoc, List.cons_append, List.cons.injEq, ← List.append_assoc] at split
          obtain ⟨rfl, split⟩ := split
          rw [getLast?_cons_or]
          exact ih (fun _ same => same) split
  | @found before text following part others here tail ih =>
      obtain ⟨rfl, start, stop⟩ := plain.afterWord?_eq_some_iff.mp here
      rw [Parting.fill_cons_others, List.append_assoc] at split
      -- It stands behind what was put in, or begins there and ends there, or goes on behind it.
      rcases append_cases split with ⟨more, rfl, inside⟩ | ⟨more, _, rfl, split⟩
      · rw [List.getLast?_append, Option.or_assoc]
        rw [← List.append_assoc] at inside
        exact ih (fun word => by rw [stop] at word; cases word) inside
      · intro ⟨front, back⟩
        rcases append_cases split with ⟨close, rfl, rfl⟩ | ⟨close, some, rfl, inside⟩
        · refine absent ⟨lead, close, by rw [List.append_assoc], plain.standsWhole_iff.mpr ⟨?_, ?_⟩⟩
          · cases ends : lead.getLast? with
            | none => rfl
            | some d => rwa [ends] at front
          · cases close with
            | nil => rfl
            | cons d close => exact back
        · -- The next part begins at a boundary.
          have none := tail.takeWhile_fill plain plain.isWordAt_getLast? (lead ++ more)
          rw [takeWhile_of_isWordAt_head? stop] at none
          have ends := isWordAt_head?_of_takeWhile none
          obtain ⟨d, close, rfl⟩ := List.exists_cons_of_ne_nil some
          have starts := plain.chars d (List.mem_append_right _ List.mem_cons_self)
          rw [inside, List.cons_append, List.head?_cons, isWordAt, starts] at ends
          cases ends

theorem parts (plain : IsPlainWord word) (search : Searches word none text parting) :
    parting.Parts word text := by
  refine ⟨search.fill_eq plain, ?_⟩
  intro lead behind split
  rw [plain.standsWhole_iff, search.hasGap_iff plain split, Option.or_none]

end Searches

/-! ### Replacing a word -/

namespace Parting.Parts

variable {parting : Parting} {part : List Char} {later : List (List Char)}

theorem eq_gap (parts : parting.Parts word text) (listed : parting.others = part :: later) :
    text = parting.first ++ word ++ (part ++ later.flatMap (word ++ ·)) := by
  rw [← parts.fill_eq, fill, listed, List.flatMap_cons, List.append_assoc, List.append_assoc]

theorem standsWhole_gap (parts : parting.Parts word text)
    (listed : parting.others = part :: later) :
    StandsWhole parting.first word (part ++ later.flatMap (word ++ ·)) := by
  apply (parts.standsWhole_iff _ _ (parts.eq_gap listed)).mpr
  exact ⟨[], part, later, listed, (List.append_nil _).symm⟩

theorem hasWord_iff (parts : parting.Parts word text) :
    HasWord word text ↔ parting.others ≠ [] := by
  constructor
  · intro ⟨lead, behind, split, stands⟩
    obtain ⟨earlier, part, later, listed, _⟩ := (parts.standsWhole_iff lead behind split).mp stands
    rw [listed]
    exact List.append_ne_nil_of_right_ne_nil _ nofun
  · intro some
    obtain ⟨part, later, listed⟩ := List.exists_cons_of_ne_nil some
    exact ⟨_, _, parts.eq_gap listed, parts.standsWhole_gap listed⟩

/-- What is whole in the text of a gap is whole between the parts. -/
theorem hasWord_fill (plain : IsPlainWord word) (parts : parting.Parts word text)
    (some : parting.others ≠ []) (has : HasWord word new) : HasWord word (parting.fill new) := by
  obtain ⟨part, later, listed⟩ := List.exists_cons_of_ne_nil some
  obtain ⟨lead, behind, rfl, stands⟩ := has
  obtain ⟨front, back⟩ := plain.standsWhole_iff.mp (parts.standsWhole_gap listed)
  obtain ⟨start, stop⟩ := plain.standsWhole_iff.mp stands
  let gap := lead ++ word ++ behind
  refine ⟨parting.first ++ lead, behind ++ (part ++ later.flatMap (gap ++ ·)), ?_, ?_⟩
  · simp only [fill, listed, List.flatMap_cons, List.append_assoc, gap]
  · refine plain.standsWhole_iff.mpr ⟨?_, ?_⟩
    · rw [List.getLast?_append]
      cases ends : lead.getLast? with
      | none => exact front
      | some c => rwa [ends] at start
    · cases behind with
      | cons c behind => exact stop
      | nil =>
          cases part with
          | cons c part => exact back
          | nil =>
              cases later with
              | nil => rfl
              | cons next later =>
                  -- Two words with nothing between them stand at no boundary.
                  obtain ⟨c, rest, rfl⟩ := List.exists_cons_of_ne_nil plain.ne_nil
                  have starts := plain.chars c List.mem_cons_self
                  simp [isWordAt, starts] at back

end Parting.Parts

/-- Replacing a word fills the gaps between the parts of the text. -/
theorem exists_parts (plain : IsPlainWord word) (text : List Char) :
    ∃ parting : Parting, parting.Parts word text ∧
      ∀ new, replaceWordChars word new text.length none text = parting.fill new := by
  obtain ⟨parting, search, filled⟩ := exists_searches plain (Nat.le_refl text.length) none
  exact ⟨parting, search.parts plain, filled⟩

/-- A word is left if and only if it was there and is also part of what is put in its place. -/
theorem hasWord_replaceWordChars_iff (plain : IsPlainWord word) (new text : List Char) :
    HasWord word (replaceWordChars word new text.length none text) ↔
      HasWord word text ∧ HasWord word new := by
  obtain ⟨parting, search, filled⟩ := exists_searches plain (Nat.le_refl text.length) none
  have parts := search.parts plain
  rw [filled new, parts.hasWord_iff]
  constructor
  · intro ⟨lead, behind, split, stands⟩
    constructor
    · intro none
      have whole : text = lead ++ word ++ behind := by
        rw [← split, ← parts.fill_eq, Parting.fill, Parting.fill, none]
        rfl
      exact parts.hasWord_iff.mp ⟨lead, behind, whole, stands⟩ none
    · by_contra absent
      have apart : ¬ (isWordAt (lead.getLast?.or none) = false ∧ isWordAt behind.head? = false) :=
        search.not_hasWord_fill plain absent (fun _ same => same) split
      rw [Option.or_none, ← plain.standsWhole_iff] at apart
      exact apart stands
  · intro ⟨gaps, has⟩
    exact parts.hasWord_fill plain gaps has

end NodeWeave.Text
