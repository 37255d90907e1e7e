import NodeWeave.Proofs.Woven.PackageStatement

/-!
The header of a class. Main statement: the first header of a class in a text is found, with all that
stands up to its brace.
-/

namespace NodeWeave

open Text

/-- A name without blanks that ends with a character of words. -/
def IsClassName (name : List Char) : Prop :=
  isWordAt name.getLast? = true ∧ ∀ c ∈ name, isBlank c = false

/-- Behind this text the class is named, behind the keyword and as a whole word. -/
def NamesClass (name before text : List Char) : Prop :=
  ∃ gap behind, text = "class".toList ++ gap ++ name ++ behind ∧ gap ≠ [] ∧
    (∀ c ∈ gap, isBlank c = true) ∧ isWordAt before.getLast? = false ∧
    isWordAt behind.head? = false

/-- The class is named behind the first text, with these blanks in front of the name, and it is not
named before. -/
structure FirstHeader (name before gap behind : List Char) : Prop where
  gap_ne_nil : gap ≠ []
  isBlank_gap : ∀ c ∈ gap, isBlank c = true
  alone : isWordAt before.getLast? = false
  whole : isWordAt behind.head? = false
  first : ∀ earlier text, before ++ ("class".toList ++ gap ++ name ++ behind) = earlier ++ text →
    NamesClass name earlier text → before.length ≤ earlier.length

namespace ParserSupport

variable {name before gap clauses following text : List Char}

theorem splitFirst?_of_not_mem {c : Char} (free : c ∉ clauses) (following : List Char) :
    splitFirst? [c] (clauses ++ c :: following) = some (clauses, following) := by
  induction clauses with
  | nil => simp [splitFirst?, after?]
  | cons d clauses ih =>
      rw [List.mem_cons, not_or] at free
      rw [List.cons_append, splitFirst?, after?, if_neg free.1, ih free.2]
      rfl

theorem isBoundary_of_named (named : IsClassName name) (other next : Option Char) :
    isBoundary (name.getLast?.or other) next = !isWordAt next := by
  obtain ⟨word, -⟩ := named
  rcases last : name.getLast? with _ | c
  · rw [last] at word
    cases word
  · rw [last] at word
    rw [Option.some_or, isBoundary, word, Bool.true_bne]

theorem exists_of_afterName? {blanks : Nat} {found : List Char × List Char}
    (named : IsClassName name) (there : afterName? name text blanks = some found) :
    ∃ behind, text = text.take blanks ++ name ++ behind ∧ isWordAt behind.head? = false := by
  unfold afterName? at there
  split at there
  · cases there
  · next behind same =>
      dsimp only at there
      rw [isBoundary_of_named named] at there
      split at there
      · next whole =>
          refine ⟨behind, ?_, by simpa using whole⟩
          rw [List.append_assoc, ← after?_eq_some_iff.mp same, List.take_append_drop]
      · cases there

theorem afterName?_eq (named : IsClassName name)
    (whole : isWordAt (clauses ++ '\x7b' :: following).head? = false) (braceless : '\x7b' ∉ clauses)
    (gap : List Char) :
    afterName? name (gap ++ (name ++ (clauses ++ '\x7b' :: following))) gap.length =
      some (clauses, following) := by
  have found := after?_eq_some_iff.mpr (Eq.refl (name ++ (clauses ++ '\x7b' :: following)))
  unfold afterName?
  rw [List.drop_left, found]
  dsimp only
  rw [isBoundary_of_named named, whole, splitFirst?_of_not_mem braceless]
  rfl

theorem namesClass_of_headerHere? {found : List Char × List Char × List Char}
    (named : IsClassName name) (here : headerHere? name before.getLast? text = some found) :
    NamesClass name before text := by
  unfold headerHere? at here
  dsimp only at here
  split at here
  · cases here
  · next rest keyword =>
      split at here
      · cases here
      · next alone =>
          obtain ⟨k, listed, divided⟩ := List.exists_of_findSome?_eq_some here
          obtain ⟨⟨clauses, following⟩, there, -⟩ := Option.map_eq_some_iff.mp divided
          obtain ⟨behind, parts, whole⟩ := exists_of_afterName? named there
          have less := List.mem_range.mp listed
          generalize count : (rest.takeWhile isBlank).length - k = blanks at parts
          have short : rest.take blanks <+: rest.takeWhile isBlank := by
            rw [List.prefix_iff_eq_take.mp (List.takeWhile_prefix isBlank)]
            exact List.take_prefix_take_left (by omega)
          refine ⟨rest.take blanks, behind, ?_, ?_, ?_, by simpa using alone, whole⟩
          · rw [after?_eq_some_iff.mp keyword, List.append_assoc, List.append_assoc,
              ← List.append_assoc (rest.take blanks), ← parts]
          · intro none
            have lengths := congrArg List.length none
            have bound := (List.takeWhile_prefix isBlank (l := rest)).length_le
            rw [List.length_take, List.length_nil] at lengths
            omega
          · exact fun c mem => List.all_eq_true.mp List.all_takeWhile c (short.mem mem)

theorem headerHere?_eq (named : IsClassName name) (some : gap ≠ [])
    (blank : ∀ c ∈ gap, isBlank c = true) (alone : isWordAt before.getLast? = false)
    (whole : isWordAt (clauses ++ '\x7b' :: following).head? = false)
    (braceless : '\x7b' ∉ clauses) :
    headerHere? name before.getLast?
        ("class".toList ++ gap ++ name ++ (clauses ++ '\x7b' :: following)) =
      Option.some ("class".toList ++ gap ++ name, clauses, following) := by
  have keyword : after? "class".toList
      ("class".toList ++ gap ++ name ++ (clauses ++ '\x7b' :: following)) =
        Option.some (gap ++ (name ++ (clauses ++ '\x7b' :: following))) := by
    rw [after?_eq_some_iff]
    simp only [List.append_assoc]
  have blanks : (gap ++ (name ++ (clauses ++ '\x7b' :: following))).takeWhile isBlank = gap := by
    rw [List.takeWhile_append_of_pos blank]
    rcases begins : name with _ | ⟨c, rest⟩
    · have word := named.1
      rw [begins] at word
      cases word
    · simp [named.2 c (by simp [begins])]
  obtain ⟨count, length⟩ : ∃ count, gap.length = count + 1 :=
    Nat.exists_eq_succ_of_ne_zero (mt List.length_eq_zero_iff.mp some)
  unfold headerHere?
  dsimp only
  rw [keyword]
  dsimp only
  rw [alone, if_neg Bool.false_ne_true, blanks, length, List.range_succ_eq_map, List.findSome?_cons,
    Nat.sub_zero, ← length, afterName?_eq named whole braceless]
  simp

theorem findHeader?_of_here {passed opening : List Char}
    (here : headerHere? name passed.head? text = some (opening, clauses, following)) :
    findHeader? name passed text =
      some { before := passed.reverse, opening, clauses, following } := by
  cases text with
  | nil => cases here
  | cons c rest => rw [findHeader?, here]

end ParserSupport

/-- The header is the first one if its keyword is not found in front of it. -/
theorem FirstHeader.of_forall_drop {name before gap behind : List Char} (some : gap ≠ [])
    (blank : ∀ c ∈ gap, isBlank c = true) (alone : isWordAt before.getLast? = false)
    (whole : isWordAt behind.head? = false)
    (free : ∀ k < before.length,
      ¬ "class".toList <+: (before ++ ("class".toList ++ gap ++ name ++ behind)).drop k) :
    FirstHeader name before gap behind where
  gap_ne_nil := some
  isBlank_gap := blank
  alone := alone
  whole := whole
  first earlier text same named := by
    obtain ⟨_, _, rfl, _⟩ := named
    refine Nat.le_of_not_lt fun early => free earlier.length early ?_
    rw [same, List.drop_left]
    simp only [List.append_assoc]
    exact List.prefix_append _ _

theorem FirstHeader.findHeader?_eq {name before gap clauses following : List Char}
    (header : FirstHeader name before gap (clauses ++ '\x7b' :: following))
    (named : IsClassName name) (braceless : '\x7b' ∉ clauses) :
    ParserSupport.findHeader? name []
        (before ++ ("class".toList ++ gap ++ name ++ (clauses ++ '\x7b' :: following))) =
      some { before, opening := "class".toList ++ gap ++ name, clauses, following } := by
  -- By induction on what is left in front of the header, behind what has been passed.
  suffices passed : ∀ later earlier, earlier ++ later = before →
      ParserSupport.findHeader? name earlier.reverse
          (later ++ ("class".toList ++ gap ++ name ++ (clauses ++ '\x7b' :: following))) =
        some { before, opening := "class".toList ++ gap ++ name, clauses, following } from
    passed before [] rfl
  intro later
  induction later with
  | nil =>
      intro earlier same
      rw [List.append_nil] at same
      subst same
      have here := ParserSupport.headerHere?_eq named header.gap_ne_nil header.isBlank_gap
        header.alone header.whole braceless
      rw [← List.head?_reverse] at here
      rw [List.nil_append, ParserSupport.findHeader?_of_here here, List.reverse_reverse]
  | cons c later ih =>
      intro earlier same
      have found := ih (earlier ++ [c]) (by simpa using same)
      rw [List.reverse_concat] at found
      rw [List.cons_append, ParserSupport.findHeader?, found]
      split
      · next here =>
          rw [List.head?_reverse] at here
          have early := header.first earlier _ (by rw [← same, List.append_assoc]; rfl)
            (ParserSupport.namesClass_of_headerHere? named here)
          rw [← same, List.length_append, List.length_cons] at early
          omega
      · rfl

end NodeWeave
