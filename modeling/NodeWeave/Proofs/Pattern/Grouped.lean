import NodeWeave.Proofs.Pattern.Embedding

/-!
The steps of reading a pattern carry on with more text behind. Main statement: where the reading of
a text comes to an end, a closing parenthesis behind the text ends the same alternatives.
-/

namespace NodeWeave.Pattern.Read

variable {α β : Type} {base after : List Char} {s : ReadState}

/-! ### Steps that read no comments -/

theorem embeds_charOf (code : Nat) : Embeds base after s (charOf code) (charOf code) := by
  rw [charOf]
  split
  · exact .pure _
  · exact .failure _

theorem embeds_words : Embeds base after s words words :=
  .get_bind (.pure _)

theorem namedSet?_eq_none {name : List Char} (mem : ')' ∈ name) :
    namedSet? (String.ofList name) = none := by
  unfold namedSet?
  split
  case h_15 => rfl
  all_goals
    next same =>
      have spelled := congrArg String.toList same
      rw [String.toList_ofList] at spelled
      rw [spelled] at mem
      exact absurd mem (by decide)

theorem embeds_folded (set : CharSet) : Embeds base after s (folded set) (folded set) :=
  .get_bind (.pure _)

theorem embeds_namedClass? {c : Char} {rest : List Char} (left : s.rest = c :: rest) :
    Embeds base after s namedClass? namedClass? := by
  refine .of_inside fun inside => .get_bind (.drop_bind left ?_)
  refine .bind (.take? (by decide)) fun _ _ _ => ?_
  refine .ite Iff.rfl (.bind (.set inside) fun _ _ _ => .pure _) ?_
  refine .bind (.take? (by decide)) fun negated s' _ => .get_bind ?_
  by_cases colon : ':' ∈ s'.rest
  · have same : (s'.inGroup after).rest.takeWhile (· != ':') = s'.rest.takeWhile (· != ':') :=
      takeWhile_ne_append colon
    dsimp only
    rw [same]
    refine .bind (.drop _ (List.takeWhile_prefix _).length_le) fun _ _ _ => ?_
    refine .bind (.take? (by decide)) fun _ _ _ => .ite Iff.rfl ?_ ?_
    · split
      · exact .bind (embeds_folded _) fun _ _ _ => .pure _
      · exact .bind (.set inside) fun _ _ _ => .pure _
    · exact .bind (.set inside) fun _ _ _ => .pure _
  · -- the name would hold the parenthesis, so none has it
    have allTaken : s'.rest.takeWhile (· != ':') = s'.rest :=
      List.takeWhile_eq_self_iff.mpr fun d mem => bne_iff_ne.mpr fun same => colon (same ▸ mem)
    have longer : ')' ∈ (s'.inGroup after).rest.takeWhile (· != ':') := by
      show ')' ∈ (s'.rest ++ ')' :: after).takeWhile (· != ':')
      rw [List.takeWhile_append, if_pos (congrArg List.length allTaken)]
      simp
    intro _ result s'' done
    rw [allTaken, drop_bind_apply, take?_bind_apply, if_neg (by simp)] at done
    cases done
    refine ⟨inside, ?_⟩
    dsimp only
    rw [drop_bind_apply, take?_bind_apply, namedSet?_eq_none longer]
    split <;> rfl

theorem eq_of_namedClass?_eq_none {s' : ReadState} (done : namedClass? s = some (none, s')) :
    s' = s := by
  obtain ⟨_, _, ⟨⟩, done⟩ := bind_eq_some_iff.mp done
  obtain ⟨_, _, _, done⟩ := bind_eq_some_iff.mp done
  rw [take?_bind_apply] at done
  split at done
  · obtain ⟨_, _, _, done⟩ := bind_eq_some_iff.mp done
    obtain ⟨_, _, ⟨⟩, done⟩ := bind_eq_some_iff.mp done
    rw [drop_bind_apply, take?_bind_apply] at done
    split at done
    · rw [if_pos rfl] at done
      generalize namedSet? _ = found at done
      cases found <;> cases done
      rfl
    · cases done
      rfl
  · cases done
    rfl

theorem embeds_operator? : Embeds base after s operator? operator? := by
  refine .bind (.take? (by decide)) fun _ _ _ => .ite Iff.rfl (.pure _) ?_
  refine .bind (.take? (by decide)) fun _ _ _ => .ite Iff.rfl (.pure _) ?_
  exact .bind (.take? (by decide)) fun _ _ _ => .ite Iff.rfl (.pure _) (.pure _)

theorem embeds_itemSet (item : Atom) :
    Embeds base after s (itemSet item) (itemSet item) := by
  unfold itemSet
  split
  · exact .pure _
  · exact .failure _

theorem embeds_itemRange (first last : Atom) :
    Embeds base after s (itemRange first last) (itemRange first last) := by
  unfold itemRange
  split
  · exact .ite Iff.rfl (.pure _) (.failure _)
  · exact .failure _

theorem embeds_bytesOnly (set : CharSet) : Embeds base after s (bytesOnly set) (bytesOnly set) := by
  refine .get_bind (.ite Iff.rfl (.pure _) ?_)
  split
  · exact .failure _
  · exact .pure _

theorem embeds_combined (left : Option (Nested CharSet × SetOperator))
    (sets : List (Nested CharSet)) :
    Embeds base after s (combined left sets) (combined left sets) := by
  cases left with
  | none => exact .pure _
  | some found =>
      exact .bind (embeds_folded _) fun _ _ _ => .bind (embeds_folded _) fun _ _ _ => .pure _

/-- Flags end in front of a colon or a parenthesis. -/
theorem embeds_readFlags {less more : Nat} (le : less ≤ more) (negative : Bool) (seen : List Char)
    (flags : Flags) :
    Embeds base after s (readFlags less negative seen flags)
      (readFlags more negative seen flags) := by
  induction less generalizing more negative seen flags s with
  | zero => exact .failure _
  | succ less ih =>
      obtain ⟨more, rfl⟩ : ∃ n, more = n + 1 := ⟨more - 1, by omega⟩
      have leRest := Nat.le_of_succ_le_succ le
      rw [readFlags, readFlags]
      refine .peek_bind (fun c rest left => ?_) fun _ => .failure _
      dsimp only
      refine .ite Iff.rfl (.ite Iff.rfl (.failure _) (.pure _)) ?_
      refine .ite Iff.rfl (.failure _) (.ite Iff.rfl ?_ ?_)
      · exact .drop_bind left (ih leRest _ _ _)
      · split
        · exact .drop_bind left (ih leRest _ _ _)
        · exact .failure _

theorem exists_rest_of_readFlags {bound : Nat} {negative : Bool} {seen : List Char} {flags : Flags}
    {result : Flags × List Char} {s' : ReadState}
    (done : readFlags bound negative seen flags s = some (result, s')) :
    ∃ c rest, s'.rest = c :: rest := by
  induction bound generalizing negative seen flags s with
  | zero => cases done
  | succ bound ih =>
      rw [readFlags, peek_bind_apply] at done
      cases left : s.rest with
      | nil =>
          rw [left] at done
          cases done
      | cons c rest =>
          rw [left] at done
          dsimp only [List.head?_cons] at done
          split at done
          · split at done <;> cases done
            exact ⟨c, rest, left⟩
          · split at done
            · cases done
            · split at done
              · exact ih done
              · generalize flags.set? c (!negative) = found at done
                cases found with
                | none => cases done
                | some changed => exact ih done

theorem embeds_addName (name : List Char) :
    Embeds base after s (addName name) (addName name) := by
  cases name with
  | nil => exact .failure _
  | cons c rest =>
      refine .of_inside fun inside => ?_
      refine .ite Iff.rfl (.failure_bind _) (.get_bind (.ite Iff.rfl (.failure_bind _) ?_))
      exact .set inside

theorem embeds_groupName : Embeds base after s groupName groupName :=
  .upTo_bind '>' fun name _ => embeds_addName name

theorem embeds_charPattern (c : Char) :
    Embeds base after s (charPattern c) (charPattern c) :=
  .get_bind (.ite Iff.rfl (.pure _) (.ite Iff.rfl (.pure _) (.ite Iff.rfl (.pure _) (.pure _))))

theorem embeds_atomPattern (atom : Atom) :
    Embeds base after s (atomPattern atom) (atomPattern atom) := by
  cases atom with
  | char c => exact embeds_charPattern c
  | set | look => exact .pure _
  | dot =>
      refine .get_bind (.ite Iff.rfl (.failure _) (.ite Iff.rfl (.pure _) ?_))
      exact .ite Iff.rfl (.pure _) (.pure _)

theorem embeds_repeatLast (least : Nat) (most : Option Nat)
    (parts : List (Option (Nested Pattern))) :
    Embeds base after s (repeatLast least most parts) (repeatLast least most parts) := by
  unfold repeatLast
  split
  · exact .pure _
  · exact .failure _

section

variable (closed : ClosesComments base)

include closed

theorem embeds_skipBlanks : Embeds base after s skipBlanks skipBlanks := by
  intro inside _ s' done
  obtain ⟨_, rfl⟩ := Prod.mk.inj (Option.some.inj done)
  have same := withoutBlanks_append (closed.of_suffix inside) after
  have skipped : skipBlanks (s.inGroup after) = some ((), if s.flags.ignoresBlanks then
      { s.inGroup after with
        rest := withoutBlanks ((s.rest ++ ')' :: after).length + 1) (s.rest ++ ')' :: after) }
      else s.inGroup after) := rfl
  rw [skipped, same]
  dsimp only
  split
  · exact ⟨(withoutBlanks_suffix _ _).trans inside, rfl⟩
  · exact ⟨inside, rfl⟩

theorem embeds_dropAndSkip {c : Char} {rest : List Char} (left : s.rest = c :: rest) :
    Embeds base after s dropAndSkip dropAndSkip :=
  .drop_bind left (embeds_skipBlanks closed)

/-! ### Single characters -/

theorem embeds_takeKind {kind : Char → Bool} (stops : kind ')' = false) {less more : Nat}
    (le : less ≤ more) : Embeds base after s (takeKind kind less) (takeKind kind more) := by
  induction less generalizing more s with
  | zero => exact .failure _
  | succ less ih =>
      obtain ⟨more, rfl⟩ : ∃ n, more = n + 1 := ⟨more - 1, by omega⟩
      rw [takeKind, takeKind]
      refine .peek_bind (fun c rest left => ?_) fun _ => ?_
      · dsimp only
        split
        · exact .bind (embeds_dropAndSkip closed left) fun _ _ _ =>
            .bind (ih (Nat.le_of_succ_le_succ le)) fun _ _ _ => .pure _
        · exact .pure _
      · dsimp only
        rw [stops]
        exact .pure _

theorem embeds_hexDigits (n code : Nat) :
    Embeds base after s (hexDigits n code) (hexDigits n code) := by
  induction n generalizing code s with
  | zero => exact .pure _
  | succ n ih =>
      rw [hexDigits]
      refine .peek_bind (fun c rest left => ?_) fun _ => .failure _
      dsimp only [Option.bind_some]
      split
      · exact .bind (embeds_dropAndSkip closed left) fun _ _ _ => ih _
      · exact .failure _

theorem embeds_hexBraced {less more : Nat} (le : less ≤ more) (digits code : Nat) :
    Embeds base after s (hexBraced less digits code) (hexBraced more digits code) := by
  induction less generalizing more digits code s with
  | zero => exact .failure _
  | succ less ih =>
      obtain ⟨more, rfl⟩ : ∃ n, more = n + 1 := ⟨more - 1, by omega⟩
      rw [hexBraced, hexBraced]
      refine .next_bind_of_ne (by decide) (fun rest left => ?_) ?_
      · refine .bind (embeds_dropAndSkip closed left) fun _ _ _ => ?_
        split
        · exact .failure _
        · exact .pure _
      · refine .peek_bind (fun c rest left => ?_) fun _ => .failure _
        dsimp only [Option.bind_some]
        split
        · exact .bind (embeds_dropAndSkip closed left) fun _ _ _ =>
            ih (Nat.le_of_succ_le_succ le) _ _
        · exact .failure _

theorem embeds_hexChar {c : Char} {rest : List Char} (left : s.rest = c :: rest) (digits : Nat) :
    Embeds base after s (hexChar digits) (hexChar digits) := by
  refine .bind (embeds_dropAndSkip closed left) fun _ s' _ => ?_
  refine .next_bind_of_ne (by decide) (fun rest left => ?_) ?_
  · refine .bind (embeds_dropAndSkip closed left) fun _ _ _ => .bound_bind fun _ _ le => ?_
    exact .bind (embeds_hexBraced closed le 0 0) fun _ _ _ => embeds_charOf _
  · exact .bind (embeds_hexDigits closed digits 0) fun _ _ _ => embeds_charOf _

/-! ### Escapes -/

theorem embeds_propertyName {c : Char} {rest : List Char} (left : s.rest = c :: rest) :
    Embeds base after s propertyName propertyName := by
  refine .bind (embeds_dropAndSkip closed left) fun _ s' _ => ?_
  refine .next_bind_of_ne (by decide) (fun rest left => ?_) ?_
  · exact .bind (embeds_dropAndSkip closed left) fun _ _ _ => .upTo_bind _ fun _ _ => .pure _
  · refine .peek_bind (fun c rest left => ?_) fun _ => .failure _
    split
    · exact .failure _
    · exact .failure _
    · next taken =>
        cases taken
        exact .bind (embeds_dropAndSkip closed left) fun _ _ _ => .pure _

theorem embeds_boundaryName? : Embeds base after s boundaryName? boundaryName? := by
  refine .of_inside fun inside => .next_bind_of_ne (by decide) (fun rest left => ?_) (.pure _)
  refine .get_bind (.bind (embeds_dropAndSkip closed left) fun _ _ _ => ?_)
  refine .failAtEnd_bind fun more => .peek_bind (fun c _ _ => ?_) fun none => absurd none more
  refine .ite Iff.rfl (.bind (.set inside) fun _ _ _ => .pure _) ?_
  refine .bound_bind fun _ _ le => .bind (embeds_takeKind closed (by decide) le) fun _ _ _ => ?_
  refine .next_bind_of_ne (by decide) (fun rest left => ?_) (.failure _)
  exact .drop_bind left (.pure _)

theorem embeds_escape {c : Char} {rest : List Char} (left : s.rest = c :: rest) :
    Embeds base after s escape escape := by
  refine .drop_bind left (.peek_bind (fun c rest left => ?_) fun _ => .failure _)
  dsimp only
  split
  · exact .failure _
  split
  · exact .bind (embeds_hexChar closed left 2) fun _ _ _ => .pure _
  split
  · exact .bind (embeds_hexChar closed left 4) fun _ _ _ => .pure _
  split
  · exact .bind (embeds_hexChar closed left 8) fun _ _ _ => .pure _
  split
  · refine .bind (embeds_propertyName closed left) fun name _ _ => ?_
    split
    · exact .get_bind (.ite Iff.rfl (.bind (embeds_folded _) fun _ _ _ => .pure _) (.failure _))
    · exact .failure _
  refine .drop_bind left ?_
  split
  · exact .get_bind (.ite Iff.rfl (.failure_bind _) (.pure _))
  split
  · exact .pure _
  have word (look : CharSet → Look) {s : ReadState} : Embeds base after s
      (do return Atom.look (look (← words))) (do return Atom.look (look (← words))) :=
    .bind embeds_words fun _ _ _ => .pure _
  split
  case h_12 =>
    refine .bind (embeds_boundaryName? closed) fun _ _ _ => ?_
    split
    case h_6 => exact .failure _
    all_goals exact word _
  case h_13 => exact .failure _
  all_goals first | exact word _ | exact .pure _

/-! ### Classes -/

theorem embeds_classItem : Embeds base after s classItem classItem := by
  refine .peek_bind (fun c rest left => ?_) fun _ => .failure _
  split
  · exact .failure _
  · exact embeds_escape closed left
  · next taken =>
      cases taken
      exact .drop_bind left (.pure _)

theorem embeds_classStart {less more : Nat} (le : less ≤ more) (sets : List CharSet) :
    Embeds base after s (classStart less sets) (classStart more sets) := by
  induction less generalizing more sets s with
  | zero => exact .failure _
  | succ less ih =>
      obtain ⟨more, rfl⟩ : ∃ n, more = n + 1 := ⟨more - 1, by omega⟩
      rw [classStart, classStart]
      refine .failAtEnd_bind fun _ => .next_bind_of_ne (by decide) (fun rest left => ?_) ?_
      · exact .bind (embeds_dropAndSkip closed left) fun _ _ _ => ih (Nat.le_of_succ_le_succ le) _
      · refine .next_bind_of_ne (by decide) (fun rest left => ?_) (.pure _)
        split
        · exact .bind (embeds_dropAndSkip closed left) fun _ _ _ => .failAtEnd_bind fun _ => .pure _
        · exact .pure _

theorem embeds_peekBehind_bind {c : Char} {rest : List Char} {next nextOther : Option Char → Read β}
    (left : s.rest = c :: rest)
    (more : ∀ d, Embeds base after s (next (some d)) (nextOther (some d)))
    (atEnd : Embeds base after s (next none) (nextOther (some ')'))) :
    Embeds base after s (peekBehind >>= next) (peekBehind >>= nextOther) := by
  refine .of_inside fun inside => .get_bind ?_
  have within : rest <:+ base := (List.suffix_cons c rest).trans (left ▸ inside)
  have same := withoutBlanks_append (closed.of_suffix within) after
  have ahead : ∀ text : List Char, Embeds base after s (next text.head?)
      (nextOther (text ++ ')' :: after).head?) := by
    rintro (_ | ⟨d, _⟩)
    · exact atEnd
    · exact more d
  have behind : s.rest.drop 1 = rest := by rw [left]; rfl
  have behindToo : (s.inGroup after).rest.drop 1 = rest ++ ')' :: after := by
    show (s.rest ++ ')' :: after).drop 1 = _
    rw [left]
    rfl
  rw [behind, behindToo, same, ReadState.flags_inGroup]
  by_cases ignores : s.flags.ignoresBlanks = true
  · rw [if_pos ignores, if_pos ignores]
    exact ahead _
  · rw [if_neg ignores, if_neg ignores]
    exact ahead _

theorem embeds_classRange : Embeds base after s classRange classRange := by
  refine .bind (embeds_classItem closed) fun first _ _ => ?_
  refine .bind (embeds_skipBlanks closed) fun _ s' _ => .failAtEnd_bind fun more => ?_
  obtain ⟨c, rest, left⟩ := List.exists_cons_of_ne_nil more
  have single : Embeds base after s' (itemSet first) (itemSet first) := embeds_itemSet first
  refine embeds_peekBehind_bind closed left (fun d => ?_) ?_
  · refine .next_bind_of_ne (by decide) (fun rest left => .ite Iff.rfl single ?_) single
    refine .bind (embeds_dropAndSkip closed left) fun _ _ _ => .failAtEnd_bind fun _ => ?_
    exact .bind (embeds_classItem closed) fun last _ _ => embeds_itemRange first last
  · refine .next_bind_of_ne (by decide) (fun rest left => ?_) single
    refine .bind (embeds_dropAndSkip closed left) fun _ _ _ => .failAtEnd_bind fun _ => ?_
    exact .bind (embeds_classItem closed) fun last _ _ => embeds_itemRange first last

mutual
theorem embeds_bracketed {less more : Nat} (le : less ≤ more) {s : ReadState} {c : Char}
    {rest : List Char} (left : s.rest = c :: rest) :
    Embeds base after s (bracketed less) (bracketed more) := by
  cases less with
  | zero => exact .failure _
  | succ less =>
      obtain ⟨more, rfl⟩ : ∃ n, more = n + 1 := ⟨more - 1, by omega⟩
      have leRest := Nat.le_of_succ_le_succ le
      rw [bracketed, bracketed]
      refine .bind (embeds_dropAndSkip closed left) fun _ _ _ => .failAtEnd_bind fun _ => ?_
      refine .next_bind_of_ne (by decide) (fun rest left => ?_) ?_
      · refine .bind (embeds_dropAndSkip closed left) fun _ _ _ => .failAtEnd_bind fun _ => ?_
        refine .bind (embeds_classStart closed le []) fun _ _ _ => ?_
        refine .bind (embeds_classBody leRest none _) fun _ _ _ => ?_
        exact .bind (embeds_folded _) fun _ _ _ => .pure _
      · refine .bind (embeds_classStart closed le []) fun _ _ _ => ?_
        refine .bind (embeds_classBody leRest none _) fun _ _ _ => ?_
        exact .bind (embeds_folded _) fun _ _ _ => .pure _

theorem embeds_classBody {less more : Nat} (le : less ≤ more) {s : ReadState}
    (left : Option (Nested CharSet × SetOperator)) (sets : List (Nested CharSet)) :
    Embeds base after s (classBody less left sets) (classBody more left sets) := by
  cases less with
  | zero => exact .failure _
  | succ less =>
      obtain ⟨more, rfl⟩ : ∃ n, more = n + 1 := ⟨more - 1, by omega⟩
      have leRest := Nat.le_of_succ_le_succ le
      rw [classBody, classBody]
      refine .bind (embeds_skipBlanks closed) fun _ _ _ => ?_
      refine .peek_bind (fun c rest ahead => ?_) fun _ => .failure _
      split
      · exact .failure _
      · refine .bind (embeds_namedClass? ahead) fun found _ named => ?_
        cases found with
        | some value => exact embeds_classBody leRest left _
        | none =>
            obtain rfl := eq_of_namedClass?_eq_none named
            exact .bind (embeds_bracketed leRest ahead) fun _ _ _ => embeds_classBody leRest left _
      · exact .drop_bind ahead (embeds_combined left sets)
      · refine .bind embeds_operator? fun found _ _ => ?_
        cases found with
        | some op =>
            exact .bind (embeds_combined left sets) fun _ _ _ => embeds_classBody leRest _ _
        | none =>
            exact .bind (embeds_classRange closed) fun _ _ _ => embeds_classBody leRest left _
end

/-! ### Groups and repetitions -/

theorem embeds_opening {c : Char} {rest : List Char} (left : s.rest = c :: rest) :
    Embeds base after s opening opening := by
  refine .bind (embeds_dropAndSkip closed left) fun _ _ _ => ?_
  refine .bind (.orM (.take? (by decide)) fun _ => .orM (.take? (by decide)) fun _ =>
    .orM (.take? (by decide)) fun _ => .take? (by decide)) fun _ _ _ => .ite Iff.rfl (.failure _) ?_
  refine .bind (.orM (.take? (by decide)) fun _ => .take? (by decide)) fun _ _ _ => ?_
  refine .ite Iff.rfl (.bind embeds_groupName fun _ _ _ => .pure _) ?_
  refine .bind (.take? (by decide)) fun _ _ _ => .ite Iff.rfl ?_ (.pure _)
  refine .bound_bind fun _ _ le => .get_bind (.bind (embeds_readFlags le _ _ _) ?_)
  rintro ⟨flags, seen⟩ s' read
  obtain ⟨c, rest, left⟩ := exists_rest_of_readFlags read
  refine .next_bind (fun _ _ => .drop_bind left ?_) (fun _ => .drop_bind left ?_) fun none => ?_
  · exact .ite Iff.rfl (.failure_bind _) (.modify_bind id (fun _ => rfl) (.pure _))
  · exact .modify_bind id (fun _ => rfl) (.pure _)
  · exact absurd (left.symm.trans none) (List.cons_ne_nil c rest)

theorem embeds_decimal : Embeds base after s decimal decimal := by
  have skipAll {s : ReadState} {next : Unit → Read (Option Nat)}
      (rest : ∀ s', Embeds base after s' (next ()) (next ())) :
      Embeds base after s
        ((modify fun s => { s with rest := s.rest.dropWhile Text.isBlank }) >>= next)
        ((modify fun s => { s with rest := s.rest.dropWhile Text.isBlank }) >>= next) := by
    refine .modify_bind (List.dropWhile_suffix _).trans (fun _ => ?_) (rest _)
    rw [ReadState.inGroup, ReadState.inGroup, dropWhile_isBlank_append]
  refine skipAll fun _ => .bound_bind fun _ _ le => ?_
  refine .bind (embeds_takeKind closed (by decide) le) fun _ _ _ => skipAll fun _ => ?_
  refine .bind (embeds_skipBlanks closed) fun _ _ _ => .ite Iff.rfl (.pure _) ?_
  exact .ite Iff.rfl (.pure _) (.failure _)

theorem embeds_counted {c : Char} {rest : List Char} (left : s.rest = c :: rest) :
    Embeds base after s counted counted := by
  have closing (least : Nat) (most : Option Nat) {s : ReadState} : Embeds base after s
      (do if !(← next '\x7d') then failure
          dropAndSkip
          if ← next '?' then drop
          if most.any (· < least) then failure
          return (least, most))
      (do if !(← next '\x7d') then failure
          dropAndSkip
          if ← next '?' then drop
          if most.any (· < least) then failure
          return (least, most)) := by
    refine .next_bind_of_ne (by decide) (fun _ left => ?_) (.failure_bind _)
    refine .bind (embeds_dropAndSkip closed left) fun _ _ _ => ?_
    have ends {s : ReadState} : Embeds base after s
        (do if most.any (· < least) then failure
            return (least, most))
        (do if most.any (· < least) then failure
            return (least, most)) :=
      .ite Iff.rfl (.failure_bind _) (.pure _)
    exact .next_bind_of_ne (by decide) (fun _ left => .drop_bind left ends) ends
  refine .bind (embeds_dropAndSkip closed left) fun _ _ _ => .failAtEnd_bind fun _ => ?_
  refine .bind (embeds_decimal closed) fun least _ _ => ?_
  cases least with
  | none => exact .failure _
  | some least =>
      refine .failAtEnd_bind fun _ => .next_bind_of_ne (by decide) (fun _ left => ?_) ?_
      · refine .bind (embeds_dropAndSkip closed left) fun _ _ _ => .failAtEnd_bind fun _ => ?_
        refine .next_bind_of_ne (by decide) (fun _ left => closing least none) ?_
        refine .bind (embeds_decimal closed) fun most _ _ => ?_
        cases most with
        | none => exact .failure _
        | some most => exact closing least (some most)
      · exact closing least (some least)

theorem embeds_primitive : Embeds base after s primitive primitive := by
  refine .get_bind (.peek_bind (fun c rest left => ?_) fun _ => .failure _)
  split
  · exact .failure _
  · exact .bind (embeds_escape closed left) fun _ _ _ => embeds_atomPattern _
  · exact .drop_bind left (embeds_atomPattern _)
  · exact .drop_bind left (.pure _)
  · exact .drop_bind left (.pure _)
  · next taken =>
      cases taken
      exact .drop_bind left (embeds_charPattern _)

end

/-! ### Alternatives -/

mutual
theorem embeds_alternatives (closed : ClosesComments base) {less more : Nat} (le : less ≤ more)
    {s : ReadState} : Embeds base after s (alternatives less) (alternatives more) := by
  cases less with
  | zero => exact .failure _
  | succ less =>
      obtain ⟨more, rfl⟩ : ∃ n, more = n + 1 := ⟨more - 1, by omega⟩
      have leRest := Nat.le_of_succ_le_succ le
      rw [alternatives, alternatives]
      exact .bind (embeds_parts closed leRest []) fun _ _ _ =>
        .bind (embeds_others closed leRest) fun _ _ _ => .pure _

theorem embeds_others (closed : ClosesComments base) {less more : Nat} (le : less ≤ more)
    {s : ReadState} : Embeds base after s (others less) (others more) := by
  cases less with
  | zero => exact .failure _
  | succ less =>
      obtain ⟨more, rfl⟩ : ∃ n, more = n + 1 := ⟨more - 1, by omega⟩
      have leRest := Nat.le_of_succ_le_succ le
      rw [others, others]
      refine .next_bind_of_ne (by decide) (fun _ left => .drop_bind left ?_) (.pure _)
      exact .bind (embeds_parts closed leRest []) fun _ _ _ =>
        .bind (embeds_others closed leRest) fun _ _ _ => .pure _

/-- The end of the text ends the parts, and so does the parenthesis. -/
theorem embeds_parts (closed : ClosesComments base) {less more : Nat} (le : less ≤ more)
    {s : ReadState} (acc : List (Option (Nested Pattern))) :
    Embeds base after s (parts less acc) (parts more acc) := by
  cases less with
  | zero => exact .failure _
  | succ less =>
      obtain ⟨more, rfl⟩ : ∃ n, more = n + 1 := ⟨more - 1, by omega⟩
      have leRest := Nat.le_of_succ_le_succ le
      have repeated (least : Nat) (most : Option Nat) {s : ReadState} {c : Char} {rest : List Char}
          (left : s.rest = c :: rest) : Embeds base after s
            (do let acc ← repeatLast least most acc
                drop
                if ← next '?' then drop
                parts less acc)
            (do let acc ← repeatLast least most acc
                drop
                if ← next '?' then drop
                parts more acc) := by
        unfold repeatLast
        split
        · rw [pure_bind, pure_bind]
          refine .drop_bind left
            (.next_bind_of_ne (by decide) (fun _ left => .drop_bind left ?_) ?_)
          · exact embeds_parts closed leRest _
          · exact embeds_parts closed leRest _
        · exact .failure_bind _
      rw [parts, parts]
      refine .bind (embeds_skipBlanks closed) fun _ _ _ => ?_
      refine .peek_bind (fun c rest left => ?_) fun _ => .pure _
      split
      · exact .pure _
      · exact .pure _
      · exact .pure _
      · refine .get_bind (.bind (embeds_opening closed left) fun opened _ _ => ?_)
        cases opened with
        | flags => exact embeds_parts closed leRest _
        | group =>
            refine .bind (embeds_alternatives closed leRest) fun _ _ _ => ?_
            refine .next_bind (fun _ left => .drop_bind left ?_) (fun _ => .failure_bind _)
              fun _ => .failure_bind _
            exact .modify_bind id (fun _ => rfl) (embeds_parts closed leRest _)
      · refine .bind (embeds_bracketed closed leRest left) fun _ _ _ => ?_
        exact .bind (embeds_bytesOnly _) fun _ _ _ => embeds_parts closed leRest _
      · exact repeated 0 (some 1) left
      · exact repeated 0 none left
      · exact repeated 1 none left
      · refine .bind (embeds_counted closed left) fun _ _ _ => ?_
        exact .bind (embeds_repeatLast _ _ _) fun _ _ _ => embeds_parts closed leRest _
      · exact .bind (embeds_primitive closed) fun _ _ _ => embeds_parts closed leRest _
end

end NodeWeave.Pattern.Read
