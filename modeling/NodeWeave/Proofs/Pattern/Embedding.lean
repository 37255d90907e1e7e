import Mathlib.Data.List.TakeWhile
import NodeWeave.Proofs.Pattern.Language

/-!
Reading a pattern that stands in a group. Main statement: what a text alone is read as, it is read
as with a closing parenthesis and anything else behind it, unless it ends in a comment.
-/

namespace NodeWeave.Pattern

/-- The same state with a closing parenthesis and more behind what is left. -/
def ReadState.inGroup (s : ReadState) (after : List Char) : ReadState :=
  { s with rest := s.rest ++ ')' :: after }

@[simp] theorem ReadState.flags_inGroup (s : ReadState) (after : List Char) :
    (s.inGroup after).flags = s.flags := rfl

namespace Read

variable {α β : Type} {base after : List Char} {s : ReadState}

/-! ### Blanks and comments -/

theorem withoutBlanks_suffix (bound : Nat) (text : List Char) :
    withoutBlanks bound text <:+ text := by
  induction bound generalizing text with
  | zero => exact List.suffix_refl text
  | succ bound ih =>
      have blanks := List.dropWhile_suffix (l := text) Text.isBlank
      rw [withoutBlanks]
      split
      · next rest left =>
          rw [left] at blanks
          exact (ih _).trans ((List.drop_suffix 1 _).trans ((List.dropWhile_suffix _).trans
            ((List.suffix_cons '#' rest).trans blanks)))
      · exact blanks

theorem withoutBlanks_of_ne {c : Char} {rest text : List Char}
    (left : text.dropWhile Text.isBlank = c :: rest) (noSign : c ≠ '#') (bound : Nat) :
    withoutBlanks (bound + 1) text = c :: rest := by
  rw [withoutBlanks, left]
  split
  · next same => exact absurd (List.cons.inj same).1 noSign
  · rfl

/-- Where comments are closed, what is passed over does not depend on what comes behind. -/
theorem withoutBlanks_append_of_lt (after : List Char) {less more : Nat} {text : List Char}
    (enough : text.length < less) (enoughToo : text.length < more) (closed : ClosesComments text) :
    withoutBlanks more (text ++ ')' :: after) = withoutBlanks less text ++ ')' :: after := by
  induction less generalizing more text with
  | zero => omega
  | succ less ih =>
      obtain ⟨more, rfl⟩ : ∃ n, more = n + 1 := ⟨more - 1, by omega⟩
      have blanks := List.dropWhile_suffix (l := text) Text.isBlank
      have longer : (text ++ ')' :: after).dropWhile Text.isBlank = _ := List.dropWhile_append
      rcases left : text.dropWhile Text.isBlank with _ | ⟨c, rest⟩
      · rw [left] at longer
        rw [withoutBlanks_of_ne longer (by decide), withoutBlanks, left]
        rfl
      · rw [left] at blanks longer
        by_cases sign : c = '#'
        · subst sign
          have closedRest := closed.of_suffix ((List.suffix_cons '#' rest).trans blanks)
          have shorter := blanks.length_le
          have line := List.dropWhile_suffix (l := rest) (· != '\n')
          have ends : '\n' ∈ rest := closed.of_suffix blanks [] rest rfl
          rw [withoutBlanks, withoutBlanks, longer, left]
          show withoutBlanks more (((rest ++ ')' :: after).dropWhile (· != '\n')).drop 1) =
            withoutBlanks less ((rest.dropWhile (· != '\n')).drop 1) ++ ')' :: after
          rw [List.dropWhile_append]
          rcases behind : rest.dropWhile (· != '\n') with _ | ⟨first, later⟩
          · rw [List.dropWhile_eq_nil_iff] at behind
            exact absurd (behind _ ends) (by decide)
          · rw [behind] at line
            have shorterLine := line.length_le
            rw [List.length_cons] at shorter shorterLine
            exact ih (by omega) (by omega)
              (closedRest.of_suffix ((List.suffix_cons first later).trans line))
        · rw [withoutBlanks_of_ne longer sign, withoutBlanks_of_ne left sign]
          rfl

theorem dropWhile_isBlank_append (text after : List Char) :
    (text ++ ')' :: after).dropWhile Text.isBlank =
      text.dropWhile Text.isBlank ++ ')' :: after := by
  rw [List.dropWhile_append]
  split
  · next none =>
      rw [List.isEmpty_iff.mp none]
      rfl
  · rfl

theorem takeWhile_ne_append {stop : Char} {text more : List Char} (mem : stop ∈ text) :
    (text ++ more).takeWhile (· != stop) = text.takeWhile (· != stop) := by
  rw [List.takeWhile_append, if_neg]
  intro same
  have taken := (List.takeWhile_prefix (l := text) (· != stop)).eq_of_length same
  exact bne_iff_ne.mp (List.takeWhile_eq_self_iff.mp taken stop mem) rfl

theorem withoutBlanks_append {text : List Char} (closed : ClosesComments text) (after : List Char) :
    withoutBlanks ((text ++ ')' :: after).length + 1) (text ++ ')' :: after) =
      withoutBlanks (text.length + 1) text ++ ')' :: after :=
  withoutBlanks_append_of_lt after (Nat.lt_succ_self _) (by rw [List.length_append]; omega) closed

/-! ### Steps that carry on with more text behind -/

theorem bind_eq_some_iff {steps : Read α} {next : α → Read β} {result : β × ReadState} :
    (steps >>= next) s = some result ↔
      ∃ a middle, steps s = some (a, middle) ∧ next a middle = some result := by
  refine Option.bind_eq_some_iff.trans ⟨?_, ?_⟩
  · rintro ⟨⟨a, middle⟩, first, rest⟩
    exact ⟨a, middle, first, rest⟩
  · rintro ⟨a, middle, first, rest⟩
    exact ⟨(a, middle), first, rest⟩

theorem bind_apply_of_eq {steps : Read α} {next : α → Read β} {a : α} {s' : ReadState}
    (done : steps s = some (a, s')) : (steps >>= next) s = next a s' := by
  show Option.bind (steps s) (fun result => next result.1 result.2) = next a s'
  rw [done, Option.bind_some]

theorem peek_bind_apply (next : Option Char → Read β) (s : ReadState) :
    (peek >>= next) s = next s.rest.head? s := by
  rw [List.head?_eq_getElem?]
  rfl

theorem drop_bind_apply (n : Nat) (next : Unit → Read β) (s : ReadState) :
    (Read.drop n >>= next) s = next () { s with rest := s.rest.drop n } := rfl

theorem take?_bind_apply (text : String) (next : Bool → Read β) (s : ReadState) :
    (take? text >>= next) s =
      if s.rest.take text.length == text.toList then
        next true { s with rest := s.rest.drop text.length }
      else next false s := by
  show ((if s.rest.take text.length == text.toList then
      (Read.drop text.length >>= fun _ => Pure.pure true)
    else Pure.pure false : Read Bool) >>= next) s = _
  split <;> rfl

theorem failAtEnd_bind_apply (next : Unit → Read β) (s : ReadState) :
    (failAtEnd >>= next) s = if s.rest = [] then none else next () s := by
  rcases s with ⟨_ | ⟨c, rest⟩, flags, names⟩ <;> rfl

/-- A result that the first steps have at a state within a text is that of the second steps with a
closing parenthesis behind, and what is left stays within the text. -/
def Embeds (base after : List Char) (s : ReadState) (steps other : Read α) : Prop :=
  s.rest <:+ base → ∀ a s', steps s = some (a, s') →
    s'.rest <:+ base ∧ other (s.inGroup after) = some (a, s'.inGroup after)

namespace Embeds

/-! ### Putting steps together -/

theorem pure (a : α) : Embeds base after s (Pure.pure a) (Pure.pure a) := by
  rintro inside _ _ ⟨⟩
  exact ⟨inside, rfl⟩

theorem failure (other : Read α) : Embeds base after s Alternative.failure other :=
  fun _ _ _ done => nomatch done

theorem bind {steps other : Read α} {next nextOther : α → Read β}
    (first : Embeds base after s steps other)
    (rest : ∀ a s', steps s = some (a, s') → Embeds base after s' (next a) (nextOther a)) :
    Embeds base after s (steps >>= next) (other >>= nextOther) := by
  intro inside b s' done
  obtain ⟨a, middle, begun, ended⟩ := bind_eq_some_iff.mp done
  obtain ⟨insideMiddle, same⟩ := first inside a middle begun
  obtain ⟨insideEnd, sameEnd⟩ := rest a middle begun insideMiddle b s' ended
  exact ⟨insideEnd, bind_eq_some_iff.mpr ⟨a, _, same, sameEnd⟩⟩

theorem ite {c d : Prop} [Decidable c] [Decidable d] {yes no yesOther noOther : Read α}
    (same : c ↔ d) (whenTrue : Embeds base after s yes yesOther)
    (whenFalse : Embeds base after s no noOther) :
    Embeds base after s (if c then yes else no) (if d then yesOther else noOther) := by
  by_cases holds : c
  · rw [if_pos holds, if_pos (same.mp holds)]
    exact whenTrue
  · rw [if_neg holds, if_neg fun other => holds (same.mpr other)]
    exact whenFalse

theorem orM {steps other second secondOther : Read Bool} (first : Embeds base after s steps other)
    (rest : ∀ s', Embeds base after s' second secondOther) :
    Embeds base after s (steps <||> second) (other <||> secondOther) := by
  refine .bind first fun found s' _ => ?_
  cases found
  · exact rest s'
  · exact .pure true

theorem failure_bind {next : α → Read β} (other : Read β) :
    Embeds base after s (Alternative.failure >>= next) other :=
  fun _ _ _ done => nomatch done

theorem get_bind {next nextOther : ReadState → Read β}
    (rest : Embeds base after s (next s) (nextOther (s.inGroup after))) :
    Embeds base after s (get >>= next) (get >>= nextOther) :=
  rest

theorem modify_bind {change : ReadState → ReadState} {next nextOther : Unit → Read β}
    (inside : s.rest <:+ base → (change s).rest <:+ base)
    (same : s.rest <:+ base → change (s.inGroup after) = (change s).inGroup after)
    (rest : Embeds base after (change s) (next ()) (nextOther ())) :
    Embeds base after s (modify change >>= next) (modify change >>= nextOther) := by
  intro within b s' done
  have := rest (inside within) b s' done
  rw [← same within] at this
  exact this

/-- At the end of the text the parenthesis comes next. -/
theorem peek_bind {next nextOther : Option Char → Read β}
    (more : ∀ c rest, s.rest = c :: rest → Embeds base after s (next (some c)) (nextOther (some c)))
    (atEnd : s.rest = [] → Embeds base after s (next none) (nextOther (some ')'))) :
    Embeds base after s (peek >>= next) (peek >>= nextOther) := by
  intro inside b s' done
  rw [peek_bind_apply] at done ⊢
  rw [ReadState.inGroup]
  cases left : s.rest with
  | nil =>
      rw [left] at done
      have there := atEnd left inside b s' done
      rwa [ReadState.inGroup, left] at there
  | cons c rest =>
      rw [left] at done
      have there := more c rest left inside b s' done
      rwa [ReadState.inGroup, left] at there

theorem next_bind {c : Char} {next nextOther : Bool → Read β}
    (hit : ∀ rest, s.rest = c :: rest → Embeds base after s (next true) (nextOther true))
    (miss : s.rest ≠ [] → Embeds base after s (next false) (nextOther false))
    (atEnd : s.rest = [] → Embeds base after s (next false) (nextOther (')' == c))) :
    Embeds base after s (Read.next c >>= next) (Read.next c >>= nextOther) := by
  change Embeds base after s (peek >>= fun first => next (first == some c))
    (peek >>= fun first => nextOther (first == some c))
  refine peek_bind ?_ atEnd
  intro first rest left
  by_cases same : first = c
  · subst same
    rw [beq_self_eq_true]
    exact hit rest left
  · rw [show (some first == some c) = false from beq_eq_false_iff_ne.mpr (by simpa using same)]
    exact miss (by simp [left])

theorem next_bind_of_ne {c : Char} {next nextOther : Bool → Read β} (ne : ')' ≠ c)
    (hit : ∀ rest, s.rest = c :: rest → Embeds base after s (next true) (nextOther true))
    (miss : Embeds base after s (next false) (nextOther false)) :
    Embeds base after s (Read.next c >>= next) (Read.next c >>= nextOther) := by
  refine next_bind hit (fun _ => miss) fun _ => ?_
  rwa [beq_eq_false_iff_ne.mpr ne]

theorem failAtEnd_bind {next nextOther : Unit → Read β}
    (more : s.rest ≠ [] → Embeds base after s (next ()) (nextOther ())) :
    Embeds base after s (failAtEnd >>= next) (failAtEnd >>= nextOther) := by
  intro inside b s' done
  rw [failAtEnd_bind_apply] at done ⊢
  split at done
  · cases done
  · next left => simpa [ReadState.inGroup] using more left inside b s' done

theorem drop_bind {c : Char} {rest : List Char} {next nextOther : Unit → Read β}
    (left : s.rest = c :: rest)
    (then_ : Embeds base after { s with rest } (next ()) (nextOther ())) :
    Embeds base after s (drop >>= next) (drop >>= nextOther) := by
  refine modify_bind ?_ ?_ ?_
  · intro inside
    rw [left] at inside ⊢
    exact (List.suffix_cons c rest).trans inside
  · simp [ReadState.inGroup, left]
  · simpa [left] using then_

/-- The number of characters bounds how often something is done. -/
theorem bound_bind {next nextOther : Nat → Read β}
    (rest : ∀ less more, less ≤ more → Embeds base after s (next less) (nextOther more)) :
    Embeds base after s (bound >>= next) (bound >>= nextOther) := by
  refine rest (2 * s.rest.length + 8) (2 * (s.inGroup after).rest.length + 8) ?_
  show 2 * s.rest.length + 8 ≤ 2 * (s.rest ++ ')' :: after).length + 8
  rw [List.length_append]
  omega

theorem drop (n : Nat) (enough : n ≤ s.rest.length) :
    Embeds base after s (Read.drop n) (Read.drop n) := by
  rintro inside _ _ ⟨⟩
  refine ⟨(List.drop_suffix n _).trans inside, ?_⟩
  show some ((), { s.inGroup after with rest := (s.rest ++ ')' :: after).drop n }) = _
  rw [List.drop_append_of_le_length enough]
  rfl

theorem take? {text : String} (plain : ')' ∉ text.toList) :
    Embeds base after s (Read.take? text) (Read.take? text) := by
  refine .get_bind ?_
  have same : ((s.rest ++ ')' :: after).take text.length == text.toList) =
      (s.rest.take text.length == text.toList) := by
    by_cases enough : text.length ≤ s.rest.length
    · rw [List.take_append_of_le_length enough]
    · obtain ⟨more, less⟩ : ∃ more, text.length - s.rest.length = more + 1 :=
        ⟨text.length - s.rest.length - 1, by omega⟩
      have short : s.rest.take text.length ≠ text.toList := by
        intro taken
        have := congrArg List.length taken
        rw [List.length_take, String.length_toList] at this
        omega
      have beyond : (s.rest ++ ')' :: after).take text.length ≠ text.toList := by
        intro taken
        rw [List.take_append, less, List.take_succ_cons] at taken
        exact plain (taken ▸ List.mem_append_right _ List.mem_cons_self)
      rw [beq_eq_false_iff_ne.mpr short, beq_eq_false_iff_ne.mpr beyond]
  rw [ReadState.inGroup, same]
  split
  · next taken =>
      have enough : text.length ≤ s.rest.length := by
        have := congrArg List.length (beq_iff_eq.mp taken)
        rw [List.length_take, String.length_toList] at this
        omega
      exact .bind (drop _ enough) fun _ _ _ => .pure _
  · exact .pure _

theorem upTo_bind (stop : Char) {next nextOther : List Char → Read β}
    (rest : ∀ name s', Embeds base after s' (next name) (nextOther name)) :
    Embeds base after s
      (get >>= fun now => Read.drop (now.rest.takeWhile (· != stop)).length >>= fun _ =>
        failAtEnd >>= fun _ => Read.drop >>= fun _ => next (now.rest.takeWhile (· != stop)))
      (get >>= fun now => Read.drop (now.rest.takeWhile (· != stop)).length >>= fun _ =>
        failAtEnd >>= fun _ => Read.drop >>= fun _ =>
          nextOther (now.rest.takeWhile (· != stop))) := by
  refine .get_bind ?_
  have dropped : ∀ s', Read.drop (s.rest.takeWhile (· != stop)).length s = some ((), s') →
      s'.rest = s.rest.dropWhile (· != stop) := by
    rintro _ ⟨⟩
    have parted := List.takeWhile_append_dropWhile (p := (· != stop)) (l := s.rest)
    exact (congrArg (List.drop _) parted.symm).trans List.drop_left
  by_cases mem : stop ∈ s.rest
  · have same : (s.inGroup after).rest.takeWhile (· != stop) = s.rest.takeWhile (· != stop) :=
      takeWhile_ne_append mem
    rw [same]
    refine .bind (.drop _ (List.takeWhile_prefix _).length_le) fun _ middle taken => ?_
    refine .failAtEnd_bind fun more => ?_
    obtain ⟨c, later, left⟩ := List.exists_cons_of_ne_nil more
    exact .drop_bind left (rest _ _)
  · intro _ b s' done
    obtain ⟨_, middle, taken, ended⟩ := bind_eq_some_iff.mp done
    have behind : s.rest.dropWhile (· != stop) = [] :=
      List.dropWhile_eq_nil_iff.mpr fun d there => bne_iff_ne.mpr fun same => mem (same ▸ there)
    rw [failAtEnd_bind_apply, if_pos ((dropped middle taken).trans behind)] at ended
    cases ended

theorem of_inside {steps other : Read α}
    (rest : s.rest <:+ base → Embeds base after s steps other) :
    Embeds base after s steps other :=
  fun inside => rest inside inside

theorem set {next : ReadState} (inside : next.rest <:+ base) :
    Embeds base after s (MonadStateOf.set next) (MonadStateOf.set (next.inGroup after)) := by
  rintro _ _ _ ⟨⟩
  exact ⟨inside, rfl⟩

end Embeds

end Read

end NodeWeave.Pattern
