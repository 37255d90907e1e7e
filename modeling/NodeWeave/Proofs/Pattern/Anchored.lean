import NodeWeave.Proofs.Pattern.Grouped
import NodeWeave.Proofs.Pattern.Matching

/-!
Patterns in groups and between anchors. Main statement: the patterns that are read here are a
language with the meaning that groups and anchors have in any other.
-/

namespace NodeWeave.Pattern

namespace Read

variable {α β : Type} {steps : Read α} {next : α → Read β}

/-! ### What is read repeats nothing more often at least than at most -/

def Yields (steps : Read α) (holds : α → Prop) : Prop :=
  ∀ s a s', steps s = some (a, s') → holds a

namespace Yields

variable {holds : α → Prop} {holdsNext : β → Prop}

theorem pure {a : α} (given : holds a) : Yields (Pure.pure a) holds := by
  rintro s _ _ ⟨⟩
  exact given

theorem failure : Yields Alternative.failure holds :=
  fun _ _ _ done => nomatch done

theorem failure_bind : Yields (Alternative.failure >>= next) holdsNext :=
  fun _ _ _ done => nomatch done

theorem bind (first : Yields steps holds) (rest : ∀ a, holds a → Yields (next a) holdsNext) :
    Yields (steps >>= next) holdsNext := by
  intro s b s' done
  obtain ⟨a, middle, begun, ended⟩ := bind_eq_some_iff.mp done
  exact rest a (first s a middle begun) middle b s' ended

theorem bind_any (rest : ∀ a, Yields (next a) holdsNext) : Yields (steps >>= next) holdsNext :=
  bind (fun _ _ _ _ => trivial) fun a (_ : True) => rest a

theorem ite {c : Prop} [Decidable c] {yes no : Read α} (whenTrue : c → Yields yes holds)
    (whenFalse : ¬ c → Yields no holds) : Yields (if c then yes else no) holds := by
  split
  · next given => exact whenTrue given
  · next given => exact whenFalse given

end Yields

theorem yields_charPattern (c : Char) : Yields (charPattern c) Bounded :=
  .bind_any fun _ => .ite (fun _ => .pure trivial) fun _ => .ite (fun _ => .pure trivial) fun _ =>
    .ite (fun _ => .pure trivial) fun _ => .pure trivial

theorem yields_atomPattern (atom : Atom) : Yields (atomPattern atom) Bounded := by
  cases atom with
  | char c => exact yields_charPattern c
  | set | look => exact .pure trivial
  | dot =>
      exact .bind_any fun _ => .ite (fun _ => .failure) fun _ =>
        .ite (fun _ => .pure trivial) fun _ => .ite (fun _ => .pure trivial) fun _ => .pure trivial

theorem yields_primitive : Yields primitive Bounded := by
  refine .bind_any fun _ => .bind_any fun first => ?_
  split
  · exact .failure
  · exact .bind_any fun _ => yields_atomPattern _
  · exact .bind_any fun _ => yields_atomPattern _
  · exact .bind_any fun _ => .pure trivial
  · exact .bind_any fun _ => .pure trivial
  · exact .bind_any fun _ => yields_charPattern _

theorem yields_counted : Yields counted fun counts => ∀ m, counts.2 = some m → counts.1 ≤ m := by
  have closing (least : Nat) (most : Option Nat) : Yields
      (do if !(← Read.next '\x7d') then failure
          dropAndSkip
          if ← Read.next '?' then drop
          if most.any (· < least) then failure
          return (least, most)) fun counts => ∀ m, counts.2 = some m → counts.1 ≤ m := by
    have checked : Yields
        (do if most.any (· < least) then failure
            return (least, most)) fun counts => ∀ m, counts.2 = some m → counts.1 ≤ m := by
      refine .ite (fun _ => .failure_bind) fun inOrder => .pure ?_
      rintro m rfl
      simpa using inOrder
    refine .bind_any fun _ => .ite (fun _ => .failure_bind) fun _ => .bind_any fun _ => ?_
    exact .bind_any fun _ => .ite (fun _ => .bind_any fun _ => checked) fun _ => checked
  refine .bind_any fun _ => .bind_any fun _ => .bind_any fun least => ?_
  cases least with
  | none => exact .failure
  | some least =>
      refine .bind_any fun _ => .bind_any fun _ => .ite (fun _ => ?_) fun _ => closing _ _
      refine .bind_any fun _ => .bind_any fun _ => .bind_any fun _ => ?_
      refine .ite (fun _ => closing _ _) fun _ => .bind_any fun most => ?_
      cases most with
      | none => exact .failure
      | some most => exact closing _ _

def AllBounded (parts : List (Option (Nested Pattern))) : Prop :=
  ∀ part, some part ∈ parts → part.value.Bounded

theorem AllBounded.cons {part : Option (Nested Pattern)} {parts : List (Option (Nested Pattern))}
    (first : ∀ nested, part = some nested → nested.value.Bounded) (rest : AllBounded parts) :
    AllBounded (part :: parts) := by
  intro nested mem
  rcases List.mem_cons.mp mem with same | later
  · exact first nested same.symm
  · exact rest nested later

theorem bounded_sequence {parts : List (Option (Nested Pattern))} (all : AllBounded parts) :
    (sequence parts).value.Bounded := by
  rw [sequence]
  dsimp only
  have given : ∀ part ∈ parts.filterMap id, part.value.Bounded := by
    intro part mem
    obtain ⟨_, listed, rfl⟩ := List.mem_filterMap.mp mem
    exact all part listed
  split
  · trivial
  · next last rest same =>
      rw [same] at given
      have start := given last List.mem_cons_self
      have before := fun part mem => given part (List.mem_cons_of_mem last mem)
      clear same given
      generalize last.value = acc at start
      induction rest generalizing acc with
      | nil => exact start
      | cons part rest ih =>
          exact ih (fun part mem => before part (List.mem_cons_of_mem _ mem)) _
            ⟨before part List.mem_cons_self, start⟩

theorem bounded_anyOf {first : Pattern} {others : List Pattern} (firstBounded : first.Bounded)
    (rest : ∀ p ∈ others, p.Bounded) : (anyOf first others).Bounded := by
  induction others generalizing first with
  | nil => exact firstBounded
  | cons second others ih =>
      exact ⟨firstBounded, ih (rest second List.mem_cons_self)
        fun p mem => rest p (List.mem_cons_of_mem _ mem)⟩

theorem yields_repeatLast {least : Nat} {most : Option Nat} {parts : List (Option (Nested Pattern))}
    (ordered : ∀ m, most = some m → least ≤ m) (all : AllBounded parts) :
    Yields (repeatLast least most parts) AllBounded := by
  unfold repeatLast
  split
  · next part rest =>
      refine .pure (.cons ?_ fun nested mem => all nested (List.mem_cons_of_mem _ mem))
      rintro _ ⟨⟩
      exact ⟨all part List.mem_cons_self, ordered⟩
  · exact .failure

mutual
theorem yields_alternatives (bound : Nat) :
    Yields (alternatives bound) fun part => part.value.Bounded := by
  cases bound with
  | zero => exact .failure
  | succ bound =>
      rw [alternatives]
      refine .bind (yields_parts bound nofun) fun first given => ?_
      refine .bind (yields_others bound) fun rest all => .pure (bounded_anyOf given ?_)
      simpa using all

theorem yields_others (bound : Nat) :
    Yields (others bound) fun parts => ∀ part ∈ parts, part.value.Bounded := by
  cases bound with
  | zero => exact .failure
  | succ bound =>
      rw [others]
      refine .bind_any fun _ => .ite (fun _ => .bind_any fun _ => ?_) fun _ => .pure nofun
      refine .bind (yields_parts bound nofun) fun second given => ?_
      exact .bind (yields_others bound) fun rest all =>
        .pure (List.forall_mem_cons.mpr ⟨given, all⟩)

theorem yields_parts (bound : Nat) {acc : List (Option (Nested Pattern))} (all : AllBounded acc) :
    Yields (parts bound acc) fun part => part.value.Bounded := by
  cases bound with
  | zero => exact .failure
  | succ bound =>
      have repeated {least : Nat} {most : Option Nat} (ordered : ∀ m, most = some m → least ≤ m) :
          Yields
            (do let acc ← repeatLast least most acc
                drop
                if ← Read.next '?' then drop
                parts bound acc) fun part => part.value.Bounded := by
        refine .bind (yields_repeatLast ordered all) fun acc all => ?_
        refine .bind_any fun _ => .bind_any fun _ =>
          .ite (fun _ => .bind_any fun _ => ?_) fun _ => ?_
        · exact yields_parts bound all
        · exact yields_parts bound all
      rw [parts]
      refine .bind_any fun _ => .bind_any fun first => ?_
      split
      · exact .pure (bounded_sequence all)
      · exact .pure (bounded_sequence all)
      · exact .pure (bounded_sequence all)
      · refine .bind_any fun _ => .bind_any fun opened => ?_
        cases opened with
        | flags => exact yields_parts bound (.cons nofun all)
        | group =>
            refine .bind (yields_alternatives bound) fun inner given => .bind_any fun closes => ?_
            refine .ite (fun _ => .failure_bind) fun _ => .bind_any fun _ => .bind_any fun _ => ?_
            refine yields_parts bound (.cons ?_ all)
            rintro _ ⟨⟩
            exact given
      · refine .bind_any fun _ => .bind_any fun _ => yields_parts bound (.cons ?_ all)
        rintro _ ⟨⟩
        trivial
      · exact repeated fun _ _ => Nat.zero_le _
      · exact repeated nofun
      · exact repeated nofun
      · refine .bind yields_counted fun counts ordered => ?_
        exact .bind (yields_repeatLast ordered all) fun acc all => yields_parts bound all
      · refine .bind yields_primitive fun p given => yields_parts bound (.cons ?_ all)
        rintro _ ⟨⟩
        exact given
end

/-! ### Anchors -/

theorem opening_plain (rest : List Char) (flags : Flags) (names : List String) :
    opening ⟨'(' :: '?' :: ':' :: rest, { flags with ignoresBlanks := false }, names⟩ =
      some (.group, ⟨rest, { flags with ignoresBlanks := false }, names⟩) := rfl

theorem parts_textStart (bound : Nat) (acc : List (Option (Nested Pattern))) (rest : List Char)
    (names : List String) :
    parts (bound + 1) acc ⟨'^' :: rest, {}, names⟩ =
      parts bound (some { value := .look .textStart } :: acc) ⟨rest, {}, names⟩ := by
  rw [parts]
  rfl

theorem parts_textEnd (bound : Nat) (acc : List (Option (Nested Pattern))) (rest : List Char)
    (names : List String) :
    parts (bound + 1) acc ⟨'$' :: rest, {}, names⟩ =
      parts bound (some { value := .look .textEnd } :: acc) ⟨rest, {}, names⟩ := by
  rw [parts]
  rfl

theorem parts_group {bound : Nat} {acc : List (Option (Nested Pattern))} {rest later : List Char}
    {names namesToo : List String} {flags : Flags} {inner : Nested Pattern}
    (read : alternatives bound ⟨rest, {}, names⟩ =
      some (inner, ⟨')' :: later, flags, namesToo⟩)) :
    parts (bound + 1) acc ⟨'(' :: '?' :: ':' :: rest, {}, names⟩ =
      parts bound (some { inner with depth := inner.depth + 1 } :: acc) ⟨later, {}, namesToo⟩ := by
  rw [parts]
  refine (bind_apply_of_eq rfl).trans ((peek_bind_apply _ _).trans ?_)
  refine (bind_apply_of_eq rfl).trans ((bind_apply_of_eq (opening_plain rest {} names)).trans ?_)
  exact (bind_apply_of_eq read).trans rfl

theorem parts_nil (bound : Nat) (acc : List (Option (Nested Pattern))) (names : List String) :
    parts (bound + 1) acc ⟨[], {}, names⟩ = some (sequence acc, ⟨[], {}, names⟩) := by
  rw [parts]
  rfl

end Read

theorem readWhole?_eq_some_iff {text : String} {part : Nested Pattern} :
    readWhole? text = some part ↔ ∃ flags names,
      Read.alternatives (4 * text.length + 16) ⟨text.toList, {}, []⟩ =
        some (part, ⟨[], flags, names⟩) := by
  rw [readWhole?, Option.bind_eq_bind, Option.bind_eq_some_iff]
  constructor
  · rintro ⟨⟨part, rest, flags, names⟩, run, ended⟩
    rcases rest with _ | ⟨c, rest⟩
    · cases ended
      exact ⟨flags, names, run⟩
    · cases ended
  · rintro ⟨flags, names, run⟩
    exact ⟨_, run, rfl⟩

theorem read?_eq_some_iff {text : String} {p : Pattern} : read? text = some p ↔
    ∃ part, readWhole? text = some part ∧ part.depth ≤ maxDepth ∧ part.value.room ≤ maxRoom ∧
      part.value = p := by
  rw [read?, Option.bind_eq_bind, Option.bind_eq_some_iff]
  refine exists_congr fun part => and_congr_right fun _ => ?_
  split
  · next fits => simp [fits]
  · next tooLarge =>
      refine iff_of_false nofun ?_
      exact fun given => tooLarge ⟨given.1, given.2.1⟩

theorem read?_eq_none_iff {text : String} : read? text = none ↔
    ∀ part, readWhole? text = some part → ¬(part.depth ≤ maxDepth ∧ part.value.room ≤ maxRoom) := by
  rw [Option.eq_none_iff_forall_ne_some]
  refine ⟨fun none part whole fits => ?_, fun large p read => ?_⟩
  · exact none part.value (read?_eq_some_iff.mpr ⟨part, whole, fits.1, fits.2, rfl⟩)
  · obtain ⟨part, whole, depth, room, -⟩ := read?_eq_some_iff.mp read
    exact large part whole ⟨depth, room⟩

theorem bounded_of_readWhole? {text : String} {part : Nested Pattern}
    (read : readWhole? text = some part) : part.value.Bounded := by
  obtain ⟨_, _, run⟩ := readWhole?_eq_some_iff.mp read
  exact Read.yields_alternatives _ _ _ _ run

/-! ### The language that is read here -/

def meaning (p : Pattern) : Meaning := fun text i j => i ≤ text.length ∧ Spans text p i j

def language : PatternLanguage where
  meaning? text := (readWhole? text).map (·.value.meaning)
  EndsInComment text := ¬ClosesComments text.toList
  fits text := (readWhole? text).all fun part =>
    part.depth ≤ maxDepth ∧ part.value.room ≤ maxRoom
  compile := compile?

theorem meaning_textStart : (look .textStart).meaning = Meaning.textStart := by
  funext text i j
  refine propext ⟨fun ⟨within, spans⟩ => ?_, ?_⟩
  · obtain ⟨holds, same⟩ := spans_look_iff.mp spans
    exact ⟨(holds_textStart_iff within).mp holds, same⟩
  · rintro ⟨rfl, rfl⟩
    exact ⟨Nat.zero_le _, .look ((holds_textStart_iff (Nat.zero_le _)).mpr rfl)⟩

theorem meaning_textEnd : (look .textEnd).meaning = Meaning.textEnd := by
  funext text i j
  refine propext ⟨fun ⟨within, spans⟩ => ?_, ?_⟩
  · obtain ⟨holds, same⟩ := spans_look_iff.mp spans
    exact ⟨(holds_textEnd_iff within).mp holds, same⟩
  · rintro ⟨rfl, rfl⟩
    exact ⟨Nat.le_refl _, .look ((holds_textEnd_iff (Nat.le_refl _)).mpr rfl)⟩

theorem meaning_seq (p q : Pattern) : (seq p q).meaning = p.meaning.followedBy q.meaning := by
  funext text i j
  refine propext ⟨fun ⟨within, spans⟩ => ?_, fun ⟨k, ⟨within, first⟩, _, second⟩ => ?_⟩
  · obtain ⟨k, first, second⟩ := spans_seq_iff.mp spans
    exact ⟨k, ⟨within, first⟩, first.le_length within, second⟩
  · exact ⟨within, .seq first second⟩

/-! ### Texts whose parts are read one after the other -/

def meaningOf (front : List (Nested Pattern)) (last : Meaning) : Meaning :=
  front.foldr (fun part m => part.value.meaning.followedBy m) last

theorem meaningOf_followedBy (front : List (Nested Pattern)) (m n : Meaning) :
    meaningOf front (m.followedBy n) = (meaningOf front m).followedBy n := by
  induction front with
  | nil => rfl
  | cons part front ih =>
      rw [meaningOf, List.foldr_cons, ← meaningOf, ih, ← Meaning.followedBy_assoc]
      rfl

theorem meaning_sequence (front : List (Nested Pattern)) (last : Nested Pattern) :
    (Read.sequence (some last :: front.reverse.map some)).value.meaning =
      meaningOf front last.value.meaning := by
  have value : (Read.sequence (some last :: front.reverse.map some)).value =
      front.foldr (fun part p => .seq part.value p) last.value := by
    simp [Read.sequence, List.filterMap_map]
  rw [value]
  induction front with
  | nil => rfl
  | cons part front ih =>
      rw [List.foldr_cons, meaning_seq, ih (by simp [Read.sequence, List.filterMap_map])]
      rfl

/-- The text is read as these parts, whatever stands behind it. -/
structure ReadsAs (text : String) (front : List (Nested Pattern)) (last : Nested Pattern)
    (names : List String) : Prop where
  short : front.length < text.length
  parts_append : ∀ {bound}, 4 * text.length ≤ bound + 4 * front.length → ∀ acc rest,
    Read.parts (bound + front.length + 1) acc ⟨text.toList ++ rest, {}, []⟩ =
      Read.parts bound (some last :: (front.reverse.map some ++ acc)) ⟨rest, {}, names⟩

namespace ReadsAs

variable {text : String} {front : List (Nested Pattern)} {last : Nested Pattern}
  {names : List String}

theorem readWhole? (reads : ReadsAs text front last names) :
    readWhole? text = some (Read.sequence (some last :: front.reverse.map some)) := by
  have short := reads.short
  obtain ⟨bound, bound_eq⟩ : ∃ bound, 4 * text.length + 15 = bound + 1 + front.length + 1 :=
    ⟨4 * text.length + 13 - front.length, by omega⟩
  have whole : Read.parts (4 * text.length + 15) [] ⟨text.toList, {}, []⟩ =
      some (Read.sequence (some last :: front.reverse.map some), ⟨[], {}, names⟩) := by
    have enough : 4 * text.length ≤ bound + 1 + 4 * front.length := by omega
    have read := reads.parts_append enough [] []
    rw [List.append_nil, List.append_nil, ← bound_eq, Read.parts_nil] at read
    exact read
  have single : Read.others (4 * text.length + 15) ⟨[], {}, names⟩ =
      some ([], ⟨[], {}, names⟩) := by
    rw [Read.others]
    rfl
  rw [readWhole?_eq_some_iff, Read.alternatives]
  exact ⟨_, _, (Read.bind_apply_of_eq whole).trans (Read.bind_apply_of_eq single)⟩

theorem group {part : Nested Pattern} (read : Pattern.readWhole? text = some part)
    (closed : ClosesComments text.toList) :
    ∃ names, ReadsAs ("(?:" ++ text ++ ")") [] { part with depth := part.depth + 1 } names := by
  obtain ⟨flags, names, run⟩ := readWhole?_eq_some_iff.mp read
  have short : 0 < ("(?:" ++ text ++ ")").length := by
    rw [String.length_append]
    exact Nat.succ_pos _
  refine ⟨names, short, fun {bound} enough acc rest => ?_⟩
  have le : 4 * text.length + 16 ≤ bound := by
    simp only [String.length_append, List.length_nil] at enough
    change 4 * (3 + text.length + 1) ≤ _ at enough
    omega
  have embeds : Read.Embeds text.toList rest ⟨text.toList, {}, []⟩
      (Read.alternatives (4 * text.length + 16)) (Read.alternatives bound) :=
    Read.embeds_alternatives closed le
  obtain ⟨_, grouped⟩ := embeds (List.suffix_refl _) part _ run
  have chars : ("(?:" ++ text ++ ")").toList ++ rest =
      '(' :: '?' :: ':' :: (text.toList ++ ')' :: rest) := by
    simp
  rw [chars]
  exact Read.parts_group grouped

theorem textStart (reads : ReadsAs text front last names) :
    ReadsAs ("^" ++ text) ({ value := .look .textStart } :: front) last names where
  short := by
    have short := reads.short
    simp only [String.length_append, List.length_cons]
    change _ < 1 + text.length
    omega
  parts_append {bound} enough acc rest := by
    have le : 4 * text.length ≤ bound + 4 * front.length := by
      simp only [String.length_append, List.length_cons] at enough
      change 4 * (1 + text.length) ≤ _ at enough
      omega
    have chars : ("^" ++ text).toList ++ rest = '^' :: (text.toList ++ rest) := by simp
    rw [chars, List.length_cons, ← Nat.add_assoc, Read.parts_textStart, reads.parts_append le]
    simp

theorem textEnd (reads : ReadsAs text front last names) :
    ReadsAs (text ++ "$") (front ++ [last]) { value := .look .textEnd } names where
  short := by
    have short := reads.short
    simp only [String.length_append, List.length_append, List.length_singleton]
    change _ < text.length + 1
    omega
  parts_append {bound} enough acc rest := by
    have le : 4 * text.length ≤ bound + 1 + 4 * front.length := by
      simp only [String.length_append, List.length_append, List.length_singleton] at enough
      change 4 * (text.length + 1) ≤ _ at enough
      omega
    have chars : (text ++ "$").toList ++ rest = text.toList ++ '$' :: rest := by simp
    have bound_eq : bound + (front ++ [last]).length + 1 = bound + 1 + front.length + 1 := by
      rw [List.length_append, List.length_singleton]
      omega
    rw [chars, bound_eq, reads.parts_append le, Read.parts_textEnd]
    simp

end ReadsAs

theorem exists_readsAs_of_composes {text : String} {m : Meaning}
    (composes : language.Composes text m) :
    ∃ front last names, ReadsAs text front last names ∧ meaningOf front last.value.meaning = m := by
  induction composes with
  | group means closed =>
      obtain ⟨part, read, rfl⟩ := Option.map_eq_some_iff.mp means
      obtain ⟨names, reads⟩ := ReadsAs.group read (not_not.mp closed)
      exact ⟨[], _, names, reads, rfl⟩
  | textStart _ ih =>
      obtain ⟨front, last, names, reads, rfl⟩ := ih
      exact ⟨_, last, names, reads.textStart, congrArg (Meaning.followedBy · _) meaning_textStart⟩
  | textEnd _ ih =>
      obtain ⟨front, last, names, reads, rfl⟩ := ih
      refine ⟨_, _, names, reads.textEnd, ?_⟩
      rw [← meaningOf_followedBy, ← meaning_textEnd, meaningOf, List.foldr_append]
      rfl

/-- The patterns that are read here keep to what is documented. -/
theorem lawful_language : language.Lawful where
  compile_eq_none_iff text := by
    simp only [language, compile?, Option.map_eq_none_iff, read?_eq_none_iff]
    cases readWhole? text <;> simp
  isMatch_iff {text isMatch m} compiled means name := by
    obtain ⟨part, read, rfl⟩ := Option.map_eq_some_iff.mp means
    obtain ⟨p, readToo, rfl⟩ := Option.map_eq_some_iff.mp compiled
    obtain ⟨_, same, -, -, rfl⟩ := read?_eq_some_iff.mp readToo
    obtain rfl := Option.some.inj (read.symm.trans same)
    exact occursIn_iff (bounded_of_readWhole? read)
  not_endsInComment closed := not_not.mpr closed
  meaning?_of_composes {text m} composes := by
    obtain ⟨front, last, names, reads, rfl⟩ := exists_readsAs_of_composes composes
    exact Option.map_eq_some_iff.mpr ⟨_, reads.readWhole?, meaning_sequence front last⟩

end NodeWeave.Pattern
