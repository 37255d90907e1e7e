import NodeWeave.Pattern.Basic

/-!
The function that gives the ends of matches against the relation between places. Main statement:
for patterns that repeat nothing more often at least than at most, both say the same.
-/

namespace NodeWeave.Pattern

/-! ### Steps a number of times -/

/-- So many steps lead from one place to another. -/
inductive Times (step : Nat → Nat → Prop) : Nat → Nat → Nat → Prop where
  | zero (i : Nat) : Times step 0 i i
  | succ {n i j k : Nat} (first : step i j) (rest : Times step n j k) : Times step (n + 1) i k

namespace Times

variable {step : Nat → Nat → Prop} {m n i j k : Nat}

theorem zero_iff : Times step 0 i j ↔ i = j := by
  constructor
  · rintro ⟨⟩
    rfl
  · rintro rfl
    exact .zero i

theorem succ_iff : Times step (n + 1) i k ↔ ∃ j, step i j ∧ Times step n j k := by
  constructor
  · rintro (_ | ⟨first, rest⟩)
    exact ⟨_, first, rest⟩
  · rintro ⟨j, first, rest⟩
    exact .succ first rest

theorem add_iff : Times step (m + n) i k ↔ ∃ j, Times step m i j ∧ Times step n j k := by
  induction m generalizing i with
  | zero => simp [zero_iff]
  | succ m ih =>
      rw [Nat.succ_add, succ_iff]
      simp only [ih, succ_iff]
      grind

theorem le (forward : ∀ {i j}, step i j → i ≤ j) (times : Times step n i j) : i ≤ j := by
  induction times with
  | zero => exact Nat.le_refl _
  | succ first _ ih => exact Nat.le_trans (forward first) ih

/-- More steps than places between the ends stand still somewhere, so one more or less makes no
difference. -/
theorem succ_iff_of_lt (forward : ∀ {i j}, step i j → i ≤ j) (many : j - i < n) :
    Times step (n + 1) i j ↔ Times step n i j := by
  induction n generalizing i with
  | zero => omega
  | succ n ih =>
      constructor
      · rw [succ_iff]
        rintro ⟨next, first, rest⟩
        have := forward first
        have := rest.le forward
        by_cases still : next = i
        · exact still ▸ rest
        · exact .succ first ((ih (by omega)).mp rest)
      · intro times
        obtain ⟨next, first, rest⟩ := succ_iff.mp times
        have := forward first
        have := rest.le forward
        by_cases still : next = i
        · exact .succ (still ▸ first) times
        · exact .succ first ((ih (by omega)).mpr rest)

theorem iff_of_lt (forward : ∀ {i j}, step i j → i ≤ j) (many : j - i < m) (more : m ≤ n) :
    Times step n i j ↔ Times step m i j := by
  induction more with
  | refl => rfl
  | step more ih =>
      rw [succ_iff_of_lt forward (Nat.lt_of_lt_of_le many more), ih]

/-- A number of steps may be cut at a limit that is greater than the distance. -/
theorem min_iff (forward : ∀ {i j}, step i j → i ≤ j) {limit : Nat} (many : j - i < limit) :
    Times step (min n limit) i j ↔ Times step n i j := by
  rcases Nat.le_total n limit with less | more
  · rw [Nat.min_eq_left less]
  · rw [Nat.min_eq_right more, iff_of_lt forward many more]

end Times

/-! ### Places -/

theorem mem_addPlaces {places more : List Nat} {j : Nat} :
    j ∈ addPlaces places more ↔ j ∈ places ∨ j ∈ more := by
  induction more generalizing places with
  | nil => simp [addPlaces]
  | cons i rest ih =>
      rw [addPlaces, List.foldl_cons, ← addPlaces, ih]
      split
      · next there =>
          rw [List.contains_iff_mem] at there
          grind
      · grind

section

variable {R : Nat → Nat → Prop} {next : List Nat → List Nat} {length n j : Nat} {places : List Nat}

/-- A function on lists of places takes one step from each of them. -/
def Follows (R : Nat → Nat → Prop) (length : Nat) (next : List Nat → List Nat) : Prop :=
  ∀ places, (∀ i ∈ places, i ≤ length) →
    (∀ j ∈ next places, j ≤ length) ∧ ∀ j, j ∈ next places ↔ ∃ i ∈ places, R i j

theorem stepTimes_of_fixed (fixed : next places = places) (n : Nat) :
    stepTimes next n places = places := by
  cases n with
  | zero => rfl
  | succ n => rw [stepTimes, if_pos fixed]

theorem Follows.mem_stepTimes_iff (follows : Follows R length next)
    (within : ∀ i ∈ places, i ≤ length) :
    j ∈ stepTimes next n places ↔ ∃ i ∈ places, Times R n i j := by
  induction n generalizing places with
  | zero => simp [stepTimes, Times.zero_iff]
  | succ n ih =>
      obtain ⟨withinNext, mem_next⟩ := follows places within
      have shifted : (∃ i ∈ places, Times R (n + 1) i j) ↔ ∃ i ∈ next places, Times R n i j := by
        simp only [Times.succ_iff, mem_next]
        grind
      rw [stepTimes, shifted, ← ih withinNext]
      split
      · next fixed => rw [fixed, stepTimes_of_fixed fixed]
      · rfl

theorem stepUpTo_of_fixed (fixed : addPlaces places (next places) = places) (n : Nat) :
    stepUpTo next n places = places := by
  cases n with
  | zero => rfl
  | succ n => rw [stepUpTo, if_pos fixed]

theorem Follows.mem_stepUpTo_iff (follows : Follows R length next)
    (within : ∀ i ∈ places, i ≤ length) :
    j ∈ stepUpTo next n places ↔ ∃ i ∈ places, ∃ m, m ≤ n ∧ Times R m i j := by
  induction n generalizing places with
  | zero => simp [stepUpTo, Times.zero_iff]
  | succ n ih =>
      obtain ⟨withinNext, mem_next⟩ := follows places within
      have withinBoth : ∀ i ∈ addPlaces places (next places), i ≤ length := by
        intro i mem
        exact (mem_addPlaces.mp mem).elim (within i) (withinNext i)
      have shifted : (∃ i ∈ places, ∃ m, m ≤ n + 1 ∧ Times R m i j) ↔
          ∃ i ∈ addPlaces places (next places), ∃ m, m ≤ n ∧ Times R m i j := by
        constructor
        · rintro ⟨i, mem, m, le, times⟩
          cases m with
          | zero => exact ⟨i, mem_addPlaces.mpr (.inl mem), 0, Nat.zero_le n, times⟩
          | succ m =>
              obtain ⟨k, first, rest⟩ := Times.succ_iff.mp times
              exact ⟨k, mem_addPlaces.mpr (.inr ((mem_next k).mpr ⟨i, mem, first⟩)), m,
                Nat.le_of_succ_le_succ le, rest⟩
        · rintro ⟨k, mem, m, le, times⟩
          rcases mem_addPlaces.mp mem with old | new
          · exact ⟨k, old, m, Nat.le_succ_of_le le, times⟩
          · obtain ⟨i, mem, first⟩ := (mem_next k).mp new
            exact ⟨i, mem, m + 1, Nat.succ_le_succ le, .succ first times⟩
      rw [stepUpTo, shifted, ← ih withinBoth]
      split
      · next fixed => rw [fixed, stepUpTo_of_fixed fixed]
      · rfl

end

/-! ### Matches -/

variable {text : List Char} {p : Pattern} {i j : Nat}

theorem Spans.le (spans : Spans text p i j) : i ≤ j := by
  induction spans with
  | empty | look | done => exact Nat.le_refl _
  | one => exact Nat.le_succ _
  | seq _ _ first second | again _ _ _ first second => exact Nat.le_trans first second
  | altLeft _ ih | altRight _ ih => exact ih

theorem Spans.le_length (spans : Spans text p i j) (within : i ≤ text.length) :
    j ≤ text.length := by
  induction spans with
  | empty | look | done => exact within
  | one at_place => exact (List.getElem?_eq_some_iff.mp at_place).1
  | seq _ _ first second | again _ _ _ first second => exact second (first within)
  | altLeft _ ih | altRight _ ih => exact ih within

theorem spans_empty_iff : Spans text .empty i j ↔ i = j := by
  constructor
  · rintro ⟨⟩
    rfl
  · rintro rfl
    exact .empty i

theorem spans_one_iff {set : CharSet} : Spans text (.one set) i j ↔
    (∃ c, text[i]? = some c ∧ set.mem c = true) ∧ j = i + 1 := by
  constructor
  · rintro (_ | ⟨at_place, mem⟩)
    exact ⟨⟨_, at_place, mem⟩, rfl⟩
  · rintro ⟨⟨c, at_place, mem⟩, rfl⟩
    exact .one at_place mem

theorem spans_look_iff {condition : Look} :
    Spans text (.look condition) i j ↔ condition.holds text i = true ∧ i = j := by
  constructor
  · rintro (_ | _ | holds)
    exact ⟨holds, rfl⟩
  · rintro ⟨holds, rfl⟩
    exact .look holds

theorem spans_seq_iff {q : Pattern} :
    Spans text (.seq p q) i j ↔ ∃ k, Spans text p i k ∧ Spans text q k j := by
  constructor
  · rintro (_ | _ | _ | ⟨first, second⟩)
    exact ⟨_, first, second⟩
  · rintro ⟨k, first, second⟩
    exact .seq first second

theorem spans_alt_iff {q : Pattern} :
    Spans text (.alt p q) i j ↔ Spans text p i j ∨ Spans text q i j := by
  constructor
  · intro spans
    cases spans with
    | altLeft left => exact .inl left
    | altRight right => exact .inr right
  · exact fun either => either.elim .altLeft .altRight

/-- A repetition matches what so many matches one behind the other do. -/
theorem spans_repeated_iff {least : Nat} {most : Option Nat} :
    Spans text (.repeated p least most) i j ↔
      ∃ n, least ≤ n ∧ (∀ m, most = some m → n ≤ m) ∧ Times (Spans text p) n i j := by
  constructor
  · intro spans
    generalize eq : Pattern.repeated p least most = whole at spans
    induction spans generalizing least most with
    | empty | one | look | seq | altLeft | altRight => cases eq
    | done =>
        obtain ⟨rfl, rfl, rfl⟩ := Pattern.repeated.inj eq
        exact ⟨0, Nat.le_refl 0, fun m _ => Nat.zero_le m, .zero _⟩
    | again room first _ _ ih =>
        obtain ⟨rfl, rfl, rfl⟩ := Pattern.repeated.inj eq
        obtain ⟨n, enough, few, times⟩ := ih rfl
        refine ⟨n + 1, by omega, ?_, .succ first times⟩
        rintro m rfl
        have := few (m - 1) rfl
        have : m ≠ 0 := fun none => room (congrArg some none)
        omega
  · rintro ⟨n, enough, few, times⟩
    induction times generalizing least most with
    | zero =>
        obtain rfl := Nat.le_zero.mp enough
        exact .done
    | succ first _ ih =>
        refine .again ?_ first (ih (by omega) ?_)
        · rintro rfl
          exact absurd (few 0 rfl) (by omega)
        · intro m less
          obtain ⟨most, rfl, rfl⟩ := Option.map_eq_some_iff.mp less
          have := few most rfl
          omega

def Bounded : Pattern → Prop
  | empty | one _ | look _ => True
  | seq p q | alt p q => Bounded p ∧ Bounded q
  | repeated p least most => Bounded p ∧ ∀ m, most = some m → least ≤ m

theorem follows_of_mem_iff {next : List Nat → List Nat}
    (mem_iff : ∀ places, (∀ i ∈ places, i ≤ text.length) →
      ∀ j, j ∈ next places ↔ ∃ i ∈ places, Spans text p i j) :
    Follows (Spans text p) text.length next := by
  refine fun places within => ⟨fun j mem => ?_, mem_iff places within⟩
  obtain ⟨i, start, spans⟩ := (mem_iff places within j).mp mem
  exact spans.le_length (within i start)

/-- What is cut at the number of places is enough of any number of repetitions. -/
theorem follows_repeated {least : Nat} {most : Option Nat} {next : List Nat → List Nat}
    (follows : Follows (Spans text p) text.length next)
    (ordered : ∀ m, most = some m → least ≤ m) :
    Follows (Spans text (.repeated p least most)) text.length fun places =>
      stepUpTo next (min ((most.map (· - least)).getD (text.length + 2)) (text.length + 2))
        (stepTimes (fun s => addPlaces [] (next s)) (min least (text.length + 2)) places) := by
  refine follows_of_mem_iff fun places within j => ?_
  have distinct : Follows (Spans text p) text.length fun s => addPlaces [] (next s) := by
    intro s withinS
    simpa [mem_addPlaces] using follows s withinS
  have inside {i k n : Nat} (start : i ≤ text.length) (times : Times (Spans text p) n i k) :
      k ≤ text.length := by
    induction times with
    | zero => exact start
    | succ first _ ih => exact ih (first.le_length start)
  have cut {i k n : Nat} (start : i ≤ text.length) :
      Times (Spans text p) (min n (text.length + 2)) i k ↔ Times (Spans text p) n i k := by
    by_cases far : k ≤ text.length
    · exact Times.min_iff Spans.le (by omega)
    · exact ⟨fun times => absurd (inside start times) far,
        fun times => absurd (inside start times) far⟩
  have first {k : Nat} : k ∈ stepTimes (fun s => addPlaces [] (next s))
      (min least (text.length + 2)) places ↔ ∃ i ∈ places, Times (Spans text p) least i k := by
    rw [distinct.mem_stepTimes_iff within]
    exact exists_congr fun i => and_congr_right fun start => cut (within i start)
  have withinFirst : ∀ k ∈ stepTimes (fun s => addPlaces [] (next s))
      (min least (text.length + 2)) places, k ≤ text.length := by
    intro k mem
    obtain ⟨i, start, times⟩ := first.mp mem
    exact inside (within i start) times
  rw [follows.mem_stepUpTo_iff withinFirst]
  simp only [spans_repeated_iff]
  constructor
  · rintro ⟨k, mem, m, le, rest⟩
    obtain ⟨i, start, times⟩ := first.mp mem
    refine ⟨i, start, least + m, Nat.le_add_right _ _, ?_, Times.add_iff.mpr ⟨k, times, rest⟩⟩
    rintro most rfl
    have := ordered most rfl
    simp only [Option.map_some, Option.getD_some] at le
    omega
  · rintro ⟨i, start, n, enough, few, times⟩
    obtain ⟨more, rfl⟩ := Nat.exists_eq_add_of_le enough
    obtain ⟨k, times, rest⟩ := Times.add_iff.mp times
    refine ⟨k, first.mpr ⟨i, start, times⟩, min more (text.length + 2), ?_,
      (cut (inside (within i start) times)).mpr rest⟩
    cases most with
    | none =>
        simp only [Option.map_none, Option.getD_none]
        omega
    | some most =>
        have := few most rfl
        simp only [Option.map_some, Option.getD_some]
        omega

theorem follows_ends (text : List Char) :
    ∀ p : Pattern, p.Bounded → Follows (Spans text p) text.length (p.ends text)
  | .empty, _ => follows_of_mem_iff fun places _ j => by
      simp [spans_empty_iff]
  | .one set, _ => follows_of_mem_iff fun places _ j => by
      simp only [ends, List.mem_map, List.mem_filter, Option.any_eq_true, spans_one_iff]
      grind
  | .look condition, _ => follows_of_mem_iff fun places _ j => by
      simp only [ends, List.mem_filter, spans_look_iff]
      grind
  | .seq p q, bounded => follows_of_mem_iff fun places within j => by
      obtain ⟨withinFirst, first⟩ := follows_ends text p bounded.1 places within
      rw [ends_seq, (follows_ends text q bounded.2 _ withinFirst).2]
      simp only [first, spans_seq_iff]
      grind
  | .alt p q, bounded => follows_of_mem_iff fun places within j => by
      rw [ends, mem_addPlaces, (follows_ends text p bounded.1 places within).2,
        (follows_ends text q bounded.2 places within).2]
      simp only [spans_alt_iff]
      grind
  | .repeated p _ _, bounded => follows_repeated (follows_ends text p bounded.1) bounded.2

theorem occursIn_iff (bounded : p.Bounded) :
    p.occursIn text = true ↔ ∃ i j, i ≤ text.length ∧ Spans text p i j := by
  have within : ∀ i ∈ List.range (text.length + 1), i ≤ text.length := fun i mem =>
    Nat.le_of_lt_succ (List.mem_range.mp mem)
  have mem_iff := (follows_ends text p bounded _ within).2
  rw [occursIn, Bool.not_eq_true', List.isEmpty_eq_false_iff_exists_mem]
  simp only [mem_iff, List.mem_range, Nat.lt_succ_iff]
  constructor
  · rintro ⟨j, i, start, spans⟩
    exact ⟨i, j, start, spans⟩
  · rintro ⟨i, j, start, spans⟩
    exact ⟨j, i, start, spans⟩

theorem holds_textStart_iff (within : i ≤ text.length) :
    Look.textStart.holds text i = true ↔ i = 0 := by
  cases i with
  | zero => simp [Look.holds, Look.holdsBetween]
  | succ i =>
      have there : i < text.length := within
      simp [Look.holds, Look.holdsBetween, there]

theorem holds_textEnd_iff (within : i ≤ text.length) :
    Look.textEnd.holds text i = true ↔ i = text.length := by
  rw [Look.holds, Look.holdsBetween, Option.isNone_iff_eq_none, List.getElem?_eq_none_iff]
  omega

end NodeWeave.Pattern
