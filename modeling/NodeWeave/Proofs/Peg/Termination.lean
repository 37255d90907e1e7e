import NodeWeave.Proofs.Peg.Matching

/-!
Runs of a parsing expression grammar come to an end. Rules have ranks that fall from call to call
as long as nothing is read, and whatever is repeated reads something. So calls nest no deeper than a
multiple of the length of the text, and a bound on their depth beyond that changes nothing.
-/

namespace NodeWeave.Peg

variable {R : Type}

def Expr.mayBeEmpty (skips : R → Bool) : Expr R → Bool
  | .done | .opt _ | .star _ | .more _ | .unless _ | .finish => true
  | .text chars => chars.isEmpty
  | .one _ => false
  | .seq first second => first.mayBeEmpty skips && second.mayBeEmpty skips
  | .alt first second => first.mayBeEmpty skips || second.mayBeEmpty skips
  | .rule name => skips name

/-- How deep the calls in a rule nest before anything is read, and which rules may read nothing. -/
structure Ranking (R : Type) where
  rank : R → Nat
  skips : R → Bool

namespace Ranking

variable (r : Ranking R)

/-- How deep the calls nest before anything is read, where those in blanks nest to `gap`. -/
def cost (gap : Nat) : Expr R → Nat
  | .done | .text _ | .one _ | .finish => 1
  | .seq first second =>
      1 + max (cost gap first)
        (max gap (if first.mayBeEmpty r.skips then cost gap second else 0))
  | .alt first second => 1 + max (cost gap first) (cost gap second)
  | .opt body | .star body | .unless body => 1 + cost gap body
  | .more body => 1 + max gap (cost gap body)
  | .rule name => 1 + r.rank name

/-- What is repeated reads something, and what is called behind it nests at most to `step`. -/
def fits (gap step : Nat) : Expr R → Bool
  | .seq first second => fits gap step first && fits gap step second &&
      decide (r.cost gap second ≤ step)
  | .star body | .more body => fits gap step body && !body.mayBeEmpty r.skips &&
      decide (r.cost gap (.more body) ≤ step)
  | .alt first second => fits gap step first && fits gap step second
  | .opt body | .unless body => fits gap step body
  | .done | .text _ | .one _ | .finish | .rule _ => true

structure Ranks (g : Rules R) (gap step : Nat) : Prop where
  rank : ∀ name, r.cost gap (g.body name) ≤ r.rank name
  fits : ∀ name, r.fits gap step (g.body name) = true
  reads : ∀ name, r.skips name = false → (g.body name).mayBeEmpty r.skips = false

theorem cost_pos (gap : Nat) (e : Expr R) : 0 < r.cost gap e := by
  cases e <;> simp only [cost] <;> omega

end Ranking

namespace Rules

variable {g : Rules R} {skips : R → Bool}

theorem Matches.ne_nil {mode : Mode} {e : Expr R} {text : List Char} {trees : List (Tree R)}
    (steady : ∀ name, skips name = false → (g.body name).mayBeEmpty skips = false)
    (matched : g.Matches mode e text trees) (reads : e.mayBeEmpty skips = false) : text ≠ [] := by
  induction matched with
  | done | finish | optNone | optSome | starNone | starSome | moreNone | moreSome | absent =>
      cases reads
  | text chars => exact fun empty => by simp [Expr.mayBeEmpty, empty] at reads
  | one => exact List.cons_ne_nil _ _
  | seq _ _ _ _ ihFirst _ ihSecond =>
      rw [Expr.mayBeEmpty, Bool.and_eq_false_iff] at reads
      rcases reads with first | second
      · simp [ihFirst first]
      · simp [ihSecond second]
  | altFirst _ ih => exact ih (Bool.or_eq_false_iff.mp reads).1
  | altSecond _ ih => exact ih (Bool.or_eq_false_iff.mp reads).2
  | hidden _ _ ih => exact ih (steady _ reads)
  | shown _ _ _ _ ih => exact ih (steady _ reads)

section

variable (plain : g.blank.IsRuleFree) {depth : Nat} {mode : Mode} {e : Expr R}
  {c later : Cursor R} {x y : Expectation R} (run : g.run depth mode e c x = (some later, y))

include plain run

theorem length_le_of_run : later.rest.length ≤ c.rest.length := by
  obtain ⟨text, trees, moves, -⟩ := consumes_of_run plain run
  simp [moves.rest]

theorem length_lt_of_run
    (steady : ∀ name, skips name = false → (g.body name).mayBeEmpty skips = false)
    (reads : e.mayBeEmpty skips = false) : later.rest.length < c.rest.length := by
  obtain ⟨text, trees, moves, matched⟩ := consumes_of_run plain run
  have some := List.length_pos_iff.mpr (matched.ne_nil steady reads)
  simp only [moves.rest, List.length_append]
  omega

end

/-- A larger bound on the depth changes nothing. -/
def Settles (g : Rules R) (depth : Nat) (mode : Mode) (e : Expr R) (c : Cursor R) : Prop :=
  ∀ larger, depth ≤ larger → ∀ x, g.run larger mode e c x = g.run depth mode e c x

variable {r : Ranking R} {gap step : Nat}

/-- Blanks are settled where calls may nest so deep. -/
def SettlesBlanks (g : Rules R) (gap step : Nat) : Prop :=
  ∀ depth (c : Cursor R), c.rest.length * step + gap ≤ depth → g.Settles depth .token g.blank c

theorem enough_behind {short long step cost depth : Nat} (shorter : short < long)
    (small : cost ≤ step) (enough : long * step ≤ depth) : short * step + cost ≤ depth := by
  have room : (short + 1) * step ≤ long * step := Nat.mul_le_mul_right step shorter
  rw [Nat.add_mul, Nat.one_mul] at room
  omega

theorem enough_here {short long step cost depth : Nat} (le : short ≤ long)
    (enough : long * step + cost ≤ depth) : short * step + cost ≤ depth := by
  have room : short * step ≤ long * step := Nat.mul_le_mul_right step le
  omega

section

variable (ranks : r.Ranks g gap step) (plain : g.blank.IsRuleFree) {depth : Nat}
  (settled : ∀ {mode : Mode}, (mode = .spaced → g.SettlesBlanks gap step) → ∀ {e : Expr R},
    r.fits gap step e = true → ∀ {c : Cursor R}, c.rest.length * step + r.cost gap e ≤ depth →
      g.Settles depth mode e c)
  {mode : Mode} (blanks : mode = .spaced → g.SettlesBlanks gap step) {c : Cursor R}
  {larger : Nat} (le : depth ≤ larger)

include ranks plain settled blanks le

theorem settles_seq {first second : Expr R} (fits : r.fits gap step (.seq first second) = true)
    (enough : c.rest.length * step + r.cost gap (.seq first second) ≤ depth + 1)
    (x : Expectation R) : g.run (larger + 1) mode (.seq first second) c x =
      g.run (depth + 1) mode (.seq first second) c x := by
  simp only [Ranking.fits, Bool.and_eq_true, decide_eq_true_eq] at fits
  obtain ⟨⟨fitsFirst, fitsSecond⟩, small⟩ := fits
  simp only [Ranking.cost] at enough
  simp only [Rules.run]
  rw [settled blanks fitsFirst (by omega) larger le x]
  rcases ran : g.run depth mode first c x with ⟨_ | next, y⟩
  · rfl
  have nextLe := length_le_of_run plain ran
  -- Either the first part has read something, or its cost counts that of the second one.
  have secondSettles (after : Cursor R) (afterLe : after.rest.length ≤ next.rest.length) :
      g.Settles depth mode second after := by
    refine settled blanks fitsSecond ?_
    cases skipped : first.mayBeEmpty r.skips with
    | true =>
        rw [if_pos skipped] at enough
        exact enough_here (Nat.le_trans afterLe nextLe) (by omega)
    | false =>
        have nextLt := length_lt_of_run plain ran ranks.reads skipped
        exact enough_behind (Nat.lt_of_le_of_lt afterLe nextLt) small (by omega)
  cases mode with
  | spaced =>
      dsimp only
      rw [blanks rfl depth next (enough_here nextLe (by omega)) larger le y]
      rcases ranBlank : g.run depth .token g.blank next y with ⟨_ | after, z⟩
      · rfl
      · exact secondSettles after (length_le_of_run plain ranBlank) larger le z
  | compact | token => exact secondSettles next (Nat.le_refl _) larger le y

theorem settles_more {body : Expr R} (fits : r.fits gap step (.more body) = true)
    (enough : c.rest.length * step + r.cost gap (.more body) ≤ depth + 1) (x : Expectation R) :
    g.run (larger + 1) mode (.more body) c x = g.run (depth + 1) mode (.more body) c x := by
  have whole := fits
  simp only [Ranking.fits, Bool.and_eq_true, Bool.not_eq_true', decide_eq_true_eq] at fits
  obtain ⟨⟨fitsBody, reads⟩, small⟩ := fits
  have cost : r.cost gap (.more body) = 1 + max gap (r.cost gap body) := rfl
  have bodySettles (after : Cursor R) (afterLe : after.rest.length ≤ c.rest.length) :
      g.Settles depth mode body after :=
    settled blanks fitsBody (enough_here afterLe (by omega))
  have moreSettles {after next : Cursor R} (afterLe : after.rest.length ≤ c.rest.length)
      {y z : Expectation R} (ran : g.run depth mode body after y = (some next, z)) :
      g.Settles depth mode (.more body) next := by
    have nextLt := Nat.lt_of_lt_of_le (length_lt_of_run plain ran ranks.reads reads) afterLe
    exact settled blanks whole (enough_behind nextLt small (by omega))
  simp only [Rules.run]
  cases mode with
  | spaced =>
      dsimp only
      rw [blanks rfl depth c (by omega) larger le x]
      rcases ranBlank : g.run depth .token g.blank c x with ⟨_ | after, y⟩
      · rfl
      have afterLe := length_le_of_run plain ranBlank
      dsimp only
      rw [bodySettles after afterLe larger le y]
      rcases ran : g.run depth .spaced body after y with ⟨_ | next, z⟩
      · rfl
      · exact moreSettles afterLe ran larger le z
  | compact | token =>
      dsimp only
      rw [bodySettles c (Nat.le_refl _) larger le x]
      split
      · rfl
      · next ran => exact moreSettles (Nat.le_refl _) ran larger le _

theorem settles_star {body : Expr R} (fits : r.fits gap step (.star body) = true)
    (enough : c.rest.length * step + r.cost gap (.star body) ≤ depth + 1) (x : Expectation R) :
    g.run (larger + 1) mode (.star body) c x = g.run (depth + 1) mode (.star body) c x := by
  have more : r.fits gap step (.more body) = true := fits
  simp only [Ranking.fits, Bool.and_eq_true, Bool.not_eq_true', decide_eq_true_eq] at fits
  obtain ⟨⟨fitsBody, reads⟩, small⟩ := fits
  simp only [Ranking.cost] at enough
  simp only [Rules.run]
  rw [settled blanks fitsBody (by omega) larger le x]
  rcases ran : g.run depth mode body c x with ⟨_ | next, y⟩
  · rfl
  · have nextLt := length_lt_of_run plain ran ranks.reads reads
    exact settled blanks more (enough_behind nextLt small (by omega)) larger le y

omit plain in
theorem settles_rule {name : R}
    (enough : c.rest.length * step + r.cost gap (.rule name) ≤ depth + 1) (x : Expectation R) :
    g.run (larger + 1) mode (.rule name) c x = g.run (depth + 1) mode (.rule name) c x := by
  simp only [Ranking.cost] at enough
  have rank := ranks.rank name
  have inner : (g.kind name).inner mode = .spaced → g.SettlesBlanks gap step := by
    intro spaced
    refine blanks ?_
    cases kind : g.kind name <;> simp_all [Kind.inner]
  have bodySettles (start : Cursor R) (same : start.rest = c.rest) :
      g.Settles depth ((g.kind name).inner mode) (g.body name) start :=
    settled inner (ranks.fits name) (by rw [same]; omega)
  simp only [Rules.run]
  rw [bodySettles c rfl larger le x, bodySettles { c with made := [] } rfl larger le x]

end

theorem settles (ranks : r.Ranks g gap step) (plain : g.blank.IsRuleFree) {depth : Nat}
    {mode : Mode} (blanks : mode = .spaced → g.SettlesBlanks gap step) {e : Expr R}
    (fits : r.fits gap step e = true) {c : Cursor R}
    (enough : c.rest.length * step + r.cost gap e ≤ depth) : g.Settles depth mode e c := by
  induction depth generalizing mode e c with
  | zero =>
      have := r.cost_pos gap e
      omega
  | succ depth ih =>
      rintro (_ | larger) le x
      · omega
      have le : depth ≤ larger := by omega
      cases e with
      | done | text | one | finish => rfl
      | seq first second =>
          exact settles_seq ranks plain ih blanks le fits enough x
      | alt first second =>
          obtain ⟨fitsFirst, fitsSecond⟩ := Bool.and_eq_true_iff.mp fits
          simp only [Ranking.cost] at enough
          simp only [Rules.run]
          rw [ih blanks fitsFirst (by omega) larger le x]
          split
          · rfl
          · exact ih blanks fitsSecond (by omega) larger le _
      | opt body | «unless» body =>
          have inner : r.fits gap step body = true := fits
          simp only [Ranking.cost] at enough
          simp only [Rules.run]
          rw [ih blanks inner (by omega) larger le x]
      | star body => exact settles_star ranks plain ih blanks le fits enough x
      | more body => exact settles_more ranks plain ih blanks le fits enough x
      | rule name => exact settles_rule ranks ih blanks le enough x

/-- The bound of a parse does not cut it short: no larger one gives anything else. -/
theorem settles_depthFor {step : Nat} (steady : r.Ranks g 0 step)
    (ranks : r.Ranks g (r.cost 0 g.blank) step) (plain : g.blank.IsRuleFree)
    (fits : r.fits 0 step g.blank = true) (small : step ≤ 512) {root : R}
    (low : r.rank root < 1024) (c : Cursor R) :
    g.Settles (depthFor c.rest.length) .spaced (.rule root) c := by
  have blanks : g.SettlesBlanks (r.cost 0 g.blank) step := fun depth start enough =>
    settles steady plain (fun spaced => by cases spaced) fits enough
  refine settles ranks plain (fun _ => blanks) rfl ?_
  have room : c.rest.length * step ≤ c.rest.length * 512 := Nat.mul_le_mul_left _ small
  simp only [Ranking.cost, depthFor, Nat.add_mul]
  omega

end Rules

end NodeWeave.Peg
