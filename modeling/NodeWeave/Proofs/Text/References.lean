import Mathlib.Data.List.Infix
import NodeWeave.Text.Substitution

/-!
References in replacements. Main statement: a replacement is put in as it is if and only if it has
no reference.
-/

namespace NodeWeave.Text

variable {matched replacement rest : List Char} {bound : Nat} {c : Char}

/-- A dollar sign in front of the text is more than a dollar sign: it doubles the next one, or it
begins a reference to a part of the match. -/
def ReadsOn (text : List Char) : Prop :=
  match text with
  | [] => False
  | c :: rest => c = '$' ∨ isPartChar c = true ∨ c = '\x7b' ∧ '\x7d' ∈ rest

def HasReference (replacement : List Char) : Prop :=
  ∃ lead rest, replacement = lead ++ '$' :: rest ∧ ReadsOn rest

theorem hasReference_cons_iff :
    HasReference (c :: rest) ↔ c = '$' ∧ ReadsOn rest ∨ HasReference rest := by
  constructor
  · intro ⟨lead, following, split, reads⟩
    cases lead with
    | nil =>
        obtain ⟨rfl, rfl⟩ := List.cons.inj split
        exact .inl ⟨rfl, reads⟩
    | cons d lead => exact .inr ⟨lead, following, (List.cons.inj split).2, reads⟩
  · rintro (⟨rfl, reads⟩ | ⟨lead, following, rfl, reads⟩)
    · exact ⟨[], rest, rfl, reads⟩
    · exact ⟨c :: lead, following, rfl, reads⟩

theorem mem_of_hasReference (has : HasReference replacement) : '$' ∈ replacement := by
  obtain ⟨lead, rest, rfl, _⟩ := has
  exact List.mem_append_right _ List.mem_cons_self

theorem not_hasReference_nil : ¬ HasReference [] := by
  intro has
  cases mem_of_hasReference has

theorem splitFirst?_brace_eq_none_iff : splitFirst? ['\x7d'] rest = none ↔ '\x7d' ∉ rest := by
  rw [splitFirst?_eq_none_iff (List.cons_ne_nil _ _), List.singleton_infix_iff]

theorem expandParts_cons_of_ne (ne : c ≠ '$') :
    expandParts matched (bound + 1) (c :: rest) = c :: expandParts matched bound rest := by
  rw [expandParts]
  exact ne

/-- A dollar sign that is no more than that stays. -/
theorem expandParts_of_not_readsOn (alone : ¬ ReadsOn rest) :
    expandParts matched (bound + 1) ('$' :: rest) = '$' :: expandParts matched bound rest := by
  cases rest with
  | nil => simp [expandParts]
  | cons c more =>
      simp only [ReadsOn, not_or, not_and] at alone
      obtain ⟨single, unnamed, endless⟩ := alone
      by_cases brace : c = '\x7b'
      · subst brace
        rw [expandParts, splitFirst?_brace_eq_none_iff.mpr (endless rfl)]
      · rw [expandParts, List.takeWhile_cons_of_neg unnamed]
        · exact fun _ same => single (List.cons.inj same).1
        · exact fun _ same => brace (List.cons.inj same).1

theorem count_partText (plain : '$' ∉ matched) (name : List Char) :
    (partText matched name).count '$' = 0 := by
  rw [List.count_eq_zero]
  unfold partText
  intro mem
  dsimp only at mem
  split at mem
  · split at mem
    · exact plain mem
    · cases mem
  · split at mem
    · exact plain mem
    · cases mem

/-- A reference takes its dollar sign away, and brings no other one. -/
theorem count_expandParts_of_readsOn (plain : '$' ∉ matched)
    (fewer : ∀ text, (expandParts matched bound text).count '$' ≤ text.count '$')
    (reads : ReadsOn rest) :
    (expandParts matched (bound + 1) ('$' :: rest)).count '$' ≤ rest.count '$' := by
  cases rest with
  | nil => exact reads.elim
  | cons c more =>
      by_cases doubled : c = '$'
      · subst doubled
        rw [expandParts, List.count_cons_self, List.count_cons_self]
        exact Nat.succ_le_succ (fewer more)
      · by_cases brace : c = '\x7b'
        · subst brace
          rcases reads with same | part | ⟨_, closed⟩
          · exact absurd same doubled
          · exact absurd part (by decide)
          · rw [expandParts]
            cases found : splitFirst? ['\x7d'] more with
            | none => exact absurd closed (splitFirst?_brace_eq_none_iff.mp found)
            | some split =>
                obtain ⟨name, following⟩ := split
                have cut := eq_of_splitFirst? found
                have := fewer following
                rw [List.count_append, count_partText plain, cut]
                simp
                omega
        · have part : isPartChar c = true :=
            (reads.resolve_left doubled).resolve_right fun closed => brace closed.1
          have := fewer (more.dropWhile isPartChar)
          have := (List.dropWhile_sublist (l := more) isPartChar).count_le '$'
          rw [expandParts, List.takeWhile_cons_of_pos part, List.dropWhile_cons_of_pos part,
            List.count_cons_of_ne doubled]
          · dsimp only
            rw [List.count_append, count_partText plain]
            omega
          · exact fun _ same => doubled (List.cons.inj same).1
          · exact fun _ same => brace (List.cons.inj same).1

/-- References leave no dollar sign that was not there. -/
theorem count_expandParts_le (plain : '$' ∉ matched) (bound : Nat) (text : List Char) :
    (expandParts matched bound text).count '$' ≤ text.count '$' := by
  -- A reference may end anywhere, so the induction is on the bound.
  induction bound generalizing text with
  | zero => exact Nat.zero_le _
  | succ bound ih =>
      cases text with
      | nil => exact Nat.le_refl _
      | cons c rest =>
          by_cases dollar : c = '$'
          · subst dollar
            by_cases reads : ReadsOn rest
            · have := count_expandParts_of_readsOn plain ih reads
              rw [List.count_cons_self]
              omega
            · rw [expandParts_of_not_readsOn reads, List.count_cons_self, List.count_cons_self]
              exact Nat.succ_le_succ (ih rest)
          · rw [expandParts_cons_of_ne dollar, List.count_cons_of_ne dollar,
              List.count_cons_of_ne dollar]
            exact ih rest

theorem expandParts_of_not_hasReference (none : ¬ HasReference replacement)
    (enough : replacement.length ≤ bound) :
    expandParts matched bound replacement = replacement := by
  induction replacement generalizing bound with
  | nil => cases bound <;> rfl
  | cons c rest ih =>
      cases bound with
      | zero => exact absurd enough (Nat.not_succ_le_zero _)
      | succ bound =>
          rw [hasReference_cons_iff, not_or, not_and] at none
          have stays := ih none.2 (Nat.le_of_succ_le_succ enough)
          by_cases dollar : c = '$'
          · subst dollar
            rw [expandParts_of_not_readsOn (none.1 rfl), stays]
          · rw [expandParts_cons_of_ne dollar, stays]

theorem count_expandParts_lt (plain : '$' ∉ matched) (has : HasReference replacement)
    (bound : Nat) : (expandParts matched bound replacement).count '$' < replacement.count '$' := by
  induction replacement generalizing bound with
  | nil => exact absurd has not_hasReference_nil
  | cons c rest ih =>
      cases bound with
      | zero => exact List.count_pos_iff.mpr (mem_of_hasReference has)
      | succ bound =>
          rw [hasReference_cons_iff] at has
          by_cases dollar : c = '$'
          · subst dollar
            rw [List.count_cons_self, Nat.lt_succ_iff]
            by_cases reads : ReadsOn rest
            · exact count_expandParts_of_readsOn plain (count_expandParts_le plain bound) reads
            · rw [expandParts_of_not_readsOn reads, List.count_cons_self]
              exact ih (has.resolve_left fun ⟨_, now⟩ => reads now) bound
          · rw [expandParts_cons_of_ne dollar, List.count_cons_of_ne dollar,
              List.count_cons_of_ne dollar]
            exact ih (has.resolve_left fun ⟨same, _⟩ => dollar same) bound

/-- A replacement is put in as it is if and only if it has no reference. -/
theorem expandReplacement_eq_iff (plain : '$' ∉ matched) :
    expandReplacement matched replacement = replacement ↔ ¬ HasReference replacement := by
  constructor
  · intro same has
    have fewer := count_expandParts_lt plain has replacement.length
    rw [← expandReplacement, same] at fewer
    exact Nat.lt_irrefl _ fewer
  · intro none
    exact expandParts_of_not_hasReference none (Nat.le_refl _)

end NodeWeave.Text
