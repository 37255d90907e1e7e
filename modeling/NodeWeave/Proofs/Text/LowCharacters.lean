import NodeWeave.Text.Basic
import NodeWeave.Text.Casing

/-!
Characters with codes below those of digits and letters. Neither a number in decimal nor a change of
case brings one of them in.
-/

namespace NodeWeave.Text

variable {c d : Char}

/-- The code of the character is below those of the digits, and is not zero. -/
def IsLow (c : Char) : Prop :=
  0 < c.toNat ∧ c.toNat < 48

instance (c : Char) : Decidable (IsLow c) :=
  inferInstanceAs (Decidable (0 < c.toNat ∧ c.toNat < 48))

/-! ### Numbers -/

theorem isDigit_of_mem_digits {n : Nat} (mem : c ∈ (toString n).toList) : c.isDigit = true := by
  rw [Nat.toString_eq_repr, Nat.toList_repr] at mem
  exact Nat.isDigit_of_mem_toDigits (by decide) (by decide) mem

theorem isDigit_of_mem_padZeros {width n : Nat} (mem : c ∈ (padZeros width n).toList) :
    c.isDigit = true := by
  rw [padZeros, String.toList_append, String.toList_ofList, List.mem_append] at mem
  rcases mem with padding | digit
  · rw [List.eq_of_mem_replicate padding]
    rfl
  · exact isDigit_of_mem_digits digit

theorem IsLow.not_isDigit (low : IsLow c) : ¬ c.isDigit = true := by
  intro digit
  simp only [Char.isDigit, Bool.and_eq_true, decide_eq_true_eq] at digit
  have above : 48 ≤ c.toNat := digit.1
  exact Nat.not_lt.mpr above low.2

theorem not_mem_digits (low : IsLow c) (n : Nat) : c ∉ (toString n).toList :=
  fun mem => low.not_isDigit (isDigit_of_mem_digits mem)

/-! ### Cases of letters -/

theorem eq_toNat_of_ofNat (low : IsLow c) {code : Nat} (same : Char.ofNat code = c) :
    code = c.toNat := by
  by_cases valid : code.isValidChar
  · rw [Char.ofNat, dif_pos valid] at same
    exact congrArg Char.toNat same
  · rw [Char.ofNat, dif_neg valid] at same
    rw [← same] at low
    exact absurd low (by decide)

/-- No run of the table leads to a low character. -/
def AreHigh (runs : List (Nat × Nat × Nat × Int)) : Prop :=
  runs.all (fun (first, _, _, shift) => decide (48 ≤ Int.ofNat first + shift)) = true

theorem not_mem_mapped (low : IsLow c) {runs : List (Nat × Nat × Nat × Int)}
    {expansions : List (Nat × List Nat)} (high : AreHigh runs)
    (expanded : ∀ expansion ∈ expansions, ∀ code ∈ expansion.2, 48 ≤ code) (ne : d ≠ c) :
    c ∉ mapped runs expansions d := by
  unfold mapped
  split
  · next code found =>
      intro mem
      have value := eq_toNat_of_ofNat low (List.mem_singleton.mp mem).symm
      obtain ⟨⟨first, last, step, shift⟩, listed, rfl⟩ := Option.map_eq_some_iff.mp found
      have within := List.find?_some listed
      have far := List.all_eq_true.mp high _ (List.mem_of_find?_eq_some listed)
      simp only [Bool.and_eq_true, decide_eq_true_eq, Int.ofNat_eq_natCast] at within far value
      have := within.1.1
      have := low.2
      omega
  · split
    · next codes found =>
        intro mem
        obtain ⟨code, listed, same⟩ := List.mem_map.mp mem
        obtain ⟨before, after, whole, _⟩ := List.lookup_eq_some_iff.mp found
        have above := expanded (d.toNat, codes) (by simp [whole]) code listed
        rw [eq_toNat_of_ofNat low same] at above
        exact Nat.not_lt.mpr above low.2
    · intro mem
      exact ne (List.mem_singleton.mp mem).symm

/-- A change of ASCII characters that leads to no low one from elsewhere. -/
def KeepsLow (change : Char → Char) : Prop :=
  ∀ code : Fin 128, (change (Char.ofNat code)).toNat < 48 →
    change (Char.ofNat code) = Char.ofNat code

theorem ne_of_ascii {change : Char → Char} (keeps : KeepsLow change) (low : IsLow c) (ne : d ≠ c)
    (small : d.toNat < 128) : c ≠ change d := by
  intro same
  have fixed := keeps ⟨d.toNat, small⟩
  rw [Char.ofNat_toNat, ← same] at fixed
  exact ne (fixed low.2).symm

theorem not_mem_upperChar (low : IsLow c) (ne : d ≠ c) : c ∉ upperChar d := by
  unfold upperChar
  split
  · next small =>
      rw [List.mem_singleton]
      exact ne_of_ascii (by unfold KeepsLow; decide +kernel) low ne small
  · exact not_mem_mapped low (by unfold AreHigh; decide +kernel) (by decide +kernel) ne

theorem not_mem_lowerChar (low : IsLow c) (ne : d ≠ c) : c ∉ lowerChar d := by
  unfold lowerChar
  split
  · next small =>
      rw [List.mem_singleton]
      exact ne_of_ascii (by unfold KeepsLow; decide +kernel) low ne small
  · exact not_mem_mapped low (by unfold AreHigh; decide +kernel) (by decide +kernel) ne

theorem not_mem_upper (low : IsLow c) {text : String} (absent : c ∉ text.toList) :
    c ∉ (upper text).toList := by
  rw [upper, String.toList_ofList]
  intro mem
  obtain ⟨d, listed, inside⟩ := List.mem_flatMap.mp mem
  refine not_mem_upperChar low (fun same => ?_) inside
  rw [← same] at absent
  exact absent listed

end NodeWeave.Text
