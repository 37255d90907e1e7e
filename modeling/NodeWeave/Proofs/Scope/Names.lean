import NodeWeave.Proofs.Text.LowCharacters
import NodeWeave.Scope.Basic

/-! What the names of the variables of a scope are made of. -/

namespace NodeWeave.VariableNames

open Text

variable {c : Char}

theorem isDigit_of_mem_depthDigits {depth : Nat} (mem : c ∈ (depthDigits depth).toList) :
    c.isDigit = true := by
  rw [depthDigits, String.toList_ofList] at mem
  exact isDigit_of_mem_padZeros (List.mem_of_mem_drop mem)

theorem isWord_of_mem_depthDigits {depth : Nat} (mem : c ∈ (depthDigits depth).toList) :
    isWord c = true := by
  have digit := isDigit_of_mem_depthDigits mem
  exact isWord_of_isAlphanum (by rw [Char.isAlphanum, digit, Bool.or_true])

theorem not_mem_depthDigits (low : IsLow c) (depth : Nat) : c ∉ (depthDigits depth).toList :=
  fun mem => low.not_isDigit (isDigit_of_mem_depthDigits mem)

theorem not_mem_baseName (low : IsLow c) {nodeName : String} (absent : c ∉ nodeName.toList) :
    c ∉ (baseName nodeName).toList := by
  have within : ∀ d ∈ (JavaName.splitChars nodeName.toList).2, d ∈ nodeName.toList := by
    intro d mem
    exact List.mem_reverse.mp (List.takeWhile_subset _ (List.mem_reverse.mp mem))
  unfold baseName
  split
  · intro mem
    have high : "node".toList.all (fun d => decide (48 ≤ d.toNat)) = true := by decide
    exact Nat.not_lt.mpr (of_decide_eq_true (List.all_eq_true.mp high c mem)) low.2
  · next first rest split_eq =>
      rw [split_eq] at within
      rw [String.toList_ofList, List.mem_append, not_or]
      constructor
      · apply not_mem_lowerChar low
        intro same
        rw [← same] at absent
        exact absent (within first List.mem_cons_self)
      · exact fun later => absent (within c (List.mem_cons_of_mem _ later))

end NodeWeave.VariableNames
