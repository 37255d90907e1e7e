import Mathlib.Data.List.Nodup
import NodeWeave.Proofs.Scope.Names

/-!
When two scopes have a variable in common. Numbered variables tell depths apart up to multiples of a
thousand. Variables named for nodes tell scopes apart unless the name of the outer node goes on
where the name of the inner one ends.
-/

namespace NodeWeave

open Text

namespace VariableNames

def all (names : VariableNames) : List String :=
  [names.node, names.flag, names.exception]

/-! ### Numbers in decimal -/

theorem toDigits_of_le {n : Nat} (more : 10 ≤ n) :
    Nat.toDigits 10 n = Nat.toDigits 10 (n / 10) ++ [(n % 10).digitChar] := by
  rw [Nat.toDigits_eq_if (by decide), if_neg (by omega)]

theorem exists_toDigits_eq (n : Nat) :
    ∃ front, Nat.toDigits 10 n = front ++ [(n % 10).digitChar] := by
  rcases Nat.lt_or_ge n 10 with one | more
  · exact ⟨[], by rw [Nat.toDigits_of_lt_base one, Nat.mod_eq_of_lt one]; rfl⟩
  · exact ⟨_, toDigits_of_le more⟩

theorem eq_of_digitChar {m n : Nat} (first : m < 10) (second : n < 10)
    (same : m.digitChar = n.digitChar) : m = n := by
  have codes := congrArg Char.toNat same
  rw [Nat.toNat_digitChar_of_lt_ten first, Nat.toNat_digitChar_of_lt_ten second] at codes
  omega

theorem length_toDigits_le {m n : Nat} (less : m ≤ n) :
    (Nat.toDigits 10 m).length ≤ (Nat.toDigits 10 n).length := by
  rw [Nat.length_toDigits_le_iff (by decide) Nat.length_toDigits_pos]
  exact Nat.lt_of_le_of_lt less
    ((Nat.length_toDigits_le_iff (by decide) Nat.length_toDigits_pos).mp (Nat.le_refl _))

/-! ### Numbered variables -/

theorem toList_depthDigits (depth : Nat) : (depthDigits depth).toList =
    [(depth / 100 % 10).digitChar, (depth / 10 % 10).digitChar, (depth % 10).digitChar] := by
  have padded : (depthDigits depth).toList =
      (List.replicate (3 - (Nat.toDigits 10 depth).length) '0' ++ Nat.toDigits 10 depth).drop
        ((Nat.toDigits 10 depth).length - 3) := by
    rw [depthDigits, String.toList_ofList, padZeros, String.toList_append, String.toList_ofList,
      Nat.toString_eq_repr, Nat.toList_repr, ← String.length_toList, Nat.toList_repr,
      List.length_append, List.length_replicate]
    congr 1
    omega
  rw [padded]
  rcases Nat.lt_or_ge depth 10 with one | more
  · rw [Nat.toDigits_of_lt_base one, Nat.div_eq_of_lt one, Nat.mod_eq_of_lt one,
      Nat.div_eq_of_lt (by omega : depth < 100)]
    rfl
  rcases Nat.lt_or_ge depth 100 with two | three
  · rw [toDigits_of_le more, Nat.toDigits_of_lt_base (by omega), Nat.div_eq_of_lt two,
      Nat.mod_eq_of_lt (by omega : depth / 10 < 10)]
    rfl
  · obtain ⟨front, last⟩ := exists_toDigits_eq (depth / 100)
    rw [toDigits_of_le more, toDigits_of_le (by omega), Nat.div_div_eq_div_mul, last]
    simp

theorem depthDigits_eq_iff {first second : Nat} :
    depthDigits first = depthDigits second ↔ first % 1000 = second % 1000 := by
  rw [← String.toList_inj, toList_depthDigits, toList_depthDigits]
  constructor
  · intro same
    obtain ⟨hundreds, same⟩ := List.cons.inj same
    obtain ⟨tens, same⟩ := List.cons.inj same
    have ones := List.head_eq_of_cons_eq same
    have := eq_of_digitChar (by omega) (by omega) hundreds
    have := eq_of_digitChar (by omega) (by omega) tens
    have := eq_of_digitChar (by omega) (by omega) ones
    omega
  · intro same
    rw [show first / 100 % 10 = second / 100 % 10 by omega,
      show first / 10 % 10 = second / 10 % 10 by omega, show first % 10 = second % 10 by omega]

theorem mem_all_numbered {name : String} {depth : Nat} : name ∈ (numbered depth).all ↔
    ∃ kind ∈ ['n', 'c', 'e'],
      name.toList = 'j' :: 'j' :: 't' :: kind :: (depthDigits depth).toList := by
  simp [all, numbered, ← String.toList_inj]

theorem nodup_all_numbered (depth : Nat) : (numbered depth).all.Nodup := by
  simp [all, numbered, ← String.toList_inj]

theorem disjoint_numbered_iff {first second : Nat} :
    (numbered first).all.Disjoint (numbered second).all ↔ first % 1000 ≠ second % 1000 := by
  constructor
  · intro apart same
    have equal : numbered first = numbered second := by
      rw [numbered, numbered, depthDigits_eq_iff.mpr same]
    rw [equal] at apart
    exact apart List.mem_cons_self List.mem_cons_self
  · intro differ name inFirst inSecond
    obtain ⟨kind, _, spelled⟩ := mem_all_numbered.mp inFirst
    obtain ⟨other, _, spelledToo⟩ := mem_all_numbered.mp inSecond
    rw [spelled] at spelledToo
    simp only [List.cons.injEq, String.toList_inj] at spelledToo
    exact differ (depthDigits_eq_iff.mp spelledToo.2.2.2.2)

/-! ### Variables named for nodes -/

/-- What stands behind the name of a node in its variables. -/
def depthSuffix (depth : Nat) : String :=
  if depth = 0 then "" else toString depth

theorem descriptive_eq (nodeName : String) (depth : Nat) : descriptive nodeName depth =
    ⟨baseName nodeName ++ depthSuffix depth, baseName nodeName ++ depthSuffix depth ++ "NeedsClose",
      baseName nodeName ++ depthSuffix depth ++ "Exception"⟩ := rfl

theorem nodup_all_descriptive (nodeName : String) (depth : Nat) :
    (descriptive nodeName depth).all.Nodup := by
  simp [all, descriptive_eq, ← String.toList_inj]

/-- How variables end that are no node variables. -/
def endings : List String :=
  ["NeedsClose", "Exception"]

theorem mem_all_descriptive {name nodeName : String} {depth : Nat} :
    name ∈ (descriptive nodeName depth).all ↔
      ∃ ending ∈ "" :: endings, name = baseName nodeName ++ depthSuffix depth ++ ending := by
  simp [all, descriptive_eq, endings]

/-- The last character of a variable, where a number stands at its end. -/
theorem isDigit_getLast?_depthSuffix {depth : Nat} (inside : 0 < depth) (base : String) :
    (base ++ depthSuffix depth).toList.getLast?.any Char.isDigit = true := by
  obtain ⟨front, last⟩ := exists_toDigits_eq depth
  have digit : (depth % 10).digitChar.isDigit = true :=
    Nat.isDigit_of_mem_toDigits (by decide) (by decide) (last ▸ List.mem_concat_self)
  rw [depthSuffix, if_neg (by omega), String.toList_append, Nat.toString_eq_repr,
    Nat.toList_repr, last]
  simpa using digit

theorem getLast?_append_ending {ending : String} (listed : ending ∈ endings) (front : String) :
    (front ++ ending).toList.getLast? = ending.toList.getLast? := by
  have solid : ∀ ending ∈ endings, ending.toList ≠ [] := by decide
  rw [String.toList_append, List.getLast?_append_of_ne_nil _ (solid ending listed)]

theorem eq_of_getLast?_ending {first second : String} (listed : first ∈ endings)
    (listedToo : second ∈ endings)
    (same : first.toList.getLast? = second.toList.getLast?) : first = second := by
  have differ : "NeedsClose".toList.getLast? ≠ "Exception".toList.getLast? := by decide
  simp only [endings, List.mem_cons, List.not_mem_nil, or_false] at listed listedToo
  rcases listed with rfl | rfl <;> rcases listedToo with rfl | rfl
  · rfl
  · exact absurd same differ
  · exact absurd same.symm differ
  · rfl

/-- A variable with a number at its end has none of the endings. -/
theorem ne_append_ending {ending : String} (listed : ending ∈ endings) {depth : Nat}
    (inside : 0 < depth) (base front : String) : base ++ depthSuffix depth ≠ front ++ ending := by
  intro same
  have noDigit : ∀ ending ∈ endings, ending.toList.getLast?.any Char.isDigit = false := by decide
  have digit := isDigit_getLast?_depthSuffix inside base
  rw [same, getLast?_append_ending listed, noDigit ending listed] at digit
  cases digit

/-- The variables of an outer scope may be those of an inner one: the name of the outer node is that
of the inner one with the first digits of the inner depth behind it, or, for the outermost scope,
with the whole depth and the ending of a variable. -/
def Anticipates (outerName : String) (outerDepth : Nat) (innerName : String) (innerDepth : Nat) :
    Prop :=
  (∃ digits, digits ++ depthSuffix outerDepth = toString innerDepth ∧
    baseName outerName = baseName innerName ++ digits) ∨
  (outerDepth = 0 ∧ ∃ ending ∈ endings,
    baseName outerName = baseName innerName ++ toString innerDepth ++ ending)

section

variable {outerName innerName : String} {outerDepth innerDepth : Nat}

theorem anticipates_of_node_eq (inside : outerDepth < innerDepth)
    (same : baseName outerName ++ depthSuffix outerDepth =
      baseName innerName ++ depthSuffix innerDepth) :
    Anticipates outerName outerDepth innerName innerDepth := by
  have inner : depthSuffix innerDepth = toString innerDepth := if_neg (by omega)
  have shorter : (depthSuffix outerDepth).toList.length ≤ (toString innerDepth).toList.length := by
    rw [depthSuffix]
    split
    · exact Nat.zero_le _
    · rw [Nat.toString_eq_repr, Nat.toString_eq_repr, Nat.toList_repr, Nat.toList_repr]
      exact length_toDigits_le (Nat.le_of_lt inside)
  rw [inner, ← String.toList_inj, String.toList_append, String.toList_append] at same
  -- Both numbers end the same text, so the shorter one ends the longer one.
  have outerEnds := List.suffix_append (baseName outerName).toList (depthSuffix outerDepth).toList
  rw [same] at outerEnds
  obtain ⟨digits, ends⟩ :=
    List.suffix_of_suffix_length_le outerEnds (List.suffix_append _ _) shorter
  refine .inl ⟨String.ofList digits, ?_, ?_⟩
  · rw [← String.toList_inj, String.toList_append, String.toList_ofList, ends]
  · rw [← ends, ← List.append_assoc] at same
    rw [← String.toList_inj, String.toList_append, String.toList_ofList]
    exact List.append_cancel_right same

theorem disjoint_descriptive (inside : outerDepth < innerDepth)
    (apart : ¬ Anticipates outerName outerDepth innerName innerDepth) :
    (descriptive outerName outerDepth).all.Disjoint (descriptive innerName innerDepth).all := by
  intro name inOuter inInner
  obtain ⟨first, listed, spelled⟩ := mem_all_descriptive.mp inOuter
  obtain ⟨second, listedToo, same⟩ := mem_all_descriptive.mp inInner
  rw [spelled] at same
  have positive : 0 < innerDepth := by omega
  rcases List.mem_cons.mp listed with rfl | outerEnds
  · rcases List.mem_cons.mp listedToo with rfl | innerEnds
    · rw [String.append_empty, String.append_empty] at same
      exact apart (anticipates_of_node_eq inside same)
    · rw [String.append_empty] at same
      rcases Nat.eq_zero_or_pos outerDepth with rfl | outerPositive
      · rw [depthSuffix, if_pos rfl, String.append_empty, depthSuffix,
          if_neg (Nat.ne_of_gt positive)] at same
        exact apart (.inr ⟨rfl, second, innerEnds, same⟩)
      · exact ne_append_ending innerEnds outerPositive _ _ same
  · rcases List.mem_cons.mp listedToo with rfl | innerEnds
    · rw [String.append_empty] at same
      exact ne_append_ending outerEnds positive _ _ same.symm
    · -- The two endings have different last characters, so they are one and the same.
      have lasts := congrArg (fun text : String => text.toList.getLast?) same
      simp only [getLast?_append_ending outerEnds, getLast?_append_ending innerEnds] at lasts
      rw [eq_of_getLast?_ending outerEnds innerEnds lasts, String.append_left_inj] at same
      exact apart (anticipates_of_node_eq inside same)

end

end VariableNames

end NodeWeave
