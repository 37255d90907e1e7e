import Mathlib.Data.List.Forall2
import NodeWeave.Grammar.NodeOptions
import NodeWeave.Proofs.Grammar.Names
import NodeWeave.Proofs.Text.LastDot

/-!
The constants that identify nodes. Main statement: two names of nodes have the same constant if and
only if they are alike, which is up to the case of letters and to dots for underscores.
-/

namespace NodeWeave.Grammar

/-- The characters are one letter in either case, or both join parts of a name. -/
def AlikeChars (c d : Char) : Prop :=
  c.toUpper = d.toUpper ∨ (c = '.' ∨ c = '_') ∧ (d = '.' ∨ d = '_')

instance : DecidableRel AlikeChars :=
  fun c d => inferInstanceAs
    (Decidable (c.toUpper = d.toUpper ∨ (c = '.' ∨ c = '_') ∧ (d = '.' ∨ d = '_')))

/-- The names differ in the case of letters, and in dots that are underscores, at most. -/
def Alike (a b : String) : Prop :=
  List.Forall₂ AlikeChars a.toList b.toList

instance : DecidableRel Alike :=
  fun a b => inferInstanceAs (Decidable (List.Forall₂ AlikeChars a.toList b.toList))

/-! ### Characters of constants -/

def constantChar (c : Char) : Char :=
  if c.toUpper = '.' then '_' else c.toUpper

theorem small_of_isNameChar {c : Char} (name : Format.isNameChar c = true) : c.toNat < 128 := by
  simp only [Format.isNameChar, Bool.or_eq_true, beq_iff_eq] at name
  rcases name with (name | rfl) | rfl
  · exact Text.small_of_isAlphanum name
  · decide
  · decide

/-- A name of a node is made of dots and of characters of identifiers. -/
theorem isNameChar_of_isDotted {name : String} (dotted : isDotted name.toList = true) {c : Char}
    (mem : c ∈ name.toList) : c = '.' ∨ Format.isNameChar c = true := by
  rw [← Text.join_splitChar '.' name, Text.mem_join_iff] at mem
  rcases mem with ⟨piece, listed, inside⟩ | ⟨dot, -⟩
  · right
    obtain ⟨chars, cut, rfl⟩ := List.mem_map.mp listed
    rw [String.toList_ofList] at inside
    exact isNameChar_of_mem (List.all_eq_true.mp dotted chars cut) inside
  · exact .inl (by simpa using dot)

theorem small_of_isDotted {name : String} (dotted : isDotted name.toList = true) {c : Char}
    (mem : c ∈ name.toList) : c.toNat < 128 := by
  rcases isNameChar_of_isDotted dotted mem with rfl | name
  · decide
  · exact small_of_isNameChar name

/-- What holds of all ASCII characters holds of a small one. -/
theorem of_small {P : Char → Prop} (all : ∀ code : Fin 128, P (Char.ofNat code)) {c : Char}
    (small : c.toNat < 128) : P c := by
  have here := all ⟨c.toNat, small⟩
  rwa [Char.ofNat_toNat] at here

theorem constantChar_eq_iff {c d : Char} (smallFirst : c.toNat < 128)
    (smallSecond : d.toNat < 128) : constantChar c = constantChar d ↔ AlikeChars c d := by
  -- no other character becomes a dot or an underscore in upper case
  have joints : ∀ {c : Char}, c.toNat < 128 →
      (c.toUpper = '.' ↔ c = '.') ∧ (c.toUpper = '_' ↔ c = '_') :=
    fun small => of_small (P := fun c => (c.toUpper = '.' ↔ c = '.') ∧ (c.toUpper = '_' ↔ c = '_'))
      (by decide) small
  obtain ⟨dotFirst, barFirst⟩ := joints smallFirst
  obtain ⟨dotSecond, barSecond⟩ := joints smallSecond
  unfold constantChar AlikeChars
  grind

theorem isNameChar_constantChar {c : Char} (joins : c = '.' ∨ Format.isNameChar c = true) :
    Format.isNameChar (constantChar c) = true := by
  have small : c.toNat < 128 := joins.elim (fun same => same ▸ by decide) small_of_isNameChar
  exact of_small (P := fun c => c = '.' ∨ Format.isNameChar c = true →
    Format.isNameChar (constantChar c) = true) (by decide) small joins

theorem map_constantChar_eq_iff {a b : List Char} (smallFirst : ∀ c ∈ a, c.toNat < 128)
    (smallSecond : ∀ c ∈ b, c.toNat < 128) :
    a.map constantChar = b.map constantChar ↔ List.Forall₂ AlikeChars a b := by
  induction a generalizing b with
  | nil => cases b <;> simp
  | cons c a ih =>
      cases b with
      | nil => simp
      | cons d b =>
          rw [List.forall_mem_cons] at smallFirst smallSecond
          rw [List.map_cons, List.map_cons, List.cons.injEq, List.forall₂_cons,
            constantChar_eq_iff smallFirst.1 smallSecond.1, ih smallFirst.2 smallSecond.2]

/-! ### Constants -/

theorem toList_nodeConstant {raw : String} (small : ∀ c ∈ raw.toList, c.toNat < 128) :
    (nodeConstant raw).toList = ['J', 'J', 'T'] ++ raw.toList.map constantChar := by
  have upper : raw.toList.flatMap Text.upperChar = raw.toList.map Char.toUpper := by
    rw [List.map_eq_flatMap]
    exact List.flatMap_congr fun c mem => Text.upperChar_of_ascii (small c mem)
  rw [nodeConstant, String.toList_append, Text.replaceChar, Text.upper, upper]
  simp [constantChar]

theorem nodeConstant_eq_iff {a b : String} (first : isDotted a.toList = true)
    (second : isDotted b.toList = true) : nodeConstant a = nodeConstant b ↔ Alike a b := by
  rw [← String.toList_inj, toList_nodeConstant fun c => small_of_isDotted first,
    toList_nodeConstant fun c => small_of_isDotted second, List.append_cancel_left_eq,
    map_constantChar_eq_iff (fun c => small_of_isDotted first) (fun c => small_of_isDotted second),
    Alike]

theorem isIdentifier_nodeConstant {raw : String} (dotted : isDotted raw.toList = true) :
    isIdentifier (nodeConstant raw).toList = true := by
  rw [toList_nodeConstant fun c => small_of_isDotted dotted]
  have mapped : (raw.toList.map constantChar).all Format.isNameChar = true := by
    rw [List.all_map, List.all_eq_true]
    exact fun c mem => isNameChar_constantChar (isNameChar_of_isDotted dotted mem)
  rw [List.cons_append, isIdentifier, List.all_append, mapped]
  decide

end NodeWeave.Grammar
