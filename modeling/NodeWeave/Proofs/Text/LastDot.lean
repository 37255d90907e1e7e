import NodeWeave.JavaName
import NodeWeave.Proofs.Files.Segments

/-!
Names cut at their last dot. Main statement: what stands behind the last dot of a name in a package
is what stands behind the last dot of the name alone.
-/

namespace NodeWeave

namespace Text

theorem mem_join_iff {separator : String} {texts : List String} {c : Char} :
    c ∈ (join separator texts).toList ↔
      (∃ text ∈ texts, c ∈ text.toList) ∨ c ∈ separator.toList ∧ 1 < texts.length := by
  induction texts with
  | nil => simp [join]
  | cons text rest ih =>
      by_cases none : rest = []
      · simp [none, join]
      · have more : 0 < rest.length := List.length_pos_iff.mpr none
        rw [join_cons separator text none, String.toList_append, String.toList_append,
          List.mem_append, List.mem_append, ih]
        simp only [List.mem_cons, exists_eq_or_imp, List.length_cons]
        grind

theorem mem_of_mem_splitChar {separator : Char} {text piece : String}
    (mem : piece ∈ splitChar separator text) {c : Char} (inside : c ∈ piece.toList) :
    c ∈ text.toList := by
  rw [← join_splitChar separator text, mem_join_iff]
  exact .inl ⟨piece, mem, inside⟩

end Text

namespace JavaName

theorem splitChars_append (front : List Char) {simple : List Char} (free : '.' ∉ simple) :
    splitChars (front ++ '.' :: simple) = (front, simple) := by
  have behind : (front ++ '.' :: simple).reverse.takeWhile (· != '.') = simple.reverse := by
    rw [List.reverse_append, List.reverse_cons, List.append_assoc,
      List.takeWhile_append_of_pos (fun c mem => ?_)]
    · simp
    · rw [bne_iff_ne]
      rintro rfl
      exact free (List.mem_reverse.mp mem)
  have length : (front ++ '.' :: simple).length - simple.length - 1 = front.length := by
    simp
    omega
  rw [splitChars, behind, List.reverse_reverse, length, List.take_left]

/-- What stands behind the last dot does not depend on what stands in front of it. -/
theorem simple_append_of_dot (front : String) {name : String} (dot : '.' ∈ name.toList) :
    simple (front ++ name) = simple name := by
  have stops : (name.toList.reverse.takeWhile (· != '.')).length ≠ name.toList.reverse.length := by
    intro whole
    have same := (List.takeWhile_prefix (· != '.')).eq_of_length whole
    have all := List.takeWhile_eq_self_iff.mp same '.' (List.mem_reverse.mpr dot)
    exact absurd all (by decide)
  rw [simple, simple, split, split, splitChars, splitChars, String.toList_append,
    List.reverse_append, List.takeWhile_append, if_neg stops]

theorem simple_of_dotFree {name : String} (free : '.' ∉ name.toList) : simple name = name := by
  rw [simple, split, splitChars_simple free]
  exact String.ofList_toList

/-- Without dots of its own the name is what stands behind the package. -/
theorem split_qualify (package : String) {name : String} (free : '.' ∉ name.toList) :
    split (qualify package name) = (package, name) := by
  rw [qualify]
  split
  · next empty =>
      rw [JavaName.split, splitChars_simple free, String.isEmpty_iff.mp empty]
      simp
  · have chars : (package ++ "." ++ name).toList = package.toList ++ '.' :: name.toList := by simp
    rw [JavaName.split, chars, splitChars_append _ free]
    simp

theorem simple_qualify (package name : String) :
    simple (qualify package name) = simple name := by
  by_cases dot : '.' ∈ name.toList
  · rw [qualify]
    split
    · rfl
    · exact simple_append_of_dot _ dot
  · rw [simple_of_dotFree dot, simple, split_qualify package dot]

theorem dotFree_simple (name : String) : '.' ∉ (simple name).toList := by
  rw [simple, split, String.toList_ofList, splitChars, List.mem_reverse]
  intro mem
  exact absurd (List.mem_takeWhile_imp mem) (by decide)

/-- Names are taken apart at the last of the dots that join them. -/
theorem split_join (front : List String) {last : String} (free : '.' ∉ last.toList) :
    split (Text.join "." (front ++ [last])) = (Text.join "." front, last) := by
  by_cases alone : front = []
  · rw [alone, List.nil_append]
    simp [split, Text.join, splitChars_simple free]
  · have chars : (Text.join "." front ++ "." ++ last).toList =
        (Text.join "." front).toList ++ '.' :: last.toList := by simp
    rw [Text.join_concat "." alone, split, chars, splitChars_append _ free]
    simp

/-- The simple name is the last of the names between the dots, the package is all others. -/
theorem exists_splitChar (name : String) : ∃ front : List String,
    Text.splitChar '.' name = front ++ [simple name] ∧ package name = Text.join "." front := by
  obtain ⟨front, last, cut⟩ :=
    (List.eq_nil_or_concat' (Text.splitChar '.' name)).resolve_left (Text.splitChar_ne_nil '.' name)
  have listed : last ∈ Text.splitChar '.' name := by
    rw [cut]
    exact List.mem_append_right _ List.mem_cons_self
  have free := Text.not_mem_of_mem_splitChar listed
  have same : Text.join "." (front ++ [last]) = name := by
    rw [← cut]
    exact Text.join_splitChar '.' name
  have both := split_join front free
  rw [same] at both
  rw [simple, package, both]
  exact ⟨front, cut, rfl⟩

end JavaName

end NodeWeave
