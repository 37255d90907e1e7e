import Mathlib.Data.List.DropRight
import NodeWeave.Generation.ClassName

/-!
The names in a path. A path is its names with slashes between them, the path around it is made of
all of them but the last, and the file of a class adds plain names to the path it is put below.
-/

namespace NodeWeave

namespace Text

theorem join_cons (separator text : String) {rest : List String} (some : rest ≠ []) :
    join separator (text :: rest) = text ++ separator ++ join separator rest := by
  obtain ⟨next, rest, rfl⟩ := List.exists_cons_of_ne_nil some
  rfl

theorem toList_join (separator : String) (texts : List String) :
    (join separator texts).toList = separator.toList.intercalate (texts.map String.toList) := by
  induction texts with
  | nil => rfl
  | cons text rest ih =>
      cases rest with
      | nil => simp [join, List.intercalate]
      | cons next rest =>
          simp only [join, String.toList_append, ih, List.map_cons]
          simp [List.intercalate]

theorem splitChar_append (separator : Char) (a b : String) :
    splitChar separator (a ++ String.singleton separator ++ b) =
      splitChar separator a ++ splitChar separator b := by
  simp [splitChar, List.splitOn_append_cons_self]

theorem splitChar_ne_nil (separator : Char) (text : String) : splitChar separator text ≠ [] := by
  simp [splitChar, List.splitOn_ne_nil]

theorem join_splitChar (separator : Char) (text : String) :
    join (String.singleton separator) (splitChar separator text) = text := by
  apply String.toList_injective
  rw [toList_join, splitChar, List.map_map]
  simp [Function.comp_def, List.intercalate_splitOn]

theorem splitChar_join {separator : Char} {texts : List String}
    (free : ∀ text ∈ texts, separator ∉ text.toList) (some : texts ≠ []) :
    splitChar separator (join (String.singleton separator) texts) = texts := by
  rw [splitChar, toList_join, String.toList_singleton,
    List.splitOn_intercalate separator (by simpa using free) (by simpa using some), List.map_map]
  simp [Function.comp_def]

theorem not_mem_of_mem_splitOn {separator : Char} {text piece : List Char}
    (mem : piece ∈ text.splitOn separator) : separator ∉ piece := by
  induction text generalizing piece with
  | nil =>
      rw [List.splitOn_nil, List.mem_singleton] at mem
      simp [mem]
  | cons c rest ih =>
      rw [List.splitOn_cons_eq_if_modifyHead] at mem
      split at mem
      · cases mem with
        | head => simp
        | tail _ mem => exact ih mem
      · next other =>
          obtain ⟨first, others, pieces⟩ := List.exists_cons_of_ne_nil
            (List.splitOn_ne_nil separator rest)
          rw [pieces, List.modifyHead_cons, List.mem_cons] at mem
          rw [pieces] at ih
          cases mem with
          | inl same =>
              rw [same, List.mem_cons, not_or]
              exact ⟨fun eq => other (beq_iff_eq.mpr eq.symm), ih List.mem_cons_self⟩
          | inr mem => exact ih (List.mem_cons_of_mem _ mem)

theorem not_mem_of_mem_splitChar {separator : Char} {text piece : String}
    (mem : piece ∈ splitChar separator text) : separator ∉ piece.toList := by
  obtain ⟨chars, cut, rfl⟩ := List.mem_map.mp mem
  rw [String.toList_ofList]
  exact not_mem_of_mem_splitOn cut

theorem exists_join_append (separator : String) (a b : List String) :
    ∃ rest, join separator (a ++ b) = join separator a ++ rest := by
  induction a with
  | nil => exact ⟨_, (String.empty_append).symm⟩
  | cons text others ih =>
      cases others with
      | nil =>
          cases b with
          | nil => exact ⟨"", (String.append_empty).symm⟩
          | cons next b => exact ⟨separator ++ join separator (next :: b), String.append_assoc ..⟩
      | cons next others =>
          obtain ⟨rest, same⟩ := ih
          refine ⟨rest, ?_⟩
          rw [List.cons_append, join_cons separator text (by simp), same,
            join_cons separator text (by simp)]
          exact (String.append_assoc ..).symm

theorem join_concat (separator : String) {texts : List String} (some : texts ≠ [])
    (last : String) :
    join separator (texts ++ [last]) = join separator texts ++ separator ++ last := by
  apply String.toList_injective
  induction texts with
  | nil => exact absurd rfl some
  | cons text rest ih =>
      by_cases empty : rest = []
      · simp [empty, join]
      · rw [List.cons_append, join_cons separator text (by simp), join_cons separator text empty]
        simp [ih empty]

end Text

namespace Path

/-! ### Paths and their names -/

theorem segments_append (a b : String) : segments (a ++ "/" ++ b) = segments a ++ segments b :=
  Text.splitChar_append '/' a b

theorem segments_ne_nil (path : String) : segments path ≠ [] :=
  Text.splitChar_ne_nil '/' path

theorem segments_join {names : List String} (free : ∀ name ∈ names, '/' ∉ name.toList)
    (some : names ≠ []) : segments (Text.join "/" names) = names :=
  Text.splitChar_join free some

theorem join_segments (path : String) : Text.join "/" (segments path) = path :=
  Text.join_splitChar '/' path

theorem slashFree_of_mem_segments {path name : String} (mem : name ∈ segments path) :
    '/' ∉ name.toList :=
  Text.not_mem_of_mem_splitChar mem

@[simp] theorem core_nil : core [] = [] := rfl

theorem core_eq_rdropWhile (first : String) (rest : List String) :
    core (first :: rest) = first :: rest.rdropWhile isFiller := rfl

theorem exists_core_append (names : List String) :
    ∃ fillers, (∀ name ∈ fillers, isFiller name = true) ∧ names = core names ++ fillers := by
  cases names with
  | nil => exact ⟨[], by simp, rfl⟩
  | cons first rest =>
      refine ⟨rest.rtakeWhile isFiller, fun name mem => List.mem_rtakeWhile_imp mem, ?_⟩
      rw [core_eq_rdropWhile, List.cons_append, List.rdropWhile_append_rtakeWhile]

@[simp] theorem core_core (names : List String) : core (core names) = core names := by
  cases names with
  | nil => rfl
  | cons first rest =>
      rw [core_eq_rdropWhile, core_eq_rdropWhile, List.rdropWhile_idempotent]

theorem core_concat (names : List String) {last : String} (solid : isFiller last = false) :
    core (names ++ [last]) = names ++ [last] := by
  cases names with
  | nil => rfl
  | cons first rest =>
      rw [List.cons_append, core_eq_rdropWhile,
        List.rdropWhile_concat_neg _ _ last (by simp [solid])]

theorem solid_of_core_concat {names : List String} {last : String} (some : names ≠ [])
    (same : core (names ++ [last]) = names ++ [last]) : isFiller last = false := by
  obtain ⟨first, rest, rfl⟩ := List.exists_cons_of_ne_nil some
  rw [List.cons_append, core_eq_rdropWhile, List.cons.injEq, List.rdropWhile_eq_self_iff] at same
  simpa using same.2 (by simp)

theorem core_isPrefix (names : List String) : core names <+: names := by
  obtain ⟨fillers, _, same⟩ := exists_core_append names
  exact ⟨fillers, same.symm⟩

theorem segments_ofSegments {names : List String} (free : ∀ name ∈ names, '/' ∉ name.toList)
    (some : names ≠ []) (noRoot : names ≠ [""]) : segments (ofSegments names) = names := by
  rw [ofSegments, if_neg noRoot, segments_join free some]

theorem ofSegments_ne_empty {names : List String} (free : ∀ name ∈ names, '/' ∉ name.toList)
    (some : names ≠ []) : ofSegments names ≠ "" := by
  intro empty
  by_cases root : names = [""]
  · rw [root] at empty
    exact absurd empty (by decide)
  · have cut := segments_ofSegments free some root
    rw [empty] at cut
    exact root cut.symm

theorem length_le_ofSegments (names : List String) :
    names.length ≤ (ofSegments names).length + 1 := by
  have slashes : names.length ≤ (Text.join "/" names).length + 1 := by
    induction names with
    | nil => simp
    | cons first rest ih =>
        by_cases empty : rest = []
        · simp [empty]
        · have one : "/".length = 1 := rfl
          rw [Text.join_cons "/" first empty, String.length_append, String.length_append, one,
            List.length_cons]
          omega
  rw [ofSegments]
  split
  · next root => simp [root]
  · exact slashes

/-- The path around a path. Without a directory it is the empty one. -/
theorem parent?_eq {path last : String} {names : List String}
    (cut : segments path = names ++ [last]) (whole : core (names ++ [last]) = names ++ [last])
    (named : last ≠ "") : parent? path = some (ofSegments (core names)) := by
  rw [parent?, cut, whole]
  cases names with
  | nil => simp [named, ofSegments, Text.join]
  | cons first rest =>
      cases rest with
      | nil => rfl
      | cons next rest =>
          simp only [List.cons_append]
          rw [← List.cons_append, ← List.cons_append, List.dropLast_concat]

theorem exists_ofSegments_append {path last : String} {names : List String}
    (cut : segments path = names ++ [last]) :
    ∃ rest, path = ofSegments (core names) ++ rest := by
  obtain ⟨fillers, _, same⟩ := exists_core_append names
  have whole : path = Text.join "/" (core names ++ (fillers ++ [last])) := by
    rw [← join_segments path, cut, ← List.append_assoc, ← same]
  by_cases root : core names = [""]
  · refine ⟨Text.join "/" (fillers ++ [last]), ?_⟩
    rw [whole, root, List.singleton_append, Text.join_cons "/" "" (by simp), ofSegments, if_pos rfl,
      String.empty_append]
  · obtain ⟨rest, behind⟩ := Text.exists_join_append "/" (core names) (fillers ++ [last])
    exact ⟨rest, by rw [whole, behind, ofSegments, if_neg root]⟩

theorem isAbsolute_append {a : String} (some : a ≠ "") (b : String) :
    isAbsolute (a ++ b) = isAbsolute a := by
  have chars : a.toList ≠ [] := by simpa using some
  obtain ⟨c, rest, same⟩ := List.exists_cons_of_ne_nil chars
  simp [isAbsolute, same]

theorem isAbsolute_eq_false {path : String} (free : '/' ∉ path.toList) :
    isAbsolute path = false := by
  cases chars : path.toList with
  | nil => simp [isAbsolute, chars]
  | cons c rest =>
      rw [chars, List.mem_cons, not_or] at free
      simpa [isAbsolute, chars] using Ne.symm free.1

theorem isAbsolute_join {first : String} {rest : List String} (free : '/' ∉ first.toList)
    (some : rest ≠ []) : isAbsolute (Text.join "/" (first :: rest)) = (first == "") := by
  rw [Text.join_cons "/" first some, String.append_assoc]
  by_cases empty : first = ""
  · simp [empty, isAbsolute]
  · rw [isAbsolute_append empty, isAbsolute_eq_false free, beq_false_of_ne empty]

theorem isAbsolute_ofSegments_core {path last : String} {names : List String}
    (cut : segments path = names ++ [last]) (some : names ≠ []) :
    isAbsolute (ofSegments (core names)) = isAbsolute path := by
  obtain ⟨first, rest, rfl⟩ := List.exists_cons_of_ne_nil some
  have free : '/' ∉ first.toList :=
    slashFree_of_mem_segments (cut ▸ List.mem_cons_self : first ∈ segments path)
  have whole : isAbsolute path = (first == "") := by
    rw [← join_segments path, cut, List.cons_append, isAbsolute_join free (by simp)]
  rw [whole, core_eq_rdropWhile]
  cases short : rest.rdropWhile isFiller with
  | nil =>
      by_cases empty : first = ""
      · simp [empty, ofSegments, isAbsolute]
      · simp [empty, ofSegments, Text.join, isAbsolute_eq_false free]
  | cons next others =>
      rw [ofSegments, if_neg (by simp), isAbsolute_join free (by simp)]

theorem ne_empty_of_segments {path last : String} {names : List String}
    (cut : segments path = names ++ [last]) (named : last ≠ "") : path ≠ "" := by
  rintro rfl
  have same := congrArg List.getLast? cut
  rw [List.getLast?_concat] at same
  exact named (Option.some.inj same).symm

theorem getLast?_ne_slash {path last : String} {names : List String}
    (cut : segments path = names ++ [last]) (named : last ≠ "") :
    path.toList.getLast? ≠ some '/' := by
  have free : '/' ∉ last.toList := by
    apply slashFree_of_mem_segments
    rw [cut]
    simp
  obtain ⟨front, same⟩ : ∃ front, path = front ++ last := by
    rw [← join_segments path, cut]
    by_cases single : names = []
    · exact ⟨"", by simp [single, Text.join]⟩
    · exact ⟨_, Text.join_concat "/" single last⟩
  rw [same, String.toList_append, List.getLast?_append_of_ne_nil _ (by simpa using named)]
  exact fun ends => free (List.mem_of_getLast? ends)

/-! ### Paths below others -/

/-- The names that lead to a base, as they stand in the paths below it. -/
def within (base : String) : List String :=
  if base.isEmpty then []
  else if base.toList.getLast? == some '/' then (segments base).dropLast
  else segments base

theorem exists_front {base : String} (ends : base.toList.getLast? = some '/') :
    ∃ front, base = front ++ "/" ∧ segments base = segments front ++ [""] := by
  obtain ⟨chars, same⟩ := List.getLast?_eq_some_iff.mp ends
  have cut : base = String.ofList chars ++ "/" := by
    apply String.toList_injective
    simp [same]
  refine ⟨String.ofList chars, cut, ?_⟩
  have empty : segments "" = [""] := rfl
  rw [← empty, ← segments_append, String.append_empty, ← cut]

/-- Behind the names that lead to it, a base has one empty name at most. -/
theorem segments_eq_within (base : String) :
    segments base = within base ∨ segments base = within base ++ [""] := by
  rw [within]
  split
  · next empty =>
      rw [String.isEmpty_iff] at empty
      rw [empty]
      exact .inr rfl
  · split
    · next ends =>
        obtain ⟨front, _, same⟩ := exists_front (beq_iff_eq.mp ends)
        rw [same, List.dropLast_concat]
        exact .inr rfl
    · exact .inl rfl

theorem segments_pathJoin {path : String} (relative : isAbsolute path = false) (base : String) :
    segments (join base path) = within base ++ segments path := by
  rw [join, within, relative, Bool.false_or]
  split
  · rfl
  · split
    · next ends =>
        obtain ⟨front, cut, same⟩ := exists_front (beq_iff_eq.mp ends)
        rw [same, List.dropLast_concat, cut, segments_append]
    · rw [segments_append]

theorem isAbsolute_pathJoin {path : String} (relative : isAbsolute path = false) (base : String) :
    isAbsolute (join base path) = isAbsolute base := by
  rw [join, relative, Bool.false_or]
  split
  · next empty =>
      rw [String.isEmpty_iff] at empty
      rw [empty, relative]
      rfl
  · next some =>
      have named : base ≠ "" := by simpa using some
      split
      · exact isAbsolute_append named path
      · rw [String.append_assoc, isAbsolute_append named]

end Path

/-! ### The file of a class -/

namespace ClassName

open NodeWeave.Path

def package (name : String) : List String :=
  (Text.splitChar '.' name).dropLast

def fileName (name : String) : String :=
  (Text.splitChar '.' name).getLast (Text.splitChar_ne_nil '.' name) ++ ".java"

/-- The name leads into a directory, and it has no extension. -/
structure IsPlain (name : String) : Prop where
  solid : isFiller name = false
  dotFree : '.' ∉ name.toList
  slashFree : '/' ∉ name.toList

theorem mem_of_isSegment {chars : List Char} (segment : isSegment chars = true) {c : Char}
    (mem : c ∈ chars) : isStart c = true ∨ isPart c = true := by
  cases chars with
  | nil => cases mem
  | cons first rest =>
      rw [isSegment, Bool.and_eq_true, List.all_eq_true] at segment
      cases mem with
      | head => exact .inl segment.1
      | tail _ mem => exact .inr (segment.2 c mem)

theorem isPlain_of_isSegment {name : String} (segment : isSegment name.toList = true) :
    IsPlain name := by
  have dotFree : '.' ∉ name.toList := by
    intro mem
    have none : ¬(isStart '.' = true ∨ isPart '.' = true) := by decide
    exact none (mem_of_isSegment segment mem)
  refine ⟨?_, dotFree, ?_⟩
  · rw [isFiller, Bool.or_eq_false_iff]
    constructor
    · apply beq_false_of_ne
      rintro rfl
      cases segment
    · apply beq_false_of_ne
      rintro rfl
      exact dotFree (List.mem_singleton_self _)
  · intro mem
    have none : ¬(isStart '/' = true ∨ isPart '/' = true) := by decide
    exact none (mem_of_isSegment segment mem)

theorem isPlain_of_isQualified {name segment : String} (qualified : isQualified name = true)
    (mem : segment ∈ Text.splitChar '.' name) : IsPlain segment :=
  isPlain_of_isSegment (List.all_eq_true.mp qualified segment mem)

theorem IsPlain.ne_empty {name : String} (plain : IsPlain name) : name ≠ "" := by
  rintro rfl
  cases plain.solid

theorem ofNames_eq_join {names : List String} (plain : ∀ name ∈ names, IsPlain name) :
    ofNames names = Text.join "/" names := by
  induction names using List.reverseRecOn with
  | nil => rfl
  | append_singleton names last ih =>
      have front := ih fun name mem => plain name (List.mem_append_left _ mem)
      have plainLast := plain last (by simp)
      rw [ofNames] at front ⊢
      rw [List.foldl_append, List.foldl_cons, List.foldl_nil, front]
      by_cases empty : names = []
      · simp [empty, Text.join]
      · obtain ⟨start, inner, cut⟩ := (List.eq_nil_or_concat' names).resolve_left empty
        have plainInner := plain inner (by simp [cut])
        have free : ∀ name ∈ names, '/' ∉ name.toList :=
          fun name mem => (plain name (List.mem_append_left _ mem)).slashFree
        have noEnd := getLast?_ne_slash ((segments_join free empty).trans cut) plainInner.ne_empty
        have named := ne_empty_of_segments ((segments_join free empty).trans cut)
          plainInner.ne_empty
        rw [Text.join_concat "/" empty, Path.join, isAbsolute_eq_false plainLast.slashFree,
          Bool.false_or, if_neg (by simpa using named), if_neg (by simpa using noEnd)]

theorem splitName_plain {name : String} (plain : IsPlain name) : splitName name = (name, none) := by
  have whole : name.toList.reverse.takeWhile (· != '.') = name.toList.reverse := by
    rw [List.takeWhile_eq_self_iff]
    intro c mem
    rw [bne_iff_ne]
    rintro rfl
    exact plain.dotFree (List.mem_reverse.mp mem)
  simp [splitName, whole]

theorem splitChar_eq_package (name : String) : Text.splitChar '.' name =
    package name ++ [(Text.splitChar '.' name).getLast (Text.splitChar_ne_nil '.' name)] :=
  (List.dropLast_append_getLast _).symm

section

variable {name : String} (qualified : isQualified name = true)

include qualified

theorem isPlain_of_mem_package {segment : String} (mem : segment ∈ package name) :
    IsPlain segment :=
  isPlain_of_isQualified qualified (List.dropLast_subset _ mem)

theorem sourcePath_eq : sourcePath name = Text.join "/" (package name ++ [fileName name]) := by
  have plain : ∀ segment ∈ Text.splitChar '.' name, IsPlain segment :=
    fun segment mem => isPlain_of_isQualified qualified mem
  have plainLast := plain _ (List.getLast_mem (Text.splitChar_ne_nil '.' name))
  have cut : segments (ofNames (Text.splitChar '.' name)) = Text.splitChar '.' name := by
    rw [ofNames_eq_join plain, segments_join (fun name mem => (plain name mem).slashFree)
      (Text.splitChar_ne_nil '.' name)]
  have whole : core (Text.splitChar '.' name) = Text.splitChar '.' name := by
    rw [splitChar_eq_package, core_concat _ plainLast.solid]
  have stem : stem? (ofNames (Text.splitChar '.' name)) =
      some ((Text.splitChar '.' name).getLast (Text.splitChar_ne_nil '.' name)) := by
    have notUp : (Text.splitChar '.' name).getLast (Text.splitChar_ne_nil '.' name) ≠ ".." := by
      intro up
      apply plainLast.dotFree
      rw [up]
      exact List.mem_cons_self
    rw [stem?, fileName?, cut, whole,
      List.getLast?_eq_getLast_of_ne_nil (Text.splitChar_ne_nil '.' name)]
    simp [plainLast.solid, notUp, splitName_plain plainLast]
  rw [sourcePath, withExtension, stem, cut, whole]
  show Text.join "/" (package name ++ [_ ++ "." ++ "java"]) = _
  rw [String.append_assoc]
  rfl

theorem slashFree_fileName : '/' ∉ (fileName name).toList := by
  have plainLast := isPlain_of_isQualified qualified
    (List.getLast_mem (Text.splitChar_ne_nil '.' name))
  simp [fileName, plainLast.slashFree]

theorem segments_sourcePath : segments (sourcePath name) = package name ++ [fileName name] := by
  rw [sourcePath_eq qualified, segments_join _ (by simp)]
  intro segment mem
  rw [List.mem_append, List.mem_singleton] at mem
  rcases mem with mem | rfl
  · exact (isPlain_of_mem_package qualified mem).slashFree
  · exact slashFree_fileName qualified

theorem isAbsolute_sourcePath : isAbsolute (sourcePath name) = false := by
  rw [sourcePath_eq qualified]
  cases front : package name with
  | nil => exact isAbsolute_eq_false (slashFree_fileName qualified)
  | cons first rest =>
      have plain : IsPlain first := isPlain_of_mem_package qualified (front ▸ List.mem_cons_self)
      rw [List.cons_append, isAbsolute_join plain.slashFree (by simp),
        beq_false_of_ne plain.ne_empty]

end

theorem dot_mem_fileName (name : String) : '.' ∈ (fileName name).toList := by
  simp [fileName]

theorem fileName_ne_of_short {short : String} (length : short.length < 5) (name : String) :
    fileName name ≠ short := by
  rintro rfl
  have suffix : ".java".length = 5 := rfl
  rw [fileName, String.length_append, suffix] at length
  omega

theorem solid_fileName (name : String) : isFiller (fileName name) = false := by
  rw [isFiller, beq_false_of_ne (fileName_ne_of_short (by decide) name),
    beq_false_of_ne (fileName_ne_of_short (by decide) name)]
  rfl

theorem eq_of_package_fileName {a b : String} (samePackage : package a = package b)
    (sameFile : fileName a = fileName b) : a = b := by
  have sameLast : (Text.splitChar '.' a).getLast (Text.splitChar_ne_nil '.' a) =
      (Text.splitChar '.' b).getLast (Text.splitChar_ne_nil '.' b) := by
    simpa [fileName] using sameFile
  rw [← Text.join_splitChar '.' a, ← Text.join_splitChar '.' b, splitChar_eq_package a,
    splitChar_eq_package b, samePackage, sameLast]

end ClassName

end NodeWeave
