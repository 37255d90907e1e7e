import NodeWeave.Proofs.Generation.Job
import NodeWeave.Proofs.Text.LastDot

/-!
Where the file of an accepted class name stands. Main statement: below the output, in a directory
for each name of the package, and in another place than the file of any other accepted name.
-/

namespace NodeWeave

namespace ClassName

open NodeWeave.Path

/-! ### Clean names -/

structure IsCleanSegment (segment : String) : Prop where
  named : segment ≠ ""
  dotFree : '.' ∉ segment.toList
  solid : ∀ c ∈ segment.toList, Text.isBlank c = false

theorem clean_join {segments : List String} (clear : ∀ segment ∈ segments, IsCleanSegment segment) :
    clean (Text.join "." segments) = Text.join "." segments := by
  have solid : (Text.join "." segments).toList.filter (fun c => !Text.isBlank c) =
      (Text.join "." segments).toList := by
    rw [List.filter_eq_self]
    intro c mem
    rw [Bool.not_eq_true']
    rcases Text.mem_join_iff.mp mem with ⟨segment, listed, inside⟩ | ⟨dot, -⟩
    · exact (clear segment listed).solid c inside
    · obtain rfl : c = '.' := by simpa using dot
      decide
  have kept : (Text.splitChar '.' (Text.join "." segments)).filter (fun segment => segment != "") =
      segments := by
    by_cases none : segments = []
    · rw [none]
      rfl
    · have cut : Text.splitChar '.' (Text.join "." segments) = segments :=
        Text.splitChar_join (fun segment mem => (clear segment mem).dotFree) none
      rw [cut, List.filter_eq_self]
      exact fun segment mem => bne_iff_ne.mpr (clear segment mem).named
  simp only [clean, solid, String.ofList_toList, kept]

theorem clean_clean (text : String) : clean (clean text) = clean text := by
  refine clean_join fun segment mem => ?_
  obtain ⟨listed, named⟩ := List.mem_filter.mp mem
  refine ⟨bne_iff_ne.mp named, Text.not_mem_of_mem_splitChar listed, fun c inside => ?_⟩
  have kept := Text.mem_of_mem_splitChar listed inside
  rw [String.toList_ofList, List.mem_filter, Bool.not_eq_true'] at kept
  exact kept.2

/-! ### Files of classes -/

theorem fileName_eq (name : String) : fileName name = JavaName.simple name ++ ".java" := by
  obtain ⟨front, cut, -⟩ := JavaName.exists_splitChar name
  simp [fileName, cut]

theorem package_eq {name : String} (qualified : isQualified name = true) : package name =
    if JavaName.package name = "" then [] else Text.splitChar '.' (JavaName.package name) := by
  obtain ⟨front, cut, joined⟩ := JavaName.exists_splitChar name
  have same : package name = front := by rw [package, cut, List.dropLast_concat]
  rw [joined, same]
  by_cases none : front = []
  · rw [none]
    rfl
  · have plain : ∀ segment ∈ front, IsPlain segment :=
      fun segment mem => isPlain_of_mem_package qualified (same ▸ mem)
    have free : ∀ segment ∈ front, '.' ∉ segment.toList :=
      fun segment mem => (plain segment mem).dotFree
    have parted : Text.splitChar '.' (Text.join "." front) = front := Text.splitChar_join free none
    have some : Text.join "." front ≠ "" := by
      intro empty
      rw [empty] at parted
      exact (plain "" (parted ▸ List.mem_singleton_self _)).ne_empty rfl
    rw [if_neg some, parted]

/-- A path is that of the file of a class: whatever it is put below, it leads down through a
directory for each name of the package. -/
structure IsFileOf (path package simple : String) : Prop where
  relative : isAbsolute path = false
  inner : ∀ name ∈ segments path, name ≠ "" ∧ name ≠ "." ∧ name ≠ ".."
  segments : segments path =
    (if package = "" then [] else Text.splitChar '.' package) ++ [simple ++ ".java"]
  below : ∀ (files : Files) (output : String),
    files.destination (join output path) = files.destination output ++ Path.segments path

section

variable {name : String} (qualified : isQualified name = true)

include qualified

theorem isFileOf_sourcePath :
    IsFileOf (sourcePath name) (JavaName.package name) (JavaName.simple name) where
  relative := isAbsolute_sourcePath qualified
  inner := by
    rw [segments_sourcePath qualified]
    intro segment mem
    obtain ⟨solid, notUp⟩ := goDown_file qualified segment mem
    rw [isFiller, Bool.or_eq_false_iff, beq_eq_false_iff_ne, beq_eq_false_iff_ne] at solid
    exact ⟨solid.1, solid.2, notUp⟩
  segments := by
    rw [segments_sourcePath qualified, package_eq qualified, fileName_eq]
  below files output := by
    rw [segments_sourcePath qualified]
    exact destination_pathIn qualified files output

theorem eq_of_sourcePath_eq {other : String} (qualifiedOther : isQualified other = true)
    (same : sourcePath other = sourcePath name) : other = name := by
  have parts : package other ++ [fileName other] = package name ++ [fileName name] := by
    rw [← segments_sourcePath qualified, ← segments_sourcePath qualifiedOther, same]
  obtain ⟨samePackage, sameFile⟩ := List.append_inj' parts rfl
  exact eq_of_package_fileName samePackage (List.singleton_inj.mp sameFile)

end

end ClassName

namespace ClassJob

open ClassName

variable {job : ClassJob} {name : String}

theorem field?_package (job : ClassJob) (name : String) :
    (job.values name).field? "package" = some (.text (JavaName.package name)) := by
  rw [values, Json.field?, Index.lookup_insert_of_ne (by decide),
    Index.lookup_insert_of_ne (by decide), Index.lookup_insert_self]

theorem field?_simpleName (job : ClassJob) (name : String) :
    (job.values name).field? "simpleName" = some (.text (JavaName.simple name)) := by
  rw [values, Json.field?, Index.lookup_insert_of_ne (by decide), Index.lookup_insert_self]

theorem exists_clean_of_name (named : job.name = .ok name) :
    ∃ text, Template.render job.className job.context = .ok text ∧ name = clean text := by
  rw [ClassJob.name] at named
  split at named
  · cases named
  · next text rendered =>
      refine ⟨text, rendered, ?_⟩
      dsimp only at named
      split at named <;> cases named
      rfl

/-- The file of an accepted name is that of the package and the simple name that the template is
given, and it tells the name. Names are cleaned once and for all. -/
theorem confined_of_name (named : job.name = .ok name) :
    (∃ text, Template.render job.className job.context = .ok text ∧ name = clean text) ∧
      (∃ package simple, (job.values name).field? "package" = some (.text package) ∧
        (job.values name).field? "simpleName" = some (.text simple) ∧
        IsFileOf (sourcePath name) package simple) ∧
      (∀ {other : ClassJob} {otherName : String}, other.name = .ok otherName →
        sourcePath otherName = sourcePath name → otherName = name) ∧
      ∀ text, clean (clean text) = clean text := by
  have qualified := isQualified_of_name named
  refine ⟨exists_clean_of_name named, ⟨_, _, field?_package job name, field?_simpleName job name,
    isFileOf_sourcePath qualified⟩, fun accepted same => ?_, clean_clean⟩
  exact eq_of_sourcePath_eq qualified (isQualified_of_name accepted) same

/-- Blanks and empty segments in front of a name are cleaned away. -/
theorem confined_of_name_dollar :
    ∃ job : ClassJob, job.name = .ok "a.B$" ∧ sourcePath "a.B$" = "a/B$.java" ∧
      IsFileOf (sourcePath "a.B$") "a" "B$" := by
  have named : (ClassJob.mk "" (.inline "") ". a..B$" (.object [])).name = .ok "a.B$" := by
    decide +kernel
  obtain ⟨-, ⟨package, simple, packageIs, simpleIs, isFile⟩, -⟩ := confined_of_name named
  refine ⟨_, named, by decide +kernel, ?_⟩
  rw [field?_package] at packageIs
  rw [field?_simpleName] at simpleIs
  cases packageIs
  cases simpleIs
  exact isFile

end ClassJob

end NodeWeave
