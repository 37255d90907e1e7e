import NodeWeave.Generation.Basic
import NodeWeave.Proofs.Files.Below

/-!
The files of classes in a directory for output. No class has its file where another one has a
directory, and a source root apart from the output is spared.
-/

namespace NodeWeave

open NodeWeave.Path Route Files

namespace Files

variable (files : Files)

/-- Neither path leads below the other one, and no directory that the second one may need opens a
detour of the first one. -/
@[mk_iff]
structure Apart (path base : String) : Prop where
  notWithin : ¬ files.destination base <+: files.destination path
  notAround : ¬ files.destination path <+: files.destination base
  firm : ∀ route ∈ files.passage path,
    route ∈ files.passage base ∨ files.destination base <+: route →
      route <+: files.destination path ∨ (files.entryAt? route).isSome = true

instance decidableApart (path base : String) : Decidable (files.Apart path base) :=
  decidable_of_iff' _ (apart_iff files path base)

end Files

namespace ClassName

def pathIn (base name : String) : String :=
  Path.join base (sourcePath name)

section

variable {name : String} (qualified : isQualified name = true) (files : Files) (base : String)

include qualified

theorem goDown_package : GoDown (package name) := by
  intro segment mem
  have plain := isPlain_of_mem_package qualified mem
  refine ⟨plain.solid, ?_⟩
  rintro rfl
  exact plain.dotFree List.mem_cons_self

theorem goDown_file : GoDown (package name ++ [fileName name]) := by
  intro segment mem
  rw [List.mem_append, List.mem_singleton] at mem
  rcases mem with mem | rfl
  · exact goDown_package qualified segment mem
  · exact ⟨solid_fileName name, fileName_ne_of_short (by decide) name⟩

theorem isWay_file : IsWay (package name ++ [fileName name]) where
  some := by simp
  down := goDown_file qualified
  slashFree := by
    intro segment mem
    rw [List.mem_append, List.mem_singleton] at mem
    rcases mem with mem | rfl
    · exact (isPlain_of_mem_package qualified mem).slashFree
    · exact slashFree_fileName qualified

theorem pathIn_eq_below : pathIn base name = below base (package name ++ [fileName name]) := by
  rw [pathIn, sourcePath_eq qualified, below]

theorem segments_pathIn : segments (pathIn base name) =
    (within base ++ package name) ++ [fileName name] := by
  rw [pathIn_eq_below qualified, segments_below (isWay_file qualified), List.append_assoc]

theorem destination_pathIn : files.destination (pathIn base name) =
    files.destination base ++ (package name ++ [fileName name]) := by
  rw [pathIn_eq_below qualified, files.destination_below (isWay_file qualified)]

/-- The way to a class: the way to the base, and the directories of the package. -/
theorem mem_passage_pathIn {route : Route} (mem : route ∈ files.passage (pathIn base name)) :
    route ∈ entered (files.start base) (within base) ∨
      ∃ front, front <+: package name ∧ route = files.destination base ++ front := by
  rw [pathIn_eq_below qualified] at mem
  have met := files.mem_passage_below (isWay_file qualified) base mem
  rwa [List.dropLast_concat] at met

end

variable {files : Files} {base name other : String}

/-- A file never stands where another class needs a directory. -/
theorem destination_not_mem_passage (home : files.entryAt? files.here = some .directory)
    (qualified : isQualified name = true) (qualifiedOther : isQualified other = true)
    (writable : files.IsWritable (pathIn base name)) :
    files.destination (pathIn base name) ∉ files.passage (pathIn base other) := by
  rw [pathIn_eq_below qualified] at writable ⊢
  rw [pathIn_eq_below qualifiedOther]
  refine destination_below_not_mem_passage (isWay_file qualified) (isWay_file qualifiedOther) home
    writable ?_
  rw [List.dropLast_concat]
  intro inner
  have mem : fileName name ∈ package other := inner.subset (by simp)
  exact (isPlain_of_mem_package qualifiedOther mem).dotFree (dot_mem_fileName name)

theorem eq_of_destination_eq (qualified : isQualified name = true)
    (qualifiedOther : isQualified other = true)
    (same : files.destination (pathIn base name) = files.destination (pathIn base other)) :
    name = other := by
  rw [pathIn_eq_below qualified, pathIn_eq_below qualifiedOther] at same
  have parts := List.append_inj'
    (files.eq_of_destination_below_eq (isWay_file qualified) (isWay_file qualifiedOther) same) rfl
  exact eq_of_package_fileName parts.1 (List.singleton_inj.mp parts.2)

/-- What is generated elsewhere does not change what is found in a root. -/
theorem spares_of_apart {root : String} (apart : files.Apart root base)
    (qualified : isQualified name = true) (qualifiedOther : isQualified other = true) :
    files.Spares (pathIn root name) (pathIn base other) := by
  constructor
  · intro _ same
    rw [destination_pathIn qualified, destination_pathIn qualifiedOther] at same
    rcases List.prefix_or_prefix_of_prefix (List.prefix_append _ _)
      (same ▸ List.prefix_append (files.destination root) _) with inner | inner
    · exact apart.notWithin inner
    · exact apart.notAround inner
  · intro route mem made
    have below : files.destination root <+: files.destination (pathIn root name) := by
      rw [destination_pathIn qualified]
      exact List.prefix_append _ _
    rcases mem_passage_pathIn qualified files root mem with outer | ⟨front, inner, rfl⟩
    · refine (apart.firm route (files.mem_passage_of_within outer) ?_).imp_left (·.trans below)
      rcases mem_passage_pathIn qualifiedOther files base made.mem_passage with
        outer | ⟨front, _, rfl⟩
      · exact .inl (files.mem_passage_of_within outer)
      · exact .inr (List.prefix_append _ _)
    · left
      rw [destination_pathIn qualified]
      exact (List.prefix_append_right_inj _).mpr (inner.trans (List.prefix_append _ _))

end ClassName

end NodeWeave
