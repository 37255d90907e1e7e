import Mathlib.Data.List.Nodup
import NodeWeave.Proofs.Hierarchy.Resolution

/-! The classes in a resolved tree: those that duplicate removal left, and the missing ones. -/

namespace NodeWeave.Hierarchy

open TypeTree

namespace Outline

variable (d : Declared) (outline : Outline)

theorem exists_hasShape_distinctTree : ∃ shape, (outline.distinctTree d).HasShape shape ∧
    (ofOutline (outline.expandRoot d).value).SameEntries (outline.distinctTree d) ∧
      (outline.distinctTree d).names.Nodup := by
  have start := hasShape_ofOutline (outline.expandRoot d).value
  obtain ⟨shape, has, _, same, nodup⟩ := start.removeDuplicates (by
    rw [Outline.top_shape, specificityOf, entryAt?_eq_getElem?, ofOutline, map_entry_layOut]
    have root := specificity_expandRoot d outline
    cases expanded : (outline.expandRoot d).value with
    | node entry children =>
        rw [expanded] at root
        exact root)
  exact ⟨shape, has, same, nodup⟩

def orphans : List Declaration :=
  missing d (outline.distinctTree d).names d.declarations

theorem resolve_value : (outline.resolve d).value =
    (adopt d (outline.distinctTree d) (outline.orphans d)).compact := by
  rw [resolve, Reported.bind_value, Reported.bind_value, Reported.bind_value, Reported.pure_value,
    ← distinctTree, adoptMissing_value, orphans]

theorem isCompact_resolve : (outline.resolve d).value.IsCompact := by
  obtain ⟨shape, has, _⟩ := outline.exists_hasShape_distinctTree d
  rw [resolve_value]
  exact has.isCompact_adopt d _

theorem isFollowedBy_resolve : (outline.resolve d).value.IsFollowedBy (outline.distinctTree d)
    ((outline.orphans d).map (orphanEntry d)) := by
  obtain ⟨shape, has, _⟩ := outline.exists_hasShape_distinctTree d
  rw [resolve_value]
  exact has.isFollowedBy d _

theorem names_resolve : (outline.resolve d).value.names =
    (outline.distinctTree d).names ++ (outline.orphans d).map fun o => d.qualifiedName o.raw :=
  (outline.isFollowedBy_resolve d).names_eq (outline.isCompact_resolve d)

theorem nodup_names_resolve : (outline.resolve d).value.names.Nodup := by
  obtain ⟨_, _, _, nodup⟩ := outline.exists_hasShape_distinctTree d
  rw [names_resolve, List.nodup_append]
  refine ⟨nodup, nodup_missing _ _, ?_⟩
  intro name old other new same
  obtain ⟨orphan, isMissing, rfl⟩ := List.mem_map.mp new
  exact (mem_missing_iff.mp isMissing).2 (same ▸ old)

variable {d}

theorem mem_names_resolve {declaration : Declaration} (declared : declaration ∈ d.declarations) :
    d.qualifiedName declaration.raw ∈ (outline.resolve d).value.names := by
  rw [names_resolve, List.mem_append]
  exact mem_present_or_missing _ declared

theorem count_names_resolve {declaration : Declaration} (declared : declaration ∈ d.declarations) :
    (outline.resolve d).value.names.count (d.qualifiedName declaration.raw) = 1 :=
  List.count_eq_one_of_mem (outline.nodup_names_resolve d) (outline.mem_names_resolve declared)

end Outline

end NodeWeave.Hierarchy
