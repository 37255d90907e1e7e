import NodeWeave.Proofs.Hierarchy.Names
import NodeWeave.Proofs.Hierarchy.Trailing

/-!
The classes of a tree with the classes right above them. Adopting and compacting only add classes
below the root.
-/

namespace NodeWeave.Hierarchy.TypeTree

variable {tree other : TypeTree} {shape : Shape} {leaves : List Nat}

/-- The class right above the first node with a name. -/
def superclass? (tree : TypeTree) (name : String) : Option String :=
  ((tree.find? name).bind tree.parent?).map tree.nameOf

def placings (tree : TypeTree) : List (String × Option String) :=
  tree.attached.map fun id => (tree.nameOf id, (tree.parent? id).map tree.nameOf)

theorem map_fst_placings (tree : TypeTree) : tree.placings.map Prod.fst = tree.names := by
  rw [placings, List.map_map, names]
  rfl

theorem superclass?_eq (tree : TypeTree) (name : String) :
    tree.superclass? name =
      (tree.placings.find? fun placing => placing.1 == name).bind Prod.snd := by
  rw [superclass?, find?, placings, List.find?_map, Option.map_bind, Option.bind_map]
  rfl

/-- Two trees have the same classes, and each has the same class right above it. -/
structure PlacesAlike (tree other : TypeTree) : Prop where
  mem_names_iff : ∀ name, name ∈ tree.names ↔ name ∈ other.names
  superclass?_eq : ∀ name, tree.superclass? name = other.superclass? name

theorem find?_fst_eq_some_iff {placings : List (String × Option String)}
    (nodup : (placings.map Prod.fst).Nodup) {placing : String × Option String} {name : String} :
    placings.find? (fun other => other.1 == name) = some placing ↔
      placing ∈ placings ∧ placing.1 = name := by
  constructor
  · intro found
    exact ⟨List.mem_of_find?_eq_some found, by simpa using List.find?_some found⟩
  · rintro ⟨mem, rfl⟩
    cases found : placings.find? fun other => other.1 == placing.1 with
    | none => exact absurd (List.find?_eq_none.mp found placing mem) (by simp)
    | some first =>
        have named : first.1 = placing.1 := by simpa using List.find?_some found
        rw [eq_of_nodup_map nodup (List.mem_of_find?_eq_some found) mem named]

theorem PlacesAlike.of_perm (same : tree.placings.Perm other.placings) (nodup : tree.names.Nodup) :
    PlacesAlike tree other := by
  refine ⟨fun name => ?_, fun name => ?_⟩
  · rw [← map_fst_placings, ← map_fst_placings]
    exact (same.map Prod.fst).mem_iff
  · rw [← map_fst_placings] at nodup
    have nodupOther := (same.map Prod.fst).nodup_iff.mp nodup
    rw [TypeTree.superclass?_eq, TypeTree.superclass?_eq]
    congr 1
    ext placing
    rw [find?_fst_eq_some_iff nodup, find?_fst_eq_some_iff nodupOther, same.mem_iff]

/-! ### Compacting -/

theorem HasShape.map_parent?_congr (has : tree.HasShape shape) {first second : Nat → String}
    (same : ∀ id ∈ shape.ids, first id = second id) {id : Nat} (mem : id ∈ shape.ids) :
    (tree.parent? id).map first = (tree.parent? id).map second := by
  cases above : tree.parent? id with
  | none => rfl
  | some parent => exact congrArg some (same parent (has.parent?_iff.mp ⟨mem, above⟩).1)

theorem HasShape.placings_eq (has : tree.HasShape shape) : tree.placings =
    shape.ids.map fun id => (tree.nameOf id, (tree.parent? id).map tree.nameOf) := by
  rw [placings, has.attached_eq]

theorem HasShape.placings_compact (has : tree.HasShape shape) :
    tree.compact.placings = tree.placings := by
  obtain ⟨outline, compact_eq, size, entries, parents⟩ := has.compact_eq
  have compact : tree.compact.IsCompact := compact_eq ▸ isCompact_ofOutline outline
  have numbers : tree.compact.attached = shape.ids.map shape.ids.idxOf := by
    rw [compact.attached_eq, map_idxOf_of_nodup has.nodup, List.range_eq_range']
    simpa using congrArg List.length entries
  have place : ∀ id ∈ shape.ids, shape.ids[shape.ids.idxOf id]? = some id := fun id mem =>
    List.getElem?_idxOf mem
  have named : ∀ id ∈ shape.ids, tree.compact.nameOf (shape.ids.idxOf id) = tree.nameOf id := by
    intro id mem
    have column := congrArg (fun entries => (entries[shape.ids.idxOf id]?).join) entries
    simp only [List.getElem?_map, place id mem, Option.map_some, Option.join_some] at column
    rw [nameOf, nameOf, ← column, entryAt?, node?]
    cases tree.compact.nodes[shape.ids.idxOf id]? <;> rfl
  have placed : ∀ id ∈ shape.ids,
      tree.compact.parent? (shape.ids.idxOf id) = (tree.parent? id).map shape.ids.idxOf := by
    intro id mem
    rw [parent?_eq_getElem?, parents, List.getElem?_map, place id mem]
    rfl
  rw [placings, numbers, List.map_map, has.placings_eq]
  refine List.map_congr_left fun id mem => ?_
  rw [Function.comp_apply, named id mem, placed id mem, Option.map_map]
  exact congrArg _ (has.map_parent?_congr named mem)

/-! ### Adopting -/

theorem HasShape.placings_adopt (has : tree.HasShape shape) (d : Declared)
    (orphans : List Declaration) : (TypeTree.adopt d tree orphans).placings =
      tree.placings ++
        (orphans.map fun o => d.qualifiedName o.raw).map fun name =>
          (name, some (tree.nameOf tree.root)) := by
  obtain ⟨_, _, grown, hasGrown, ids⟩ := has.adopt d orphans
  have named : ∀ id ∈ shape.ids, (TypeTree.adopt d tree orphans).nameOf id = tree.nameOf id :=
    fun id mem => by rw [nameOf, nameOf, has.entryAt?_adopt_of_mem d orphans id mem]
  rw [hasGrown.placings_eq, has.placings_eq, ids, List.map_append]
  congr 1
  · refine List.map_congr_left fun id mem => ?_
    rw [named id mem, has.parent?_adopt_of_mem d orphans id mem, has.map_parent?_congr named mem]
  · have entries := congrArg (List.map fun entry => (entry.map Entry.name).getD "")
      (has.map_entryAt?_adopt d orphans)
    have parents := congrArg (List.map (Option.map (TypeTree.adopt d tree orphans).nameOf))
      (has.map_parent?_adopt d orphans)
    simp only [List.map_map] at entries parents
    rw [← List.zip_map']
    refine (congrArg₂ List.zip entries parents).trans ?_
    rw [List.zip_map', List.map_map]
    refine List.map_congr_left fun o _ => ?_
    simp [orphanEntry, named shape.top shape.top_mem_ids, has.root_eq]

/-! ### Leaves -/

theorem HungWith.placings_eq (hung : tree.HungWith leaves other) (has : tree.HasShape shape) :
    other.placings = tree.placings ++
      (leaves.map other.nameOf).map fun name => (name, some (tree.nameOf tree.root)) := by
  have named : ∀ id ∈ shape.ids, other.nameOf id = tree.nameOf id := fun id mem => by
    rw [nameOf, nameOf, hung.entryAt?_eq (has.realizes.lt_length mem)]
  rw [placings, hung.attached_eq has, List.map_append, has.placings_eq, has.attached_eq,
    List.map_map]
  congr 1
  · refine List.map_congr_left fun id mem => ?_
    rw [named id mem, hung.parent?_eq (has.realizes.lt_length mem),
      has.map_parent?_congr named mem]
  · refine List.map_congr_left fun leaf listed => ?_
    obtain ⟨_, entry, found⟩ := hung.leaf leaf listed
    rw [Function.comp_apply, parent?, found, Option.bind_some, Option.map_some, has.root_eq,
      named shape.top shape.top_mem_ids]

end NodeWeave.Hierarchy.TypeTree
