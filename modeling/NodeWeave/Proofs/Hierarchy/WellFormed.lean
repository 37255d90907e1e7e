import Mathlib.Data.List.Nodup
import NodeWeave.Proofs.Hierarchy.Shape

/-!
Well-formed trees, by their links alone. Main statement: they are the trees that have a shape.
-/

namespace NodeWeave.Hierarchy.TypeTree

open Shape

variable {tree : TypeTree} {shape : Shape}

/-- A node to which lists of children lead from the root. -/
inductive Reaches (tree : TypeTree) : Nat → Prop where
  | root : Reaches tree tree.root
  | child {parent child : Nat} (reached : Reaches tree parent)
      (listed : child ∈ tree.children parent) : Reaches tree child

/-- The root has no parent, and what a node that is reached lists as its children has it as its
parent and is listed once. -/
structure IsWellFormed (tree : TypeTree) : Prop where
  root_lt : tree.root < tree.nodes.length
  parent?_root : tree.parent? tree.root = none
  parent?_child : ∀ {parent child : Nat}, tree.Reaches parent → child ∈ tree.children parent →
    tree.parent? child = some parent
  nodup_children : ∀ {parent : Nat}, tree.Reaches parent → (tree.children parent).Nodup

/-! ### Climbing -/

def climb (tree : TypeTree) : Nat → Nat → Option Nat
  | 0, id => some id
  | steps + 1, id => (tree.parent? id).bind (climb tree steps)

theorem climb_add {first second start middle finish : Nat}
    (lower : tree.climb first start = some middle)
    (upper : tree.climb second middle = some finish) :
    tree.climb (first + second) start = some finish := by
  induction first generalizing start with
  | zero =>
      obtain rfl := Option.some.inj lower
      rwa [Nat.zero_add]
  | succ first ih =>
      obtain ⟨parent, placed, above⟩ := Option.bind_eq_some_iff.mp lower
      rw [Nat.succ_add, climb, placed]
      exact ih above

theorem exists_climb_of_le {count steps start finish : Nat} (le : count ≤ steps)
    (up : tree.climb steps start = some finish) :
    ∃ middle, tree.climb count start = some middle ∧
      tree.climb (steps - count) middle = some finish := by
  induction count generalizing steps start with
  | zero => exact ⟨start, rfl, up⟩
  | succ count ih =>
      cases steps with
      | zero => cases le
      | succ steps =>
          obtain ⟨parent, placed, above⟩ := Option.bind_eq_some_iff.mp up
          obtain ⟨middle, lower, upper⟩ := ih (Nat.le_of_succ_le_succ le) above
          refine ⟨middle, ?_, ?_⟩
          · rw [climb, placed]
            exact lower
          · rwa [Nat.add_sub_add_right]

theorem lt_length_of_parent? {child parent : Nat} (placed : tree.parent? child = some parent) :
    child < tree.nodes.length := by
  obtain ⟨node, found, _⟩ := Option.bind_eq_some_iff.mp placed
  exact (List.getElem?_eq_some_iff.mp found).1

namespace IsWellFormed

theorem climb_root_eq (ok : tree.IsWellFormed) {steps finish : Nat}
    (up : tree.climb steps tree.root = some finish) : steps = 0 := by
  cases steps with
  | zero => rfl
  | succ steps => simp [climb, ok.parent?_root] at up

/-- How far a node is from the root is determined. -/
theorem steps_unique (ok : tree.IsWellFormed) {first second id : Nat}
    (up : tree.climb first id = some tree.root) (other : tree.climb second id = some tree.root) :
    first = second := by
  induction first generalizing second id with
  | zero =>
      obtain rfl := Option.some.inj up
      exact (ok.climb_root_eq other).symm
  | succ first ih =>
      obtain ⟨parent, placed, above⟩ := Option.bind_eq_some_iff.mp up
      cases second with
      | zero =>
          obtain rfl := Option.some.inj other
          rw [ok.parent?_root] at placed
          cases placed
      | succ second =>
          rw [climb, placed] at other
          exact congrArg Nat.succ (ih above other)

theorem climb_child (ok : tree.IsWellFormed) {parent child steps : Nat}
    (reached : tree.Reaches parent) (listed : child ∈ tree.children parent)
    (up : tree.climb steps parent = some tree.root) :
    tree.climb (steps + 1) child = some tree.root := by
  rw [climb, ok.parent?_child reached listed]
  exact up

theorem exists_climb (ok : tree.IsWellFormed) {id : Nat} (reached : tree.Reaches id) :
    ∃ steps, tree.climb steps id = some tree.root := by
  induction reached with
  | root => exact ⟨0, rfl⟩
  | child reached listed ih =>
      obtain ⟨steps, up⟩ := ih
      exact ⟨steps + 1, ok.climb_child reached listed up⟩

theorem lt_length (ok : tree.IsWellFormed) {steps id : Nat}
    (up : tree.climb steps id = some tree.root) : id < tree.nodes.length := by
  cases steps with
  | zero =>
      obtain rfl := Option.some.inj up
      exact ok.root_lt
  | succ steps =>
      obtain ⟨parent, placed, _⟩ := Option.bind_eq_some_iff.mp up
      exact lt_length_of_parent? placed

/-- The way up to the root meets no node twice, so it is shorter than there are nodes. -/
theorem steps_lt_length (ok : tree.IsWellFormed) {steps id : Nat}
    (up : tree.climb steps id = some tree.root) : steps < tree.nodes.length := by
  have met : ∀ count ∈ List.range (steps + 1), ∃ middle,
      tree.climb count id = some middle ∧
        tree.climb (steps - count) middle = some tree.root := by
    intro count mem
    exact exists_climb_of_le (Nat.le_of_lt_succ (List.mem_range.mp mem)) up
  have distinct : ((List.range (steps + 1)).map fun count => tree.climb count id).Nodup := by
    apply List.Nodup.map_on _ List.nodup_range
    intro first memFirst second memSecond same
    obtain ⟨middle, lower, upper⟩ := met first memFirst
    obtain ⟨other, lowerOther, upperOther⟩ := met second memSecond
    rw [lower, lowerOther] at same
    obtain rfl := Option.some.inj same
    have := ok.steps_unique upper upperOther
    have := List.mem_range.mp memFirst
    have := List.mem_range.mp memSecond
    omega
  have within : (List.range (steps + 1)).map (fun count => tree.climb count id) ⊆
      (List.range tree.nodes.length).map some := by
    intro found mem
    obtain ⟨count, listed, rfl⟩ := List.mem_map.mp mem
    obtain ⟨middle, lower, upper⟩ := met count listed
    rw [lower]
    exact List.mem_map_of_mem (List.mem_range.mpr (ok.lt_length upper))
  have fewer := distinct.length_le_of_subset within
  rw [List.length_map, List.length_map, List.length_range, List.length_range] at fewer
  exact fewer

end IsWellFormed

/-! ### The shape of a well-formed tree -/

def shapeTo (tree : TypeTree) : Nat → Nat → Shape
  | 0, id => .node id []
  | depth + 1, id => .node id ((tree.children id).map (shapeTo tree depth))

@[simp] theorem top_shapeTo (depth id : Nat) : (tree.shapeTo depth id).top = id := by
  cases depth <;> rfl

theorem realizesAll_of_forall {parent : Option Nat} {shapes : List Shape}
    (each : ∀ shape ∈ shapes, tree.Realizes parent shape) : tree.RealizesAll parent shapes := by
  induction shapes with
  | nil => trivial
  | cons shape rest ih =>
      exact ⟨each shape List.mem_cons_self,
        ih fun other mem => each other (List.mem_cons_of_mem _ mem)⟩

theorem idsAll_eq_flatMap (shapes : List Shape) : idsAll shapes = shapes.flatMap ids := by
  induction shapes with
  | nil => rfl
  | cons shape rest ih => rw [idsAll_cons, ih, List.flatMap_cons]

theorem mem_idsAll_iff {id : Nat} {shapes : List Shape} :
    id ∈ idsAll shapes ↔ ∃ shape ∈ shapes, id ∈ shape.ids := by
  rw [idsAll_eq_flatMap, List.mem_flatMap]

theorem exists_node? {id : Nat} (bound : id < tree.nodes.length) :
    ∃ entry, tree.node? id = some ⟨entry, tree.parent? id, tree.children id⟩ := by
  have found : tree.node? id = some tree.nodes[id] := List.getElem?_eq_getElem bound
  exact ⟨tree.nodes[id].entry, by simp [parent?, children, found]⟩

namespace IsWellFormed

theorem realizes_shapeTo (ok : tree.IsWellFormed) {steps depth id : Nat}
    (reached : tree.Reaches id) (up : tree.climb steps id = some tree.root)
    (deep : tree.nodes.length ≤ steps + depth + 1) :
    tree.Realizes (tree.parent? id) (tree.shapeTo depth id) := by
  induction depth generalizing steps id with
  | zero =>
      have noChild : tree.children id = [] := by
        apply List.eq_nil_iff_forall_not_mem.mpr
        intro child listed
        have := ok.steps_lt_length (ok.climb_child reached listed up)
        omega
      obtain ⟨entry, found⟩ := exists_node? (ok.lt_length up)
      rw [noChild] at found
      exact ⟨⟨entry, found⟩, trivial⟩
  | succ depth ih =>
      obtain ⟨entry, found⟩ := exists_node? (ok.lt_length up)
      refine ⟨⟨entry, ?_⟩, realizesAll_of_forall ?_⟩
      · have tops : ((tree.children id).map (tree.shapeTo depth)).map Shape.top =
            tree.children id := by
          simp [Function.comp_def]
        rw [tops, found]
      · intro below mem
        obtain ⟨child, listed, rfl⟩ := List.mem_map.mp mem
        rw [← ok.parent?_child reached listed]
        apply ih (.child reached listed) (ok.climb_child reached listed up)
        omega

theorem exists_climb_of_mem (ok : tree.IsWellFormed) {depth id lower : Nat}
    (reached : tree.Reaches id) (mem : lower ∈ (tree.shapeTo depth id).ids) :
    ∃ steps, tree.climb steps lower = some id := by
  induction depth generalizing id with
  | zero =>
      obtain rfl := List.mem_singleton.mp mem
      exact ⟨0, rfl⟩
  | succ depth ih =>
      rcases List.mem_cons.mp mem with rfl | below
      · exact ⟨0, rfl⟩
      · obtain ⟨_, found, inside⟩ := mem_idsAll_iff.mp below
        obtain ⟨child, listed, rfl⟩ := List.mem_map.mp found
        obtain ⟨steps, up⟩ := ih (.child reached listed) inside
        have last : tree.climb 1 child = some id := by
          simp [climb, ok.parent?_child reached listed]
        exact ⟨steps + 1, climb_add up last⟩

theorem nodup_shapeTo (ok : tree.IsWellFormed) {steps id : Nat} (depth : Nat)
    (reached : tree.Reaches id) (up : tree.climb steps id = some tree.root) :
    (tree.shapeTo depth id).ids.Nodup := by
  induction depth generalizing steps id with
  | zero => exact List.nodup_singleton id
  | succ depth ih =>
      have below {child : Nat} (listed : child ∈ tree.children id) :
          tree.Reaches child ∧ tree.climb (steps + 1) child = some tree.root :=
        ⟨.child reached listed, ok.climb_child reached listed up⟩
      refine List.nodup_cons.mpr ⟨?_, ?_⟩
      · intro mem
        obtain ⟨_, found, inside⟩ := mem_idsAll_iff.mp mem
        obtain ⟨child, listed, rfl⟩ := List.mem_map.mp found
        obtain ⟨around, back⟩ := ok.exists_climb_of_mem (below listed).1 inside
        have := ok.steps_unique up (climb_add back (below listed).2)
        omega
      · rw [idsAll_eq_flatMap, List.flatMap_map, List.nodup_flatMap]
        refine ⟨fun child listed => ih (below listed).1 (below listed).2, ?_⟩
        apply (ok.nodup_children reached).imp_of_mem
        intro child sibling listed siblingListed ne lower here there
        -- Two children are equally far from the root, so what climbs to both would make them one.
        obtain ⟨first, toChild⟩ := ok.exists_climb_of_mem (below listed).1 here
        obtain ⟨second, toSibling⟩ := ok.exists_climb_of_mem (below siblingListed).1 there
        have equal := ok.steps_unique (climb_add toChild (below listed).2)
          (climb_add toSibling (below siblingListed).2)
        obtain rfl : first = second := by omega
        rw [toChild] at toSibling
        exact ne (Option.some.inj toSibling)

theorem hasShape (ok : tree.IsWellFormed) :
    tree.HasShape (tree.shapeTo tree.nodes.length tree.root) where
  realizes := by
    have start : tree.climb 0 tree.root = some tree.root := rfl
    rw [← ok.parent?_root]
    exact ok.realizes_shapeTo .root start (by omega)
  root_eq := (top_shapeTo _ _).symm
  nodup :=
    have start : tree.climb 0 tree.root = some tree.root := rfl
    ok.nodup_shapeTo _ .root start

end IsWellFormed

/-! ### Trees that have a shape -/

mutual
theorem Realizes.reaches {parent : Option Nat} {shape : Shape}
    (realized : tree.Realizes parent shape) (reached : tree.Reaches shape.top) :
    ∀ id ∈ shape.ids, tree.Reaches id := by
  cases shape with
  | node top children =>
      intro id mem
      have listed := realized.children
      rcases List.mem_cons.mp mem with rfl | below
      · exact reached
      · refine realized.2.reaches (fun child found => .child reached ?_) id below
        rw [listed]
        exact List.mem_map_of_mem found

theorem RealizesAll.reaches {parent : Option Nat} {shapes : List Shape}
    (realized : tree.RealizesAll parent shapes)
    (reached : ∀ shape ∈ shapes, tree.Reaches shape.top) :
    ∀ id ∈ idsAll shapes, tree.Reaches id := by
  cases shapes with
  | nil => exact nofun
  | cons shape rest =>
      intro id mem
      rcases List.mem_append.mp mem with here | later
      · exact realized.1.reaches (reached shape List.mem_cons_self) id here
      · exact realized.2.reaches (fun other found => reached other (List.mem_cons_of_mem _ found))
          id later
end

namespace HasShape

theorem mem_ids_iff_reaches (has : tree.HasShape shape) {id : Nat} :
    id ∈ shape.ids ↔ tree.Reaches id := by
  constructor
  · exact has.realizes.reaches (has.root_eq ▸ .root) id
  · intro reached
    induction reached with
    | root => exact has.root_eq ▸ shape.top_mem_ids
    | child _ listed ih => exact (has.parent?_iff.mpr ⟨ih, listed⟩).1

theorem isWellFormed (has : tree.HasShape shape) : tree.IsWellFormed where
  root_lt := has.realizes.lt_length (has.root_eq ▸ shape.top_mem_ids)
  parent?_root := has.root_eq ▸ has.realizes.parent?
  parent?_child reached listed :=
    (has.parent?_iff.mpr ⟨has.mem_ids_iff_reaches.mpr reached, listed⟩).2
  nodup_children reached := has.nodup_children (has.mem_ids_iff_reaches.mpr reached)

end HasShape

theorem isWellFormed_iff : tree.IsWellFormed ↔ ∃ shape, tree.HasShape shape := by
  constructor
  · exact fun ok => ⟨_, ok.hasShape⟩
  · exact fun ⟨_, has⟩ => has.isWellFormed

theorem IsWellFormed.mem_attached_iff (ok : tree.IsWellFormed) {id : Nat} :
    id ∈ tree.attached ↔ tree.Reaches id := by
  rw [ok.hasShape.attached_eq]
  exact ok.hasShape.mem_ids_iff_reaches

end NodeWeave.Hierarchy.TypeTree
