import Mathlib.Logic.Relation
import NodeWeave.Proofs.Hierarchy.WellFormed

/-!
Looking around in a tree without a bound. Climbing goes from parent to parent until there is none,
and going down takes nodes from a stack until it is empty. Main statements: in a well-formed tree
both come to an end, climbing at the root, and going down with a node and all that is below it, each
once and in pre-order; these are the nodes that bounded looking finds.
-/

namespace NodeWeave.Hierarchy.TypeTree

open Shape

variable {tree : TypeTree} {shape : Shape} {id : Nat} {met other : List Nat}

/-- Climbing from a node to its parent, until there is none, meets these nodes. -/
inductive Ascends (tree : TypeTree) : Nat → List Nat → Prop where
  | top {id : Nat} (alone : tree.parent? id = none) : Ascends tree id []
  | step {id parent : Nat} {met : List Nat} (placed : tree.parent? id = some parent)
      (further : Ascends tree parent met) : Ascends tree id (parent :: met)

/-- Taking the first node from a stack and putting its children in its place, until the stack is
empty, meets these nodes. -/
inductive Unstacks (tree : TypeTree) : List Nat → List Nat → Prop where
  | done : Unstacks tree [] []
  | take {id : Nat} {stack met : List Nat}
      (further : Unstacks tree (tree.children id ++ stack) met) :
      Unstacks tree (id :: stack) (id :: met)

/-- Nodes one after the other, each followed by what is below it in the same order. -/
inductive PreOrder (tree : TypeTree) : List Nat → List Nat → Prop where
  | nil : PreOrder tree [] []
  | cons {id : Nat} {rest below behind : List Nat} (inside : PreOrder tree (tree.children id) below)
      (later : PreOrder tree rest behind) : PreOrder tree (id :: rest) (id :: (below ++ behind))

/-- Lists of children lead from the first node to the second one, which may be the same. -/
def LeadsTo (tree : TypeTree) : Nat → Nat → Prop :=
  Relation.ReflTransGen fun parent child => child ∈ tree.children parent

theorem reaches_iff_leadsTo : tree.Reaches id ↔ tree.LeadsTo tree.root id := by
  constructor
  · intro reached
    induction reached with
    | root => exact .refl
    | child _ listed ih => exact ih.tail listed
  · intro leads
    induction leads with
    | refl => exact .root
    | tail _ listed ih => exact .child ih listed

/-! ### What is met is determined -/

theorem Ascends.unique (first : tree.Ascends id met) (second : tree.Ascends id other) :
    met = other := by
  induction first generalizing other with
  | top alone =>
      cases second with
      | top => rfl
      | step placed => cases alone.symm.trans placed
  | step placed _ ih =>
      cases second with
      | top alone => cases alone.symm.trans placed
      | step again further =>
          cases placed.symm.trans again
          rw [ih further]

theorem Unstacks.unique {stack : List Nat} (first : tree.Unstacks stack met)
    (second : tree.Unstacks stack other) : met = other := by
  induction first generalizing other with
  | done =>
      cases second
      rfl
  | take _ ih =>
      obtain _ | further := second
      rw [ih further]

/-- The pre-order of what is on top of a stack comes first. -/
theorem PreOrder.unstacks {ids below stack : List Nat} (order : tree.PreOrder ids below)
    (rest : tree.Unstacks stack met) : tree.Unstacks (ids ++ stack) (below ++ met) := by
  induction order generalizing stack met with
  | nil => exact rest
  | cons _ _ ihInside ihLater =>
      simp only [List.cons_append, List.append_assoc]
      exact .take (ihInside (ihLater rest))

theorem PreOrder.mem_iff {ids below : List Nat} (order : tree.PreOrder ids below) {lower : Nat} :
    lower ∈ below ↔ ∃ upper ∈ ids, tree.LeadsTo upper lower := by
  induction order with
  | nil => simp
  | @cons id rest _ _ _ _ ihInside ihLater =>
      have split : tree.LeadsTo id lower ↔
          lower = id ∨ ∃ child ∈ tree.children id, tree.LeadsTo child lower := by
        rw [LeadsTo, Relation.ReflTransGen.cases_head_iff, eq_comm]
      rw [List.mem_cons, List.mem_append, ihInside, ihLater, List.exists_mem_cons_iff, split,
        or_assoc]

/-! ### Trees of a shape -/

mutual
theorem Realizes.preOrder {parent : Option Nat} {shape : Shape}
    (realized : tree.Realizes parent shape) {rest behind : List Nat}
    (later : tree.PreOrder rest behind) :
    tree.PreOrder (shape.top :: rest) (shape.ids ++ behind) := by
  cases shape with
  | node id children =>
      have listed := realized.children
      rw [top_node] at listed
      exact .cons (listed ▸ realized.2.preOrder) later

theorem RealizesAll.preOrder {parent : Option Nat} {shapes : List Shape}
    (realized : tree.RealizesAll parent shapes) :
    tree.PreOrder (shapes.map Shape.top) (idsAll shapes) := by
  cases shapes with
  | nil => exact .nil
  | cons shape rest => exact realized.1.preOrder realized.2.preOrder
end

theorem RealizesFrames.ascends {frames : List Frame} (realized : tree.RealizesFrames frames [id])
    (placed : tree.parent? id = above frames) : tree.Ascends id (frames.map Frame.id) := by
  induction frames generalizing id with
  | nil => exact .top placed
  | cons frame outer ih =>
      obtain ⟨⟨entry, found⟩, _, _, around⟩ := realized
      refine .step placed (ih around ?_)
      simp [TypeTree.parent?, found]

/-- Climbing comes to an end, past the ancestors and at the root. -/
structure Climbs (tree : TypeTree) (id : Nat) : Prop where
  ascends_iff : ∀ {met : List Nat}, tree.Ascends id met ↔ met = tree.ancestors id
  last : (id :: tree.ancestors id).getLast? = some tree.root

/-- Going down from a node comes to an end and meets it and all below it in pre-order, each once. -/
structure GoesDown (tree : TypeTree) (id : Nat) : Prop where
  unstacks_iff : ∀ {met : List Nat}, tree.Unstacks [id] met ↔ met = tree.subtree id
  preOrder : tree.PreOrder [id] (tree.subtree id)
  nodup : (tree.subtree id).Nodup
  mem_iff : ∀ {lower : Nat}, lower ∈ tree.subtree id ↔ tree.LeadsTo id lower

theorem last_frame {sub : Shape} {frames : List Frame} (apart : plug frames [sub] = [shape]) :
    (sub.top :: frames.map Frame.id).getLast? = some shape.top := by
  induction frames generalizing sub with
  | nil =>
      cases apart
      rfl
  | cons frame outer ih => exact @ih (frame.around [sub]) apart

theorem HasShape.climbs (has : tree.HasShape shape) (mem : id ∈ shape.ids) : tree.Climbs id := by
  obtain ⟨frames, sub, rfl, apart⟩ := exists_plug_of_mem shape mem
  obtain ⟨around, inside⟩ := has.realizes_plug apart
  constructor
  · intro met
    have meets := around.ascends inside.1.parent?
    rw [has.ancestors_eq apart]
    exact ⟨fun other => other.unique meets, fun same => same ▸ meets⟩
  · rw [has.ancestors_eq apart, has.root_eq]
    exact last_frame apart

theorem HasShape.subtree_eq {frames : List Frame} {sub : Shape} (has : tree.HasShape shape)
    (apart : plug frames [sub] = [shape]) : tree.subtree sub.top = sub.ids := by
  obtain ⟨_, inside⟩ := has.realizes_plug apart
  refine inside.1.below_eq ?_
  have high := sub.height_lt_length_ids
  have few := has.length_ids_le
  have ids := congrArg (List.length ∘ idsAll) apart
  simp only [Function.comp_apply, idsAll_plug, idsAll_cons, idsAll_nil, List.append_nil,
    List.length_append] at ids
  omega

theorem HasShape.goesDown (has : tree.HasShape shape) (mem : id ∈ shape.ids) :
    tree.GoesDown id := by
  obtain ⟨frames, sub, rfl, apart⟩ := exists_plug_of_mem shape mem
  have order : tree.PreOrder [sub.top] sub.ids := by
    simpa using (has.realizes_plug apart).2.1.preOrder .nil
  have nodup := has.nodup_plug apart
  rw [idsAll_cons, idsAll_nil, List.append_nil] at nodup
  rw [← has.subtree_eq apart] at order
  have meets : tree.Unstacks [sub.top] (tree.subtree sub.top) := by
    simpa using order.unstacks .done
  refine ⟨⟨fun other => other.unique meets, fun same => same ▸ meets⟩, order, ?_, ?_⟩
  · rw [has.subtree_eq apart]
    exact nodup.sublist ((List.sublist_append_right _ _).trans (List.sublist_append_left _ _))
  · intro lower
    simpa using @PreOrder.mem_iff tree [sub.top] _ order lower

end NodeWeave.Hierarchy.TypeTree
