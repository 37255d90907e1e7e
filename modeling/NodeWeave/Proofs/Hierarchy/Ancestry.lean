import Mathlib.Tactic.Tauto
import NodeWeave.Proofs.Hierarchy.Shape

/-!
Which nodes stand above which, and which are linked. Main statements: above a node of a tree stand
its ancestors, and it is linked to its children.
-/

namespace NodeWeave.Hierarchy

namespace Shape

mutual
def Above (upper lower : Nat) : Shape → Prop
  | node id children => (upper = id ∧ lower ∈ idsAll children) ∨ AboveAll upper lower children

def AboveAll (upper lower : Nat) : List Shape → Prop
  | [] => False
  | shape :: rest => Above upper lower shape ∨ AboveAll upper lower rest
end

variable {upper lower id : Nat} {shape sub : Shape} {frames : List Frame} {below : List Shape}

theorem above_node {children : List Shape} : Above upper lower (node id children) ↔
    (upper = id ∧ lower ∈ idsAll children) ∨ AboveAll upper lower children := by
  rw [Above]

@[simp] theorem aboveAll_nil : ¬ AboveAll upper lower [] := by
  rw [AboveAll]
  exact not_false

@[simp] theorem aboveAll_singleton : AboveAll upper lower [shape] ↔ Above upper lower shape := by
  rw [AboveAll, AboveAll, or_false]

@[simp] theorem aboveAll_append {shapes others : List Shape} :
    AboveAll upper lower (shapes ++ others) ↔
      AboveAll upper lower shapes ∨ AboveAll upper lower others := by
  induction shapes with
  | nil => simp
  | cons shape rest ih => rw [List.cons_append, AboveAll, AboveAll, ih, or_assoc]

mutual
theorem Above.mem_ids : ∀ {shape : Shape}, Above upper lower shape →
    upper ∈ shape.ids ∧ lower ∈ shape.ids
  | node id children, above => by
      rw [Above] at above
      rw [ids_node]
      rcases above with ⟨rfl, below⟩ | inside
      · exact ⟨List.mem_cons_self, List.mem_cons_of_mem _ below⟩
      · exact ⟨List.mem_cons_of_mem _ (AboveAll.mem_ids inside).1,
          List.mem_cons_of_mem _ (AboveAll.mem_ids inside).2⟩

theorem AboveAll.mem_ids : ∀ {shapes : List Shape}, AboveAll upper lower shapes →
    upper ∈ idsAll shapes ∧ lower ∈ idsAll shapes
  | [], above => absurd above aboveAll_nil
  | shape :: rest, above => by
      rw [AboveAll] at above
      rw [idsAll_cons, List.mem_append, List.mem_append]
      rcases above with here | later
      · exact ⟨.inl here.mem_ids.1, .inl here.mem_ids.2⟩
      · exact ⟨.inr (AboveAll.mem_ids later).1, .inr (AboveAll.mem_ids later).2⟩
end

theorem aboveAll_around {frame : Frame} {inner : List Shape} :
    AboveAll upper lower [frame.around inner] ↔
      AboveAll upper lower [frame.around []] ∨ (upper = frame.id ∧ lower ∈ idsAll inner) ∨
        AboveAll upper lower inner := by
  simp only [Frame.around, aboveAll_singleton, above_node, aboveAll_append, idsAll_append,
    List.mem_append, List.append_nil]
  tauto

/-- What is put into a place keeps its order, and the frames stand above it. -/
theorem aboveAll_plug {inner : List Shape} :
    AboveAll upper lower (plug frames inner) ↔
      AboveAll upper lower (plug frames []) ∨
        (upper ∈ frames.map Frame.id ∧ lower ∈ idsAll inner) ∨ AboveAll upper lower inner := by
  induction frames generalizing inner with
  | nil => simp [plug]
  | cons frame outer ih =>
      have mem_around : lower ∈ idsAll [frame.around inner] ↔
          lower ∈ idsAll [frame.around []] ∨ lower ∈ idsAll inner := by
        simp only [Frame.around, idsAll_cons, ids_node, idsAll_append, idsAll_nil,
          List.append_nil, List.mem_cons, List.mem_append]
        tauto
      rw [plug, ih, plug, @ih [frame.around []], aboveAll_around, mem_around, List.map_cons,
        List.mem_cons]
      tauto

theorem not_aboveAll_plug_nil (nodup : shape.ids.Nodup) {inner : List Shape}
    (apart : plug frames inner = [shape]) {number : Nat} (mem : number ∈ idsAll inner)
    (about : number = upper ∨ number = lower) : ¬ AboveAll upper lower (plug frames []) := by
  intro above
  have distinct := nodup_of_plug nodup apart
  have outside := above.mem_ids
  rw [idsAll_plug, idsAll_nil] at outside
  grind

theorem above_top_iff (nodup : shape.ids.Nodup) (apart : plug frames [sub] = [shape]) :
    Above upper sub.top shape ↔ upper ∈ frames.map Frame.id := by
  have inside : sub.top ∈ idsAll [sub] := by simpa using sub.top_mem_ids
  have noTop : ¬ Above upper sub.top sub := by
    have distinct := nodup_of_plug nodup apart
    cases sub with
    | node id below =>
        rw [above_node, top_node]
        intro above
        have (aboveBelow : AboveAll upper id below) := aboveBelow.mem_ids
        simp only [idsAll_cons, ids_node, idsAll_nil, List.append_nil] at distinct
        grind
  rw [← aboveAll_singleton, ← apart, aboveAll_plug, aboveAll_singleton]
  have outside := @not_aboveAll_plug_nil upper sub.top shape frames nodup [sub] apart sub.top
    inside (.inr rfl)
  tauto

theorem above_iff_mem (nodup : shape.ids.Nodup) (apart : plug frames [.node id below] = [shape]) :
    Above id lower shape ↔ lower ∈ idsAll below := by
  have inside : id ∈ idsAll [.node id below] := by simp
  have distinct := nodup_of_plug nodup apart
  simp only [idsAll_cons, ids_node, idsAll_nil, List.append_nil] at distinct
  have noFrame : id ∉ frames.map Frame.id := by
    intro mem
    obtain ⟨frame, listed, same⟩ := List.mem_map.mp mem
    have := id_mem_leading listed
    grind
  have notUnder : ¬ AboveAll id lower below := by
    intro above
    have := above.mem_ids.1
    grind
  have outside := @not_aboveAll_plug_nil id lower shape frames nodup _ apart id inside (.inl rfl)
  rw [← aboveAll_singleton, ← apart, aboveAll_plug, aboveAll_singleton, above_node]
  tauto

/-! ### Links -/

mutual
def Linked (upper lower : Nat) : Shape → Prop
  | node id children => (upper = id ∧ lower ∈ children.map top) ∨ LinkedAll upper lower children

def LinkedAll (upper lower : Nat) : List Shape → Prop
  | [] => False
  | shape :: rest => Linked upper lower shape ∨ LinkedAll upper lower rest
end

theorem linked_node {children : List Shape} : Linked upper lower (node id children) ↔
    (upper = id ∧ lower ∈ children.map top) ∨ LinkedAll upper lower children := by
  rw [Linked]

@[simp] theorem linkedAll_nil : ¬ LinkedAll upper lower [] := by
  rw [LinkedAll]
  exact not_false

@[simp] theorem linkedAll_singleton : LinkedAll upper lower [shape] ↔ Linked upper lower shape := by
  rw [LinkedAll, LinkedAll, or_false]

@[simp] theorem linkedAll_append {shapes others : List Shape} :
    LinkedAll upper lower (shapes ++ others) ↔
      LinkedAll upper lower shapes ∨ LinkedAll upper lower others := by
  induction shapes with
  | nil => simp
  | cons shape rest ih => rw [List.cons_append, LinkedAll, LinkedAll, ih, or_assoc]

/-- What is put into a place keeps its links and gets one from the closest frame. -/
theorem linkedAll_plug {inner : List Shape} :
    LinkedAll upper lower (plug frames inner) ↔
      LinkedAll upper lower (plug frames []) ∨
        (Shape.above frames = some upper ∧ lower ∈ inner.map top) ∨
          LinkedAll upper lower inner := by
  induction frames generalizing inner with
  | nil => simp [plug, Shape.above]
  | cons frame outer ih =>
      rw [plug, ih, plug, @ih [frame.around []]]
      simp only [Frame.around, linkedAll_singleton, linked_node, linkedAll_append, List.map_append,
        List.mem_append, List.map_cons, List.map_nil, top_node, Shape.above, List.append_nil,
        Option.some.injEq, @eq_comm _ frame.id upper]
      tauto

theorem map_top_plug_nil_subset (frames : List Frame) (inner : List Shape) :
    (plug frames []).map top ⊆ (plug frames inner).map top := by
  cases frames with
  | nil => exact List.nil_subset _
  | cons frame outer =>
      obtain ⟨hollow, emptied⟩ := exists_plug_eq_singleton outer (frame.around [])
      obtain ⟨full, filled⟩ := exists_plug_eq_singleton outer (frame.around inner)
      have same := top_eq_of_plug (emptied : plug (frame :: outer) [] = [hollow])
        (filled : plug (frame :: outer) inner = [full])
      rw [plug, plug, emptied, filled, List.map_singleton, List.map_singleton, same]
      exact List.Subset.refl _

end Shape

open Shape

namespace TypeTree

variable {tree : TypeTree} {shape : Shape} {upper lower : Nat}

theorem HasShape.mem_ancestors_iff (has : tree.HasShape shape) (mem : lower ∈ shape.ids) :
    upper ∈ tree.ancestors lower ↔ Above upper lower shape := by
  obtain ⟨frames, sub, rfl, apart⟩ := exists_plug_of_mem shape mem
  rw [has.ancestors_eq apart, above_top_iff has.nodup apart]

mutual
theorem Realizes.linked_iff {parent : Option Nat} {shape : Shape}
    (realized : tree.Realizes parent shape) :
    Linked upper lower shape ↔ upper ∈ shape.ids ∧ lower ∈ tree.children upper := by
  cases shape with
  | node id children =>
      have listed := realized.children
      rw [top_node] at listed
      rw [linked_node, realized.2.linkedAll_iff, ids_node, List.mem_cons]
      constructor
      · intro links
        rcases links with ⟨rfl, mem⟩ | ⟨mem, below⟩
        · exact ⟨.inl rfl, listed ▸ mem⟩
        · exact ⟨.inr mem, below⟩
      · intro ⟨mem, below⟩
        rcases mem with rfl | inside
        · exact .inl ⟨rfl, listed ▸ below⟩
        · exact .inr ⟨inside, below⟩

theorem RealizesAll.linkedAll_iff {parent : Option Nat} {shapes : List Shape}
    (realized : tree.RealizesAll parent shapes) :
    LinkedAll upper lower shapes ↔ upper ∈ idsAll shapes ∧ lower ∈ tree.children upper := by
  cases shapes with
  | nil => simp
  | cons shape rest =>
      rw [LinkedAll, realized.1.linked_iff, realized.2.linkedAll_iff, idsAll_cons,
        List.mem_append, or_and_right]
end

end TypeTree

end NodeWeave.Hierarchy
