import NodeWeave.Hierarchy.TypeTree

/-!
Shapes say which numbers stand below which. A tree has a shape if the links of its nodes agree with
it, and its nodes are then reached in the order of the shape. A shape is taken apart at a place in
it into what stands there and the frames around it.
-/

namespace NodeWeave.Hierarchy

inductive Shape where
  | node (id : Nat) (children : List Shape)
  deriving Repr

namespace Shape

def top : Shape → Nat
  | node id _ => id

def children : Shape → List Shape
  | node _ children => children

@[simp] theorem top_node (id : Nat) (children : List Shape) : (node id children).top = id := rfl

mutual
def ids : Shape → List Nat
  | node id children => id :: idsAll children

def idsAll : List Shape → List Nat
  | [] => []
  | shape :: rest => ids shape ++ idsAll rest
end

@[simp] theorem ids_node (id : Nat) (children : List Shape) :
    (node id children).ids = id :: idsAll children := rfl

@[simp] theorem idsAll_nil : idsAll [] = [] := rfl

@[simp] theorem idsAll_cons (shape : Shape) (rest : List Shape) :
    idsAll (shape :: rest) = shape.ids ++ idsAll rest := rfl

@[simp] theorem idsAll_append (shapes others : List Shape) :
    idsAll (shapes ++ others) = idsAll shapes ++ idsAll others := by
  induction shapes with
  | nil => rfl
  | cons shape rest ih => simp [ih]

theorem top_mem_ids (shape : Shape) : shape.top ∈ shape.ids := by
  cases shape with
  | node id children => exact List.mem_cons_self

theorem map_top_sublist (shapes : List Shape) : (shapes.map top).Sublist (idsAll shapes) := by
  induction shapes with
  | nil => exact .refl _
  | cons shape rest ih =>
      exact (List.singleton_sublist.mpr shape.top_mem_ids).append ih

theorem map_top_subset (shapes : List Shape) : shapes.map top ⊆ idsAll shapes :=
  (map_top_sublist shapes).subset

mutual
def height : Shape → Nat
  | node _ children => heightAll children

/-- How many steps lead down at most from a node with these below it. -/
def heightAll : List Shape → Nat
  | [] => 0
  | shape :: rest => max (height shape + 1) (heightAll rest)
end

mutual
theorem height_lt_length_ids (shape : Shape) : shape.height < shape.ids.length := by
  cases shape with
  | node id children =>
      rw [height, ids_node, List.length_cons]
      exact Nat.lt_succ_of_le (heightAll_le_length_idsAll children)

theorem heightAll_le_length_idsAll (shapes : List Shape) :
    heightAll shapes ≤ (idsAll shapes).length := by
  cases shapes with
  | nil => exact Nat.le_refl 0
  | cons shape rest =>
      have first := height_lt_length_ids shape
      have others := heightAll_le_length_idsAll rest
      rw [heightAll, idsAll_cons, List.length_append]
      omega
end

end Shape

/-! ### Frames -/

/-- A node around a place, with what stands before and behind the place below it. -/
structure Frame where
  id : Nat
  before : List Shape
  after : List Shape
  deriving Repr

def Frame.around (frame : Frame) (inner : List Shape) : Shape :=
  .node frame.id (frame.before ++ inner ++ frame.after)

namespace Shape

/-- Puts shapes into a place with these frames around it, the closest first. -/
def plug : List Frame → List Shape → List Shape
  | [], inner => inner
  | frame :: outer, inner => plug outer [frame.around inner]

def leading : List Frame → List Nat
  | [] => []
  | frame :: outer => leading outer ++ frame.id :: idsAll frame.before

def trailing : List Frame → List Nat
  | [] => []
  | frame :: outer => idsAll frame.after ++ trailing outer

def above : List Frame → Option Nat
  | [] => none
  | frame :: _ => some frame.id

theorem idsAll_plug (frames : List Frame) (inner : List Shape) :
    idsAll (plug frames inner) = leading frames ++ idsAll inner ++ trailing frames := by
  induction frames generalizing inner with
  | nil => simp [plug, leading, trailing]
  | cons frame outer ih => simp [plug, ih, leading, trailing, Frame.around]

theorem nodup_of_plug {frames : List Frame} {inner : List Shape} {shape : Shape}
    (nodup : shape.ids.Nodup) (apart : plug frames inner = [shape]) :
    (leading frames ++ idsAll inner ++ trailing frames).Nodup := by
  rw [← idsAll_plug, apart]
  simpa using nodup

theorem plug_append (frames outer : List Frame) (inner : List Shape) :
    plug (frames ++ outer) inner = plug outer (plug frames inner) := by
  induction frames generalizing inner with
  | nil => rfl
  | cons frame rest ih => exact ih _

@[simp] theorem leading_append (frames outer : List Frame) :
    leading (frames ++ outer) = leading outer ++ leading frames := by
  induction frames with
  | nil => simp [leading]
  | cons frame rest ih => simp [leading, ih]

@[simp] theorem trailing_append (frames outer : List Frame) :
    trailing (frames ++ outer) = trailing frames ++ trailing outer := by
  induction frames with
  | nil => simp [trailing]
  | cons frame rest ih => simp [trailing, ih]

theorem length_frames_le (frames : List Frame) : frames.length ≤ (leading frames).length := by
  induction frames with
  | nil => exact Nat.le_refl 0
  | cons frame outer ih =>
      rw [leading, List.length_append, List.length_cons, List.length_cons]
      omega

theorem id_mem_leading {frame : Frame} {frames : List Frame} (mem : frame ∈ frames) :
    frame.id ∈ leading frames := by
  induction frames with
  | nil => cases mem
  | cons first outer ih =>
      rw [leading]
      cases mem with
      | head => simp
      | tail _ mem => simp [ih mem]

/-- What `plug` leaves at the top is one shape, if one is put in. -/
theorem exists_plug_eq_singleton (frames : List Frame) (sub : Shape) :
    ∃ shape, plug frames [sub] = [shape] := by
  induction frames generalizing sub with
  | nil => exact ⟨sub, rfl⟩
  | cons frame outer ih => exact ih _

/-- The top does not depend on what stands in a place below it. -/
theorem top_eq_of_plug {frame : Frame} {outer : List Frame} {inner other : List Shape}
    {shape changed : Shape} (plugged : plug (frame :: outer) inner = [shape])
    (replaced : plug (frame :: outer) other = [changed]) : shape.top = changed.top := by
  induction outer generalizing frame inner other with
  | nil =>
      cases plugged
      cases replaced
      rfl
  | cons next outer ih => exact ih plugged replaced

mutual
theorem exists_plug_of_mem {number : Nat} (shape : Shape) (mem : number ∈ shape.ids) :
    ∃ frames sub, sub.top = number ∧ plug frames [sub] = [shape] := by
  cases shape with
  | node id children =>
      rcases List.mem_cons.mp mem with rfl | below
      · exact ⟨[], _, rfl, rfl⟩
      · obtain ⟨before, shape, after, same, frames, sub, found, plugged⟩ :=
          exists_plug_of_memAll children below
        refine ⟨frames ++ [⟨id, before, after⟩], sub, found, ?_⟩
        rw [plug_append, plugged, same]
        simp [plug, Frame.around]

theorem exists_plug_of_memAll {number : Nat} (shapes : List Shape)
    (mem : number ∈ idsAll shapes) :
    ∃ before shape after, shapes = before ++ shape :: after ∧
      ∃ frames sub, sub.top = number ∧ plug frames [sub] = [shape] := by
  cases shapes with
  | nil => cases mem
  | cons shape rest =>
      rcases List.mem_append.mp mem with first | later
      · exact ⟨[], shape, rest, rfl, exists_plug_of_mem shape first⟩
      · obtain ⟨before, found, after, rfl, apart⟩ := exists_plug_of_memAll rest later
        exact ⟨shape :: before, found, after, rfl, apart⟩
end

end Shape

/-! ### Trees of a shape -/

namespace TypeTree

open Shape

mutual
/-- The links of the nodes agree with the shape, whose top stands below the parent. -/
def Realizes (tree : TypeTree) (parent : Option Nat) : Shape → Prop
  | .node id children =>
      (∃ entry, tree.node? id = some ⟨entry, parent, children.map Shape.top⟩) ∧
        RealizesAll tree (some id) children

def RealizesAll (tree : TypeTree) (parent : Option Nat) : List Shape → Prop
  | [] => True
  | shape :: rest => Realizes tree parent shape ∧ RealizesAll tree parent rest
end

variable {tree other : TypeTree}

theorem realizesAll_append {parent : Option Nat} {shapes others : List Shape} :
    tree.RealizesAll parent (shapes ++ others) ↔
      tree.RealizesAll parent shapes ∧ tree.RealizesAll parent others := by
  induction shapes with
  | nil => simp [RealizesAll]
  | cons shape rest ih => simp [RealizesAll, ih, and_assoc]

theorem RealizesAll.of_mem {parent : Option Nat} {shapes : List Shape}
    (realized : tree.RealizesAll parent shapes)
    {shape : Shape} (mem : shape ∈ shapes) : tree.Realizes parent shape := by
  induction shapes with
  | nil => cases mem
  | cons first rest ih =>
      cases mem with
      | head => exact realized.1
      | tail _ mem => exact ih realized.2 mem

theorem Realizes.node? {parent : Option Nat} {shape : Shape}
    (realized : tree.Realizes parent shape) :
    ∃ entry, tree.node? shape.top = some ⟨entry, parent, shape.children.map Shape.top⟩ := by
  cases shape with
  | node id children => exact realized.1

theorem Realizes.parent? {parent : Option Nat} {shape : Shape}
    (realized : tree.Realizes parent shape) :
    tree.parent? shape.top = parent := by
  obtain ⟨entry, found⟩ := realized.node?
  simp [TypeTree.parent?, found]

theorem Realizes.children {parent : Option Nat} {shape : Shape}
    (realized : tree.Realizes parent shape) :
    tree.children shape.top = shape.children.map Shape.top := by
  obtain ⟨entry, found⟩ := realized.node?
  simp [TypeTree.children, found]

mutual
/-- Whether a tree realizes a shape depends on the nodes of the shape alone. -/
theorem Realizes.congr {parent : Option Nat} {shape : Shape}
    (realized : tree.Realizes parent shape)
    (same : ∀ id ∈ shape.ids, other.node? id = tree.node? id) : other.Realizes parent shape := by
  cases shape with
  | node id children =>
      obtain ⟨⟨entry, found⟩, below⟩ := realized
      exact ⟨⟨entry, (same id List.mem_cons_self).trans found⟩,
        below.congr fun id mem => same id (List.mem_cons_of_mem _ mem)⟩

theorem RealizesAll.congr {parent : Option Nat} {shapes : List Shape}
    (realized : tree.RealizesAll parent shapes)
    (same : ∀ id ∈ idsAll shapes, other.node? id = tree.node? id) :
    other.RealizesAll parent shapes := by
  cases shapes with
  | nil => trivial
  | cons shape rest =>
      exact ⟨realized.1.congr fun id mem => same id (List.mem_append_left _ mem),
        realized.2.congr fun id mem => same id (List.mem_append_right _ mem)⟩
end

mutual
theorem Realizes.lt_length {parent : Option Nat} {shape : Shape}
    (realized : tree.Realizes parent shape) {id : Nat}
    (mem : id ∈ shape.ids) : id < tree.nodes.length := by
  cases shape with
  | node top children =>
      obtain ⟨⟨entry, found⟩, below⟩ := realized
      rcases List.mem_cons.mp mem with rfl | mem
      · exact (List.getElem?_eq_some_iff.mp found).1
      · exact below.lt_length mem

theorem RealizesAll.lt_length {parent : Option Nat} {shapes : List Shape}
    (realized : tree.RealizesAll parent shapes)
    {id : Nat} (mem : id ∈ idsAll shapes) : id < tree.nodes.length := by
  cases shapes with
  | nil => cases mem
  | cons shape rest =>
      rcases List.mem_append.mp mem with first | later
      · exact realized.1.lt_length first
      · exact realized.2.lt_length later
end

mutual
/-- Looking down deep enough meets the numbers of the shape in their order. -/
theorem Realizes.below_eq {parent : Option Nat} {shape : Shape}
    (realized : tree.Realizes parent shape) {depth : Nat}
    (deep : shape.height ≤ depth) : tree.below depth shape.top = shape.ids := by
  cases shape with
  | node id children =>
      have listed := realized.children
      obtain ⟨_, inside⟩ := realized
      cases depth with
      | zero =>
          cases children with
          | nil => simp [TypeTree.below]
          | cons child rest =>
              rw [height, heightAll] at deep
              omega
      | succ depth =>
          rw [top_node] at listed
          rw [top_node, TypeTree.below, listed, ids_node]
          exact congrArg _ (inside.belowAll_eq deep)

theorem RealizesAll.belowAll_eq {parent : Option Nat} {shapes : List Shape}
    (realized : tree.RealizesAll parent shapes)
    {depth : Nat} (deep : heightAll shapes ≤ depth + 1) :
    tree.belowAll depth (shapes.map Shape.top) = idsAll shapes := by
  cases shapes with
  | nil => simp [belowAll]
  | cons shape rest =>
      rw [heightAll] at deep
      rw [List.map_cons, belowAll, idsAll_cons, realized.1.below_eq (by omega),
        realized.2.belowAll_eq (by omega)]
end

/-- The links around a place agree with its frames, and these numbers stand in the place. -/
def RealizesFrames (tree : TypeTree) : List Frame → List Nat → Prop
  | [], _ => True
  | frame :: outer, inner =>
      (∃ entry, tree.node? frame.id =
        some ⟨entry, above outer,
          frame.before.map Shape.top ++ inner ++ frame.after.map Shape.top⟩) ∧
      tree.RealizesAll (some frame.id) frame.before ∧
      tree.RealizesAll (some frame.id) frame.after ∧ RealizesFrames tree outer [frame.id]

/-- A tree realizes a shape if it does so around a place of it and in the place. -/
theorem realizesAll_plug {frames : List Frame} {inner : List Shape} :
    tree.RealizesAll none (plug frames inner) ↔
      tree.RealizesFrames frames (inner.map Shape.top) ∧
        tree.RealizesAll (above frames) inner := by
  induction frames generalizing inner with
  | nil => simp [plug, RealizesFrames, above]
  | cons frame outer ih =>
      simp only [plug, ih, RealizesFrames, above, Frame.around, RealizesAll, Realizes,
        realizesAll_append, List.map_append, List.map_cons, List.map_nil, top_node]
      constructor
      · rintro ⟨around, ⟨found, ⟨before, inside⟩, after⟩, _⟩
        exact ⟨⟨found, before, after, around⟩, inside⟩
      · rintro ⟨⟨found, before, after, around⟩, inside⟩
        exact ⟨around, ⟨found, ⟨before, inside⟩, after⟩, trivial⟩

theorem RealizesFrames.congr {frames : List Frame} {inner : List Nat}
    (realized : tree.RealizesFrames frames inner)
    (same : ∀ id ∈ leading frames ++ trailing frames, other.node? id = tree.node? id) :
    other.RealizesFrames frames inner := by
  induction frames generalizing inner with
  | nil => trivial
  | cons frame outer ih =>
      obtain ⟨⟨entry, found⟩, before, after, around⟩ := realized
      simp only [leading, trailing, List.mem_append, List.mem_cons] at same
      refine ⟨⟨entry, (same _ (by simp)).trans found⟩, before.congr ?_, after.congr ?_,
        ih around ?_⟩
      · exact fun id mem => same id (by simp [mem])
      · exact fun id mem => same id (by simp [mem])
      · exact fun id mem => same id (by
          rcases List.mem_append.mp mem with mem | mem <;> simp [mem])

theorem RealizesFrames.ancestorsUpTo_eq {frames : List Frame} {id count : Nat}
    (realized : tree.RealizesFrames frames [id]) (placed : tree.parent? id = above frames)
    (enough : frames.length ≤ count) :
    tree.ancestorsUpTo count id = frames.map Frame.id := by
  induction frames generalizing id count with
  | nil =>
      cases count with
      | zero => rfl
      | succ count =>
          rw [above] at placed
          simp [ancestorsUpTo, placed]
  | cons frame outer ih =>
      obtain ⟨⟨entry, found⟩, _, _, around⟩ := realized
      cases count with
      | zero => simp at enough
      | succ count =>
          rw [above] at placed
          simp only [ancestorsUpTo, placed, List.map_cons]
          refine congrArg _ (ih around ?_ (Nat.le_of_succ_le_succ enough))
          simp [TypeTree.parent?, found]

/-- A tree that consists of the nodes of a shape and of nodes that are not reached. -/
structure HasShape (tree : TypeTree) (shape : Shape) : Prop where
  realizes : tree.Realizes none shape
  root_eq : tree.root = shape.top
  nodup : shape.ids.Nodup

namespace HasShape

variable {shape : Shape}

theorem length_ids_le (has : tree.HasShape shape) : shape.ids.length ≤ tree.nodes.length := by
  have within : shape.ids ⊆ List.range tree.nodes.length := fun id mem =>
    List.mem_range.mpr (has.realizes.lt_length mem)
  simpa using has.nodup.length_le_of_subset within

theorem attached_eq (has : tree.HasShape shape) : tree.attached = shape.ids := by
  rw [attached, subtree, has.root_eq]
  apply has.realizes.below_eq
  have := shape.height_lt_length_ids
  have := has.length_ids_le
  omega

theorem nodup_plug {frames : List Frame} {inner : List Shape} (has : tree.HasShape shape)
    (apart : plug frames inner = [shape]) :
    (leading frames ++ idsAll inner ++ trailing frames).Nodup :=
  nodup_of_plug has.nodup apart

theorem realizes_plug {frames : List Frame} {inner : List Shape} (has : tree.HasShape shape)
    (apart : plug frames inner = [shape]) :
    tree.RealizesFrames frames (inner.map Shape.top) ∧ tree.RealizesAll (above frames) inner := by
  rw [← realizesAll_plug, apart]
  exact ⟨has.realizes, trivial⟩

theorem ancestors_eq {frames : List Frame} {sub : Shape} (has : tree.HasShape shape)
    (apart : plug frames [sub] = [shape]) : tree.ancestors sub.top = frames.map Frame.id := by
  obtain ⟨around, inside⟩ := has.realizes_plug apart
  apply around.ancestorsUpTo_eq inside.1.parent?
  have within := congrArg (List.length ∘ idsAll) apart
  simp only [Function.comp_apply, idsAll_plug, idsAll_cons, idsAll_nil, List.append_nil,
    List.length_append] at within
  have := length_frames_le frames
  have := has.length_ids_le
  omega

/-- A node that is reached is listed by its parent and by no other node that is reached. -/
theorem parent?_iff (has : tree.HasShape shape) {child parent : Nat} :
    child ∈ shape.ids ∧ tree.parent? child = some parent ↔
      parent ∈ shape.ids ∧ child ∈ tree.children parent := by
  constructor
  · rintro ⟨mem, placed⟩
    obtain ⟨frames, sub, rfl, apart⟩ := exists_plug_of_mem shape mem
    obtain ⟨around, inside⟩ := has.realizes_plug apart
    rw [inside.1.parent?] at placed
    cases frames with
    | nil => cases placed
    | cons frame outer =>
        cases placed
        obtain ⟨⟨entry, found⟩, _⟩ := around
        have ids := idsAll_plug (frame :: outer) [sub]
        rw [apart, idsAll_cons, idsAll_nil, List.append_nil] at ids
        refine ⟨?_, by simp [TypeTree.children, found]⟩
        rw [ids]
        exact List.mem_append_left _ (List.mem_append_left _ (id_mem_leading List.mem_cons_self))
  · rintro ⟨mem, listed⟩
    obtain ⟨frames, sub, rfl, apart⟩ := exists_plug_of_mem shape mem
    obtain ⟨_, inside⟩ := has.realizes_plug apart
    rw [inside.1.children] at listed
    obtain ⟨below, found, rfl⟩ := List.mem_map.mp listed
    have ids := idsAll_plug frames [sub]
    rw [apart, idsAll_cons, idsAll_nil, List.append_nil] at ids
    cases sub with
    | node id children =>
        refine ⟨?_, (inside.1.2.of_mem found).parent?⟩
        rw [ids]
        have := map_top_subset children listed
        simp [this]

theorem parent?_eq_none_iff (has : tree.HasShape shape) {id : Nat} (mem : id ∈ shape.ids) :
    tree.parent? id = none ↔ id = tree.root := by
  rw [has.root_eq]
  constructor
  · intro placed
    obtain ⟨frames, sub, rfl, apart⟩ := exists_plug_of_mem shape mem
    rw [(has.realizes_plug apart).2.1.parent?] at placed
    cases frames with
    | nil =>
        cases apart
        rfl
    | cons frame outer => cases placed
  · rintro rfl
    exact has.realizes.parent?

theorem nodup_children (has : tree.HasShape shape) {id : Nat} (mem : id ∈ shape.ids) :
    (tree.children id).Nodup := by
  obtain ⟨frames, sub, rfl, apart⟩ := exists_plug_of_mem shape mem
  rw [(has.realizes_plug apart).2.1.children]
  have nodup := has.nodup_plug apart
  cases sub with
  | node id children =>
      refine nodup.sublist ((map_top_sublist children).trans ?_)
      simp only [idsAll_cons, ids_node, idsAll_nil, List.append_nil]
      exact (List.sublist_cons_self _ _).trans
        ((List.sublist_append_right _ _).trans (List.sublist_append_left _ _))

end HasShape

/-! ### Trees of outlines -/

end TypeTree

mutual
def Outline.shape (next : Nat) : Outline → Shape
  | .node _ children => .node next (shapes (next + 1) children)

def Outline.shapes (next : Nat) : List Outline → List Shape
  | [] => []
  | outline :: rest => outline.shape next :: shapes (next + outline.size) rest
end

namespace Outline

theorem top_shape (next : Nat) (outline : Outline) : (outline.shape next).top = next := by
  cases outline
  rfl

theorem map_top_shapes (next : Nat) (outlines : List Outline) :
    (shapes next outlines).map Shape.top = TypeTree.numbers next outlines := by
  induction outlines generalizing next with
  | nil => rfl
  | cons outline rest ih => simp [shapes, TypeTree.numbers, top_shape, ih]

mutual
theorem ids_shape (next : Nat) (outline : Outline) :
    (outline.shape next).ids = List.range' next outline.size := by
  cases outline with
  | node entry children =>
      rw [shape, Shape.ids_node, idsAll_shapes, size, Nat.add_comm 1, List.range'_succ]

theorem idsAll_shapes (next : Nat) (outlines : List Outline) :
    Shape.idsAll (shapes next outlines) = List.range' next (sizeAll outlines) := by
  cases outlines with
  | nil => rfl
  | cons outline rest =>
      rw [shapes, Shape.idsAll_cons, ids_shape, idsAll_shapes, sizeAll, List.range'_append_1]
end

end Outline

namespace TypeTree

open Outline

mutual
/-- A tree whose nodes contain the laid out nodes of an outline realizes its shape. -/
theorem realizes_layOut {tree : TypeTree} {parent : Option Nat} (outline : Outline)
    {before after : List TypeNode}
    (nodes_eq : tree.nodes = before ++ layOut parent before.length outline ++ after) :
    tree.Realizes parent (outline.shape before.length) := by
  cases outline with
  | node entry children =>
      rw [layOut] at nodes_eq
      constructor
      · refine ⟨entry, ?_⟩
        rw [map_top_shapes, node?, nodes_eq]
        simp
      · have inside := @realizesAll_layOutAll tree (some before.length) children
          (before ++ [⟨entry, parent, numbers (before.length + 1) children⟩]) after
        rw [List.length_append, List.length_singleton] at inside
        exact inside (by simp [nodes_eq])

theorem realizesAll_layOutAll {tree : TypeTree} {parent : Option Nat} (outlines : List Outline)
    {before after : List TypeNode}
    (nodes_eq : tree.nodes = before ++ layOutAll parent before.length outlines ++ after) :
    tree.RealizesAll parent (shapes before.length outlines) := by
  cases outlines with
  | nil => trivial
  | cons outline rest =>
      rw [layOutAll] at nodes_eq
      constructor
      · exact @realizes_layOut tree parent outline before
          (layOutAll parent (before.length + outline.size) rest ++ after) (by simp [nodes_eq])
      · have later := @realizesAll_layOutAll tree parent rest
          (before ++ layOut parent before.length outline) after
        rw [List.length_append, length_layOut] at later
        exact later (by simp [nodes_eq])
end

theorem hasShape_ofOutline (outline : Outline) :
    (ofOutline outline).HasShape (outline.shape 0) where
  realizes := @realizes_layOut (ofOutline outline) none outline [] [] (by simp [ofOutline])
  root_eq := (top_shape 0 outline).symm
  nodup := by
    rw [ids_shape]
    exact List.nodup_range'

end TypeTree

end NodeWeave.Hierarchy
