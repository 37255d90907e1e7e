import NodeWeave.Hierarchy.Duplicates
import NodeWeave.Proofs.Hierarchy.Shape

/-! What changes of a tree do to its shape. -/

namespace NodeWeave.Hierarchy.TypeTree

open Shape

variable {tree : TypeTree}

/-! ### Entries -/

theorem node?_modify (tree : TypeTree) (id : Nat) (change : TypeNode → TypeNode) (at_ : Nat) :
    (tree.modify id change).node? at_ =
      if at_ = id then (tree.node? at_).map change else tree.node? at_ := by
  split
  · next same => rw [same, node?_modify_self]
  · next differs => exact tree.node?_modify_of_ne differs change

/-- Two trees have the same nodes, up to links. -/
def SameEntries (tree other : TypeTree) : Prop :=
  ∀ id, other.entryAt? id = tree.entryAt? id

theorem SameEntries.refl (tree : TypeTree) : tree.SameEntries tree := fun _ => rfl

theorem SameEntries.trans {first second third : TypeTree} (left : first.SameEntries second)
    (right : second.SameEntries third) : first.SameEntries third :=
  fun id => (right id).trans (left id)

theorem SameEntries.modify {other : TypeTree} (same : tree.SameEntries other) {id : Nat}
    {change : TypeNode → TypeNode} (keeps : ∀ node, (change node).entry = node.entry) :
    tree.SameEntries (other.modify id change) := by
  intro at_
  rw [← same at_, entryAt?, entryAt?, node?_modify]
  split
  · cases other.node? at_ <;> simp [keeps]
  · rfl

theorem sameEntries_detach (tree : TypeTree) (id : Nat) : tree.SameEntries (tree.detach id) := by
  unfold detach
  split
  · exact .refl tree
  · refine .modify (.modify (.refl tree) ?_) ?_ <;> exact fun _ => rfl

theorem sameEntries_giveUpPlace (tree : TypeTree) (replaced kept : Nat) :
    tree.SameEntries (tree.giveUpPlace replaced kept) := by
  unfold giveUpPlace
  split
  · refine .modify (.modify (.refl tree) ?_) ?_ <;> exact fun _ => rfl
  · split
    · exact fun _ => rfl
    · exact .refl tree

def adoptAll (tree : TypeTree) (taker : Nat) (orphans : List Nat) : TypeTree :=
  orphans.foldl
    (fun tree child => tree.modify child fun n => { n with parent := some taker }) tree

theorem SameEntries.adoptAll {other : TypeTree} (same : tree.SameEntries other) (taker : Nat)
    (orphans : List Nat) : tree.SameEntries (other.adoptAll taker orphans) := by
  induction orphans generalizing other with
  | nil => exact same
  | cons orphan rest ih =>
      apply ih
      exact same.modify fun _ => rfl

theorem node?_adoptAll (tree : TypeTree) (taker : Nat) (orphans : List Nat) (id : Nat) :
    (tree.adoptAll taker orphans).node? id =
      if id ∈ orphans then (tree.node? id).map fun n => { n with parent := some taker }
      else tree.node? id := by
  induction orphans generalizing tree with
  | nil => rfl
  | cons orphan rest ih =>
      refine (ih (tree.modify orphan fun n => { n with parent := some taker })).trans ?_
      rw [node?_modify]
      by_cases first : id = orphan <;> by_cases later : id ∈ rest <;>
        simp [first, later, Function.comp_def]

theorem handOver_eq (tree : TypeTree) (giver taker : Nat) :
    tree.handOver giver taker =
      ((tree.modify giver fun n => { n with children := [] }).adoptAll taker
        (tree.children giver)).modify taker fun n =>
          { n with children := n.children ++ tree.children giver } := rfl

theorem sameEntries_takePlaceOf (tree : TypeTree) (kept replaced : Nat) :
    tree.SameEntries (tree.takePlaceOf kept replaced) := by
  have placed := (tree.sameEntries_detach kept).trans (sameEntries_giveUpPlace _ replaced kept)
  rw [takePlaceOf, handOver_eq]
  refine .modify (.adoptAll (.modify (.modify placed ?_) ?_) _ _) ?_ <;> exact fun _ => rfl

/-! ### Moving nodes -/

theorem RealizesAll.reparent {other : TypeTree} {parent next : Option Nat} {shapes : List Shape}
    (realized : tree.RealizesAll parent shapes) (nodup : (idsAll shapes).Nodup)
    (tops : ∀ shape ∈ shapes, other.node? shape.top =
      (tree.node? shape.top).map fun n => { n with parent := next })
    (below : ∀ id ∈ idsAll shapes, id ∉ shapes.map Shape.top → other.node? id = tree.node? id) :
    other.RealizesAll next shapes := by
  induction shapes with
  | nil => trivial
  | cons shape rest ih =>
      have restTops := map_top_subset rest
      rw [idsAll_cons] at nodup below
      refine ⟨?_, ih realized.2 (List.nodup_append.mp nodup).2.1
        (fun other mem => tops other (List.mem_cons_of_mem _ mem)) ?_⟩
      · have top := tops shape List.mem_cons_self
        cases shape with
        | node id children =>
            obtain ⟨⟨⟨entry, found⟩, inside⟩, _⟩ := realized
            rw [top_node] at top
            refine ⟨⟨entry, by rw [top, found]; rfl⟩, inside.congr fun number mem => ?_⟩
            apply below number <;> grind [ids_node, top_node]
      · intro id mem noTop
        apply below id (List.mem_append_right _ mem)
        have := shape.top_mem_ids
        grind

theorem RealizesFrames.refill {other : TypeTree} {frame : Frame} {outer : List Frame}
    {inner next : List Nat} (realized : tree.RealizesFrames (frame :: outer) inner)
    (nodup : (leading (frame :: outer) ++ trailing (frame :: outer)).Nodup)
    (around : other.node? frame.id = (tree.node? frame.id).map fun n =>
      { n with children := frame.before.map Shape.top ++ next ++ frame.after.map Shape.top })
    (elsewhere : ∀ id ∈ leading (frame :: outer) ++ trailing (frame :: outer), id ≠ frame.id →
      other.node? id = tree.node? id) : other.RealizesFrames (frame :: outer) next := by
  obtain ⟨⟨entry, found⟩, before, after, beyond⟩ := realized
  simp only [leading, trailing] at nodup elsewhere
  refine ⟨⟨entry, by rw [around, found]; rfl⟩, before.congr fun id mem => ?_,
    after.congr fun id mem => ?_, beyond.congr fun id mem => ?_⟩ <;> apply elsewhere <;> grind

/-! ### Taking a node out -/

theorem detach_of_parent {id parent : Nat} (found : tree.parent? id = some parent) :
    tree.detach id =
      (tree.modify id fun n => { n with parent := none }).modify parent fun n =>
        { n with children := n.children.filter (· != id) } := by
  rw [detach, found]

/-- A node that is taken out leaves an empty place and is the top of a tree of its own. -/
theorem realizes_detach {frame : Frame} {outer : List Frame} {sub : Shape}
    (around : tree.RealizesFrames (frame :: outer) [sub.top])
    (inside : tree.Realizes (some frame.id) sub)
    (nodup : (leading (frame :: outer) ++ sub.ids ++ trailing (frame :: outer)).Nodup) :
    (tree.detach sub.top).RealizesFrames (frame :: outer) [] ∧
      (tree.detach sub.top).Realizes none sub := by
  rw [detach_of_parent inside.parent?]
  have topMem := sub.top_mem_ids
  have placeNodup : (leading (frame :: outer) ++ trailing (frame :: outer)).Nodup :=
    nodup.sublist ((List.sublist_append_left _ _).append (.refl _))
  simp only [leading, trailing, List.append_assoc, List.cons_append] at nodup
  have frameAway : frame.id ∉ sub.ids ∧ frame.id ∉ idsAll frame.before ∧
      frame.id ∉ idsAll frame.after ∧ frame.id ∉ leading outer ++ trailing outer := by
    grind
  have topAway : sub.top ∉ idsAll frame.before ∧ sub.top ∉ idsAll frame.after ∧
      sub.top ∉ leading outer ++ trailing outer := by
    grind
  have elsewhere : ∀ id, id ≠ frame.id → id ≠ sub.top →
      ((tree.modify sub.top fun n => { n with parent := none }).modify frame.id fun n =>
        { n with children := n.children.filter (· != sub.top) }).node? id = tree.node? id := by
    intro id noFrame noTop
    rw [node?_modify_of_ne _ noFrame, node?_modify_of_ne _ noTop]
  constructor
  · refine around.refill placeNodup ?_ ?_
    · obtain ⟨⟨entry, found⟩, _⟩ := around
      have ne : frame.id ≠ sub.top := by grind
      rw [node?_modify_self, node?_modify_of_ne _ ne, found]
      have beforeTops := map_top_subset frame.before
      have afterTops := map_top_subset frame.after
      have (tops : List Nat) (away : sub.top ∉ tops) : tops.filter (· != sub.top) = tops := by
        apply List.filter_eq_self.mpr
        grind
      simp [List.filter_append, this _ fun mem => topAway.1 (beforeTops mem),
        this _ fun mem => topAway.2.1 (afterTops mem)]
    · intro id mem noFrame
      exact elsewhere id noFrame (by grind [leading, trailing])
  · have alone : tree.RealizesAll (some frame.id) [sub] := ⟨inside, trivial⟩
    refine (alone.reparent ?_ ?_ ?_).1
    · simp only [idsAll_cons, idsAll_nil, List.append_nil]
      grind
    · intro shape mem
      obtain rfl := List.mem_singleton.mp mem
      have ne : shape.top ≠ frame.id := by grind
      rw [node?_modify_of_ne _ ne, node?_modify_self]
    · intro id mem noTop
      exact elsewhere id (by grind [idsAll_cons, idsAll_nil]) (by simpa using noTop)

/-! ### Taking the place of a node -/

section Places

variable {replaced kept id : Nat}

theorem node?_giveUpPlace_of_ne (away : id ≠ replaced)
    (noParent : tree.parent? replaced ≠ some id) :
    (tree.giveUpPlace replaced kept).node? id = tree.node? id := by
  unfold giveUpPlace
  split
  · next parent found =>
      have ne : id ≠ parent := fun same => noParent (same ▸ found)
      rw [node?_modify_of_ne _ ne, node?_modify_of_ne _ away]
  · split <;> rfl

theorem node?_giveUpPlace_parent {parent : Nat} (found : tree.parent? replaced = some parent)
    (ne : parent ≠ replaced) :
    (tree.giveUpPlace replaced kept).node? parent = (tree.node? parent).map fun n =>
      { n with children := n.children.map fun c => if c = replaced then kept else c } := by
  rw [giveUpPlace, found]
  simp only [node?_modify_self, node?_modify_of_ne _ ne]

theorem children_giveUpPlace_self (noParent : tree.parent? replaced ≠ some replaced) :
    (tree.giveUpPlace replaced kept).children replaced = tree.children replaced := by
  unfold giveUpPlace children
  split
  · next parent found =>
      have ne : replaced ≠ parent := fun same => noParent (same ▸ found)
      rw [node?_modify_of_ne _ ne, node?_modify_self]
      cases tree.node? replaced <;> rfl
  · split <;> rfl

theorem root_giveUpPlace :
    (tree.giveUpPlace replaced kept).root =
      if tree.parent? replaced = none ∧ tree.root = replaced then kept else tree.root := by
  unfold giveUpPlace
  split
  · next parent found => simp [found]
  · next found => split <;> simp_all

theorem root_adoptAll (taker : Nat) (orphans : List Nat) :
    (tree.adoptAll taker orphans).root = tree.root := by
  induction orphans generalizing tree with
  | nil => rfl
  | cons orphan rest ih => exact ih

theorem root_handOver (giver taker : Nat) : (tree.handOver giver taker).root = tree.root := by
  rw [handOver_eq, root_modify, root_adoptAll, root_modify]

variable {giver taker : Nat}

theorem node?_handOver_of_ne (noGiver : id ≠ giver) (noTaker : id ≠ taker)
    (noChild : id ∉ tree.children giver) :
    (tree.handOver giver taker).node? id = tree.node? id := by
  rw [handOver_eq, node?_modify_of_ne _ noTaker, node?_adoptAll, if_neg noChild,
    node?_modify_of_ne _ noGiver]

theorem node?_handOver_child (noGiver : id ≠ giver) (noTaker : id ≠ taker)
    (child : id ∈ tree.children giver) :
    (tree.handOver giver taker).node? id =
      (tree.node? id).map fun n => { n with parent := some taker } := by
  rw [handOver_eq, node?_modify_of_ne _ noTaker, node?_adoptAll, if_pos child,
    node?_modify_of_ne _ noGiver]

theorem node?_handOver_taker (noGiver : taker ≠ giver) (noChild : taker ∉ tree.children giver) :
    (tree.handOver giver taker).node? taker =
      (tree.node? taker).map fun n => { n with children := n.children ++ tree.children giver } := by
  rw [handOver_eq, node?_modify_self, node?_adoptAll, if_neg noChild,
    node?_modify_of_ne _ noGiver]

/-! A node that stands alone takes the place of another one and gets what is below it. -/

def replace (tree : TypeTree) (replaced kept : Nat) : TypeTree :=
  ((tree.giveUpPlace replaced kept).modify kept fun n =>
    { n with parent := tree.parent? replaced }).handOver replaced kept

section

variable (ne : kept ≠ replaced) (noLoop : tree.parent? replaced ≠ some replaced)

include ne noLoop

theorem children_placed : ((tree.giveUpPlace replaced kept).modify kept fun n =>
    { n with parent := tree.parent? replaced }).children replaced = tree.children replaced := by
  rw [children, node?_modify_of_ne _ ne.symm]
  exact children_giveUpPlace_self noLoop

theorem node?_replace_of_ne (noKept : id ≠ kept) (noReplaced : id ≠ replaced)
    (noParent : tree.parent? replaced ≠ some id) (noChild : id ∉ tree.children replaced) :
    (tree.replace replaced kept).node? id = tree.node? id := by
  rw [replace, node?_handOver_of_ne noReplaced noKept (by rwa [children_placed ne noLoop]),
    node?_modify_of_ne _ noKept, node?_giveUpPlace_of_ne noReplaced noParent]

theorem node?_replace_parent {parent : Nat} (found : tree.parent? replaced = some parent)
    (noKept : parent ≠ kept) (noReplaced : parent ≠ replaced)
    (noChild : parent ∉ tree.children replaced) :
    (tree.replace replaced kept).node? parent = (tree.node? parent).map fun n =>
      { n with children := n.children.map fun c => if c = replaced then kept else c } := by
  rw [replace, node?_handOver_of_ne noReplaced noKept (by rwa [children_placed ne noLoop]),
    node?_modify_of_ne _ noKept, node?_giveUpPlace_parent found noReplaced]

theorem node?_replace_child (noKept : id ≠ kept) (noReplaced : id ≠ replaced)
    (noParent : tree.parent? replaced ≠ some id) (child : id ∈ tree.children replaced) :
    (tree.replace replaced kept).node? id =
      (tree.node? id).map fun n => { n with parent := some kept } := by
  rw [replace, node?_handOver_child noReplaced noKept (by rwa [children_placed ne noLoop]),
    node?_modify_of_ne _ noKept, node?_giveUpPlace_of_ne noReplaced noParent]

theorem node?_replace_kept (noParent : tree.parent? replaced ≠ some kept)
    (noChild : kept ∉ tree.children replaced) :
    (tree.replace replaced kept).node? kept = (tree.node? kept).map fun n =>
      { n with
        parent := tree.parent? replaced
        children := n.children ++ tree.children replaced } := by
  rw [replace, node?_handOver_taker ne (by rwa [children_placed ne noLoop]), node?_modify_self,
    node?_giveUpPlace_of_ne ne noParent, children_placed ne noLoop, Option.map_map]
  rfl

end

end Places

section

variable {outer : List Frame} {replaced kept : Nat} {others own : List Shape}

theorem map_replaced_of_not_mem {tops : List Nat} (away : replaced ∉ tops) :
    tops.map (fun c => if c = replaced then kept else c) = tops := by
  refine (List.map_congr_left fun c mem => ?_).trans tops.map_id
  exact if_neg fun (same : c = replaced) => away (same ▸ mem)

theorem realizesFrames_replace (around : tree.RealizesFrames outer [replaced])
    (inside : tree.Realizes (above outer) (.node replaced others))
    (nodup : (leading outer ++ (replaced :: idsAll others ++ kept :: idsAll own) ++
      trailing outer).Nodup) :
    (tree.replace replaced kept).RealizesFrames outer [kept] := by
  have parentOf : tree.parent? replaced = above outer := inside.parent?
  have listed : tree.children replaced = others.map Shape.top := inside.children
  have otherTops := map_top_subset others
  cases outer with
  | nil => trivial
  | cons frame outer =>
      have ne : kept ≠ replaced := by grind
      have noLoop : tree.parent? replaced ≠ some replaced := by grind [above, leading]
      have frameAway : frame.id ≠ kept ∧ frame.id ≠ replaced ∧
          frame.id ∉ tree.children replaced := by
        grind [leading]
      refine around.refill (by grind) ?_ fun id mem noFrame => ?_
      · rw [node?_replace_parent ne noLoop parentOf frameAway.1 frameAway.2.1 frameAway.2.2]
        obtain ⟨⟨entry, found⟩, _⟩ := around
        have beforeTops := map_top_subset frame.before
        have afterTops := map_top_subset frame.after
        rw [found]
        simp only [Option.map_some, List.map_append, List.map_cons, List.map_nil, if_true]
        rw [map_replaced_of_not_mem (by grind [leading]),
          map_replaced_of_not_mem (by grind [trailing])]
      · apply node?_replace_of_ne ne noLoop <;> grind [above]

/-- The node that takes the place has what was below the other one behind what is below itself. -/
theorem realizes_replace_kept (inside : tree.Realizes (above outer) (.node replaced others))
    (alone : tree.Realizes none (.node kept own))
    (noFrame : ∀ id, some id = above outer → id ∈ leading outer)
    (nodup : (leading outer ++ (replaced :: idsAll others ++ kept :: idsAll own) ++
      trailing outer).Nodup) :
    (tree.replace replaced kept).Realizes (above outer) (.node kept (own ++ others)) := by
  have parentOf : tree.parent? replaced = above outer := inside.parent?
  have listed : tree.children replaced = others.map Shape.top := inside.children
  have otherTops := map_top_subset others
  have ne : kept ≠ replaced := by grind
  have noLoop : tree.parent? replaced ≠ some replaced := by grind
  constructor
  · obtain ⟨⟨entry, found⟩, _⟩ := alone
    refine ⟨entry, ?_⟩
    rw [node?_replace_kept ne noLoop (by grind) (by grind), found, parentOf, listed,
      List.map_append]
    rfl
  · rw [realizesAll_append]
    constructor
    · refine alone.2.congr fun id mem => ?_
      apply node?_replace_of_ne ne noLoop <;> grind
    · refine inside.2.reparent (by grind) (fun shape mem => ?_) fun id mem noTop => ?_
      · have top : shape.top ∈ others.map Shape.top := List.mem_map_of_mem mem
        apply node?_replace_child ne noLoop <;> grind
      · apply node?_replace_of_ne ne noLoop <;> grind

/-- A node that stands alone takes the place of another one and gets what is below it. -/
theorem realizes_replace (around : tree.RealizesFrames outer [replaced])
    (inside : tree.Realizes (above outer) (.node replaced others))
    (alone : tree.Realizes none (.node kept own))
    (nodup : (leading outer ++ (replaced :: idsAll others ++ kept :: idsAll own) ++
      trailing outer).Nodup) :
    (tree.replace replaced kept).RealizesFrames outer [kept] ∧
      (tree.replace replaced kept).Realizes (above outer) (.node kept (own ++ others)) := by
  refine ⟨realizesFrames_replace around inside nodup,
    realizes_replace_kept inside alone ?_ nodup⟩
  cases outer with
  | nil => exact nofun
  | cons frame outer =>
      rintro id ⟨⟩
      exact id_mem_leading List.mem_cons_self

end

namespace HasShape

variable {shape sub : Shape} {frame : Frame} {inner outer : List Frame}

theorem root_detach (id : Nat) : (tree.detach id).root = tree.root := by
  unfold TypeTree.detach
  split <;> rfl

/-- A node that is taken out leaves the rest of the tree as it is. -/
theorem detach (has : tree.HasShape shape) (apart : plug (frame :: outer) [sub] = [shape]) :
    ∃ rest, plug (frame :: outer) [] = [rest] ∧ (tree.detach sub.top).HasShape rest ∧
      (tree.detach sub.top).Realizes none sub := by
  obtain ⟨around, inside⟩ := has.realizes_plug apart
  have nodup := has.nodup_plug apart
  obtain ⟨hole, alone⟩ := realizes_detach around inside.1 (by simpa using nodup)
  obtain ⟨rest, left⟩ : ∃ rest, plug (frame :: outer) [] = [rest] :=
    exists_plug_eq_singleton outer (frame.around [])
  have realized : (tree.detach sub.top).RealizesAll none (plug (frame :: outer) []) :=
    realizesAll_plug.mpr ⟨hole, trivial⟩
  have ids := idsAll_plug (frame :: outer) []
  rw [left] at realized ids
  refine ⟨rest, left, ⟨realized.1, ?_, ?_⟩, alone⟩
  · rw [root_detach, has.root_eq]
    exact top_eq_of_plug apart left
  · simp only [idsAll_cons, idsAll_nil, List.append_nil] at ids
    rw [ids]
    exact nodup.sublist ((List.sublist_append_left _ _).append (.refl _))

/-- A node takes the place of one above it. What stood beside it below that one follows what it
has below itself. -/
theorem takePlaceOf {kept : Nat} {own : List Shape} (has : tree.HasShape shape)
    (apart : plug (inner ++ frame :: outer) [.node kept own] = [shape]) :
    ∃ changed,
      plug outer [.node kept (own ++ (frame.before ++ plug inner [] ++ frame.after))] = [changed] ∧
        (tree.takePlaceOf kept frame.id).HasShape changed := by
  have detached : ∃ rest, plug (inner ++ frame :: outer) [] = [rest] ∧
      (tree.detach kept).HasShape rest ∧ (tree.detach kept).Realizes none (.node kept own) := by
    cases inner with
    | nil => exact has.detach apart
    | cons first inner => exact has.detach apart
  obtain ⟨rest, left, hasRest, alone⟩ := detached
  rw [plug_append] at left
  have leftAround : plug outer [frame.around (plug inner [])] = [rest] := left
  obtain ⟨around, inside⟩ := hasRest.realizes_plug leftAround
  have nodup := has.nodup_plug apart
  have reordered : (leading outer ++ (frame.id ::
      idsAll (frame.before ++ plug inner [] ++ frame.after) ++ kept :: idsAll own) ++
        trailing outer).Nodup := by
    refine (List.Perm.nodup_iff (List.perm_iff_count.mpr fun id => ?_)).mp nodup
    simp [leading, trailing, idsAll_plug, List.count_cons]
    omega
  obtain ⟨realized, placed⟩ := realizes_replace around inside.1 alone reordered
  obtain ⟨changed, put⟩ := exists_plug_eq_singleton outer
    (.node kept (own ++ (frame.before ++ plug inner [] ++ frame.after)))
  have whole : (tree.takePlaceOf kept frame.id).RealizesAll none [changed] := by
    rw [← put]
    exact realizesAll_plug.mpr ⟨realized, placed, trivial⟩
  refine ⟨changed, put, whole.1, ?_, ?_⟩
  · have placedRoot : (tree.takePlaceOf kept frame.id).root =
        if above outer = none ∧ rest.top = frame.id then kept else rest.top := by
      rw [TypeTree.takePlaceOf, root_handOver, root_modify, root_giveUpPlace, hasRest.root_eq,
        ← inside.1.parent?]
      rfl
    rw [placedRoot]
    cases outer with
    | nil =>
        cases leftAround
        cases put
        simp [above, Frame.around]
    | cons next outer =>
        rw [if_neg (by simp [above])]
        exact top_eq_of_plug leftAround put
  · have ids := idsAll_plug outer
      [.node kept (own ++ (frame.before ++ plug inner [] ++ frame.after))]
    rw [put] at ids
    simp only [idsAll_cons, idsAll_nil, List.append_nil] at ids
    have perm : (frame.id :: changed.ids).Perm
        (leading (inner ++ frame :: outer) ++ idsAll [.node kept own] ++
          trailing (inner ++ frame :: outer)) := by
      refine List.perm_iff_count.mpr fun id => ?_
      simp [ids, leading, trailing, idsAll_plug, List.count_cons]
      omega
    exact (List.nodup_cons.mp (perm.nodup_iff.mpr nodup)).2

end HasShape

end NodeWeave.Hierarchy.TypeTree
