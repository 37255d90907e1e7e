import NodeWeave.Proofs.Hierarchy.Rounds
import NodeWeave.Proofs.Hierarchy.WellFormed

/-!
Duplicate removal invents nothing: its nodes were in the tree, and it links no names that were not
linked. What a round keeps stays in the tree unless a later round gives up a node above it.
-/

namespace NodeWeave.Hierarchy.TypeTree

open Shape

variable {tree final : TypeTree} {shape : Shape}

namespace Round

variable {round : Round} {id : Nat}

/-- The kept node is the most specific one with its name, and the first of those. -/
structure KeepsBest (round : Round) : Prop where
  most : ∀ id ∈ round.tree.attached, round.tree.nameOf id = round.tree.nameOf round.kept →
    round.tree.specificityOf id ≤ round.tree.specificityOf round.kept
  first : round.tree.attached.find? (fun id =>
    round.tree.nameOf id == round.tree.nameOf round.kept &&
      round.tree.specificityOf id == round.tree.specificityOf round.kept) = some round.kept

theorem IsWhole.keepsBest (whole : round.IsWhole) : round.KeepsBest := by
  obtain ⟨most, first⟩ := round.tree.mostSpecific_first round.first round.others
  refine ⟨?_, ?_⟩
  · intro id attached named
    exact most id (whole.mem_group_iff.mpr ⟨attached, named⟩)
  · have grouped : round.first :: round.others =
        round.tree.attached.filter fun id => round.tree.nameOf id == round.tree.nameOf round.kept :=
      whole.group_eq
    rw [grouped, List.find?_filter] at first
    simp only [Bool.decide_and, Bool.decide_eq_true] at first
    exact first

/-- The round takes a node out together with one above it that it does without. The nodes above the
kept one only give up their place. -/
def TakesAlong (round : Round) (id : Nat) : Prop :=
  ∃ discarded ∈ round.discarded, discarded ∈ round.tree.ancestors id ∧
    discarded ∉ round.tree.ancestors round.kept

theorem IsWhole.mem_result_iff (whole : round.IsWhole) (has : round.tree.HasShape shape)
    {changed : Shape} (all : DiscardsAll round.kept round.discarded.reverse shape changed) :
    id ∈ changed.ids ↔ id ∈ shape.ids ∧ id ∉ round.discarded ∧ ¬ round.TakesAlong id := by
  have ready := whole.areDiscardable has
  rw [all.mem_iff ready has.nodup]
  simp only [List.mem_reverse, TakesAlong]
  refine and_congr_right fun mem => and_congr_right fun _ => ?_
  constructor
  · intro spared ⟨discarded, listed, above, notAbove⟩
    rw [has.mem_ancestors_iff mem] at above
    rw [has.mem_ancestors_iff ready.kept_mem] at notAbove
    exact notAbove (spared discarded listed above)
  · intro notTaken discarded listed above
    by_contra notAbove
    rw [← has.mem_ancestors_iff mem] at above
    rw [← has.mem_ancestors_iff ready.kept_mem] at notAbove
    exact notTaken ⟨discarded, listed, above, notAbove⟩

theorem IsWhole.linked (whole : round.IsWhole) {changed : Shape}
    (all : DiscardsAll round.kept round.discarded.reverse shape changed) {upper lower : Nat}
    (links : Linked upper lower changed) : ∃ above below, Linked above below shape ∧
      round.tree.nameOf above = round.tree.nameOf upper ∧
        round.tree.nameOf below = round.tree.nameOf lower := by
  apply all.linked _ links
  intro id listed
  rw [List.mem_reverse, mem_discarded_iff] at listed
  exact (whole.mem_group_iff.mp listed.1).2

end Round

namespace RemovesBy

variable {rounds : List Round}

theorem keepsBest (run : RemovesBy tree rounds final) : ∀ round ∈ rounds, round.KeepsBest := by
  induction run with
  | done => exact nofun
  | round due _ ih =>
      exact List.forall_mem_cons.mpr ⟨(Round.isWhole_of_due due).keepsBest, ih⟩

/-- A run leaves a part of the numbers, and its links have names that were linked. -/
theorem exists_shape (run : RemovesBy tree rounds final) (has : tree.HasShape shape) :
    ∃ left, final.HasShape left ∧ left.ids ⊆ shape.ids ∧
      ∀ upper lower, Linked upper lower left → ∃ above below, Linked above below shape ∧
        tree.nameOf above = tree.nameOf upper ∧ tree.nameOf below = tree.nameOf lower := by
  -- Links go back one round at a time, the last one first; entries stay as they are.
  induction run generalizing shape with
  | done =>
      exact ⟨shape, has, List.Subset.refl _,
        fun upper lower links => ⟨upper, lower, links, rfl, rfl⟩⟩
  | @round round _ _ due _ ih =>
      have whole := Round.isWhole_of_due due
      have ready := whole.areDiscardable has
      have same := round.sameEntries_result
      obtain ⟨next, hasNext, all⟩ := whole.exists_shape has
      obtain ⟨left, hasLeft, within, old⟩ := ih hasNext
      refine ⟨left, hasLeft, ?_, ?_⟩
      · intro id stays
        exact ((all.mem_iff ready has.nodup).mp (within stays)).1
      · intro upper lower links
        obtain ⟨middle, inner, linksNext, sameUpper, sameLower⟩ := old upper lower links
        simp only [nameOf_of_sameEntries same] at sameUpper sameLower
        rw [← sameUpper, ← sameLower]
        exact whole.linked all linksNext

end RemovesBy

structure RemovesDuplicates (tree : TypeTree) (rounds : List Round)
    (result : Reported TypeTree) : Prop where
  run : RemovesBy tree rounds result.value
  reports : result.reports = rounds.map Round.report
  wellFormed : result.value.IsWellFormed
  entries : tree.SameEntries result.value
  attached : result.value.attached ⊆ tree.attached
  distinct : result.value.names.Nodup
  links : ∀ parent ∈ result.value.attached, ∀ child ∈ result.value.children parent,
    ∃ upper ∈ tree.attached, ∃ lower ∈ tree.children upper,
      tree.nameOf upper = result.value.nameOf parent ∧
        tree.nameOf lower = result.value.nameOf child
  kept : ∀ round ∈ rounds, round.KeepsBest
  unchanged : tree.names.Nodup → result = pure tree

/-- Duplicate removal comes to an end, and it invents nothing. -/
theorem removesDuplicates (ok : tree.IsWellFormed) :
    ∃ rounds, RemovesDuplicates tree rounds tree.removeDuplicates := by
  have has := ok.hasShape
  obtain ⟨rounds, run, reports⟩ := has.removesBy
  obtain ⟨left, hasLeft, within, links⟩ := run.exists_shape has
  have same := run.sameEntries
  refine ⟨rounds, run, reports, hasLeft.isWellFormed, same, ?_, run.nodup_names, ?_,
    run.keepsBest, ?_⟩
  · rwa [has.attached_eq, hasLeft.attached_eq]
  · intro parent attached child listed
    rw [hasLeft.attached_eq] at attached
    have linked := hasLeft.realizes.linked_iff.mpr ⟨attached, listed⟩
    obtain ⟨upper, lower, old, sameUpper, sameLower⟩ := links parent child linked
    obtain ⟨stood, below⟩ := has.realizes.linked_iff.mp old
    rw [has.attached_eq, nameOf_of_sameEntries same, nameOf_of_sameEntries same]
    exact ⟨upper, stood, lower, below, sameUpper, sameLower⟩
  · intro distinct
    exact removeGroups_of_none (firstGroup?_eq_none_iff.mpr distinct) _

def entryAt (line : Nat) (name : String) (specificity : Specificity) : Entry :=
  { name, place := .file "h.yaml" line 1, specificity }

/-- A class below another one of its name, each with a namesake of what is below it. -/
def namesakes : TypeTree :=
  ofOutline (.node (entryAt 1 "A" .resolved)
    [.node (entryAt 2 "B" .regex)
        [.node (entryAt 3 "A" .qname) [.node (entryAt 4 "B" .qname) []]],
      .node (entryAt 5 "B" .resolved) [.node (entryAt 6 "C" .regex) []]])

theorem removesDuplicates_namesakes :
    namesakes.IsWellFormed ∧
      ∃ rounds, RemovesDuplicates namesakes rounds namesakes.removeDuplicates :=
  have ok := (hasShape_ofOutline _).isWellFormed
  ⟨ok, removesDuplicates ok⟩

/-! ### What was announced as kept -/

/-- No other node that is reached has the name of this one. -/
def IsAlone (tree : TypeTree) (id : Nat) : Prop :=
  ∀ other ∈ tree.attached, tree.nameOf other = tree.nameOf id → other = id

namespace Round

variable {round : Round} {id : Nat}

theorem IsWhole.kept_attached (whole : round.IsWhole) (has : round.tree.HasShape shape) :
    round.kept ∈ round.result.attached ∧ round.result.IsAlone round.kept := by
  have same := round.sameEntries_result
  have ready := whole.areDiscardable has
  obtain ⟨changed, hasChanged, all⟩ := whole.exists_shape has
  have unlisted : round.kept ∉ round.discarded := fun listed =>
    (mem_discarded_iff.mp listed).2 rfl
  rw [IsAlone, hasChanged.attached_eq]
  refine ⟨?_, ?_⟩
  · rw [whole.mem_result_iff has all]
    exact ⟨ready.kept_mem, unlisted, fun ⟨_, _, above, notAbove⟩ => notAbove above⟩
  · intro other left named
    rw [nameOf_of_sameEntries same, nameOf_of_sameEntries same] at named
    rw [whole.mem_result_iff has all, ← has.attached_eq] at left
    by_contra ne
    exact left.2.1 (mem_discarded_iff.mpr ⟨whole.mem_group_iff.mpr ⟨left.1, named⟩, ne⟩)

theorem IsWhole.isAlone_result (whole : round.IsWhole) (has : round.tree.HasShape shape)
    (alone : round.tree.IsAlone id) : round.result.IsAlone id := by
  have same := round.sameEntries_result
  obtain ⟨changed, hasChanged, all⟩ := whole.exists_shape has
  intro other left named
  rw [nameOf_of_sameEntries same, nameOf_of_sameEntries same] at named
  rw [hasChanged.attached_eq, whole.mem_result_iff has all, ← has.attached_eq] at left
  exact alone other left.1 named

theorem IsWhole.mem_attached_iff (whole : round.IsWhole) (has : round.tree.HasShape shape)
    (attached : id ∈ round.tree.attached) (alone : round.tree.IsAlone id) :
    id ∈ round.result.attached ↔ ¬ round.TakesAlong id := by
  obtain ⟨changed, hasChanged, all⟩ := whole.exists_shape has
  have unlisted : id ∉ round.discarded := by
    intro listed
    obtain ⟨inGroup, ne⟩ := mem_discarded_iff.mp listed
    have named := (whole.mem_group_iff.mp inGroup).2
    have keptAttached := (whole.mem_group_iff.mp round.kept_mem).1
    exact ne (alone round.kept keptAttached named.symm).symm
  rw [hasChanged.attached_eq, whole.mem_result_iff has all, ← has.attached_eq]
  exact ⟨fun stays => stays.2.2, fun notTaken => ⟨attached, unlisted, notTaken⟩⟩

end Round

namespace RemovesBy

variable {earlier later rounds : List Round} {round : Round} {id : Nat}

theorem attached_subset (run : RemovesBy tree rounds final) (has : tree.HasShape shape) :
    final.attached ⊆ tree.attached := by
  obtain ⟨left, hasLeft, within, _⟩ := run.exists_shape has
  rwa [has.attached_eq, hasLeft.attached_eq]

theorem split (run : RemovesBy tree (earlier ++ round :: later) final)
    (has : tree.HasShape shape) : ∃ reached, round.tree.HasShape reached ∧ round.IsWhole ∧
      RemovesBy round.result later final := by
  induction earlier generalizing tree shape with
  | nil =>
      cases run with
      | round due rest => exact ⟨shape, has, Round.isWhole_of_due due, rest⟩
  | cons first earlier ih =>
      cases run with
      | round due rest =>
          obtain ⟨next, hasNext, _⟩ := (Round.isWhole_of_due due).exists_shape has
          exact ih rest hasNext

theorem mem_attached_iff (run : RemovesBy tree rounds final) (has : tree.HasShape shape)
    (attached : id ∈ tree.attached) (alone : tree.IsAlone id) :
    id ∈ final.attached ↔ ∀ next ∈ rounds, ¬ next.TakesAlong id := by
  -- A node that has its name alone is in no later group, so it can only be taken along.
  induction run generalizing shape with
  | done => simpa using attached
  | @round round later final due rest ih =>
      have whole := Round.isWhole_of_due due
      obtain ⟨next, hasNext, _⟩ := whole.exists_shape has
      rw [List.forall_mem_cons, ← whole.mem_attached_iff has attached alone]
      have goesOn := fun left => ih hasNext left (whole.isAlone_result has alone)
      constructor
      · intro stays
        have left := rest.attached_subset hasNext stays
        exact ⟨left, (goesOn left).mp stays⟩
      · intro ⟨left, spared⟩
        exact (goesOn left).mpr spared

/-- Once its round is over, a kept node has its name alone. So the name goes with it. -/
theorem keptName_mem_iff (run : RemovesBy round.result rounds final)
    (has : round.result.HasShape shape) (alone : round.result.IsAlone round.kept) :
    round.tree.nameOf round.kept ∈ final.names ↔ round.kept ∈ final.attached := by
  have same := round.sameEntries_result.trans run.sameEntries
  rw [← nameOf_of_sameEntries same, names, List.mem_map]
  constructor
  · intro listed
    obtain ⟨other, stays, named⟩ := listed
    rw [nameOf_of_sameEntries run.sameEntries, nameOf_of_sameEntries run.sameEntries] at named
    rwa [← alone other (run.attached_subset has stays) named]
  · intro stays
    exact ⟨round.kept, stays, rfl⟩

end RemovesBy

/-- What becomes of the node that a round keeps, and of its name. -/
structure SurvivesUnlessTaken (final : TypeTree) (round : Round) (later : List Round) : Prop where
  attached : round.kept ∈ final.attached ↔ ∀ next ∈ later, ¬ next.TakesAlong round.kept
  named : round.tree.nameOf round.kept ∈ final.names ↔ round.kept ∈ final.attached

/-- A node that was announced as kept is in the tree at the end if and only if no later round gives
up a node above it, except for nodes above the one that it keeps itself. -/
theorem announced_survives_iff (ok : tree.IsWellFormed) :
    ∃ rounds, RemovesBy tree rounds tree.removeDuplicates.value ∧
      tree.removeDuplicates.reports = rounds.map Round.report ∧
      ∀ earlier round later, rounds = earlier ++ round :: later →
        SurvivesUnlessTaken tree.removeDuplicates.value round later := by
  obtain ⟨rounds, run, reports⟩ := ok.hasShape.removesBy
  refine ⟨rounds, run, reports, ?_⟩
  intro earlier round later split
  rw [split] at run
  obtain ⟨reached, has, whole, rest⟩ := run.split ok.hasShape
  obtain ⟨next, hasNext, _⟩ := whole.exists_shape has
  obtain ⟨stays, alone⟩ := whole.kept_attached has
  exact ⟨rest.mem_attached_iff hasNext stays alone, rest.keptName_mem_iff hasNext alone⟩

/-- The class `A` is kept below the first `B`, and the second `B` is kept instead of that one. -/
def takenAlong : TypeTree :=
  ofOutline (.node (entryAt 1 "Node" .root)
    [.node (entryAt 2 "A" .resolved) [],
      .node (entryAt 3 "B" .resolved) [.node (entryAt 4 "A" .quoted) []],
      .node (entryAt 5 "B" .quoted) []])

theorem announced_survives_iff_takenAlong :
    takenAlong.IsWellFormed ∧
      ∃ rounds, RemovesBy takenAlong rounds takenAlong.removeDuplicates.value ∧
        takenAlong.removeDuplicates.reports = rounds.map Round.report ∧
        ∀ earlier round later, rounds = earlier ++ round :: later →
          SurvivesUnlessTaken takenAlong.removeDuplicates.value round later :=
  have ok := (hasShape_ofOutline _).isWellFormed
  ⟨ok, announced_survives_iff ok⟩

theorem not_announced_survives :
    takenAlong.IsWellFormed ∧
      takenAlong.removeDuplicates.reports.map Report.message =
        ["Duplicate entries for A, keeping the one at h.yaml:4:1",
          "Duplicate entries for B, keeping the one at h.yaml:5:1"] ∧
      takenAlong.removeDuplicates.value.names = ["Node", "B"] := by
  refine ⟨(hasShape_ofOutline _).isWellFormed, ?_, ?_⟩
  · cbv
  · cbv

end NodeWeave.Hierarchy.TypeTree
