import Mathlib.Tactic.ByContra
import NodeWeave.Hierarchy.Adoption
import NodeWeave.Proofs.Hierarchy.Discarding

/-!
Duplicate removal as a run of rounds. Main statement: such a run comes to its end, and its end and
its reports are those of `removeDuplicates`.
-/

namespace NodeWeave.Hierarchy.TypeTree

open Shape

variable {tree final : TypeTree} {shape : Shape}

/-! ### Entries -/

theorem sameEntries_discard (tree : TypeTree) (kept id : Nat) :
    tree.SameEntries (tree.discard kept id) := by
  unfold discard
  split
  · exact tree.sameEntries_takePlaceOf kept id
  · exact tree.sameEntries_detach id

theorem sameEntries_foldl_discard (tree : TypeTree) (kept : Nat) (discarded : List Nat) :
    tree.SameEntries (discarded.foldl (discard kept) tree) := by
  induction discarded generalizing tree with
  | nil => exact .refl tree
  | cons id rest ih => exact (tree.sameEntries_discard kept id).trans (ih _)

theorem sameEntries_keepOne (tree : TypeTree) (group : List Nat) :
    tree.SameEntries (tree.keepOne group).value := by
  cases group with
  | nil => exact .refl tree
  | cons first others => exact tree.sameEntries_foldl_discard _ _

theorem specificityOf_of_sameEntries {other : TypeTree} (same : tree.SameEntries other) (id : Nat) :
    other.specificityOf id = tree.specificityOf id := by
  rw [specificityOf, specificityOf, same]

theorem nameOf_of_sameEntries {other : TypeTree} (same : tree.SameEntries other) (id : Nat) :
    other.nameOf id = tree.nameOf id := by
  rw [nameOf, nameOf, same]

/-! ### The kept node -/

theorem mostSpecific_cons (tree : TypeTree) (first id : Nat) (rest : List Nat) :
    tree.mostSpecific first (id :: rest) =
      tree.mostSpecific
        (if tree.specificityOf first < tree.specificityOf id then id else first) rest := rfl

theorem mostSpecific_mem (tree : TypeTree) (first : Nat) (others : List Nat) :
    tree.mostSpecific first others ∈ first :: others := by
  induction others generalizing first with
  | nil => exact List.mem_cons_self
  | cons id rest ih =>
      have kept := ih (if tree.specificityOf first < tree.specificityOf id then id else first)
      rw [mostSpecific_cons]
      grind

/-- Nothing is more specific than the kept node, and nothing in front of it is as specific. -/
theorem mostSpecific_first (tree : TypeTree) (first : Nat) (others : List Nat) :
    (∀ id ∈ first :: others,
      (tree.specificityOf id).rank ≤ (tree.specificityOf (tree.mostSpecific first others)).rank) ∧
    (first :: others).find? (fun id =>
      tree.specificityOf id == tree.specificityOf (tree.mostSpecific first others)) =
        some (tree.mostSpecific first others) := by
  induction others generalizing first with
  | nil => simp [mostSpecific]
  | cons id rest ih =>
      rw [mostSpecific_cons]
      split
      · next less =>
          obtain ⟨most, found⟩ := ih id
          have top := most id List.mem_cons_self
          have ne : tree.specificityOf first ≠
              tree.specificityOf (tree.mostSpecific id rest) := by
            intro same
            rw [← same] at top
            exact Nat.not_lt.mpr top less
          refine ⟨?_, ?_⟩
          · intro other mem
            rcases List.mem_cons.mp mem with rfl | later
            · exact Nat.le_trans (Nat.le_of_lt less) top
            · exact most other later
          · rw [List.find?_cons_of_neg (by simpa using ne)]
            exact found
      · next notLess =>
          obtain ⟨most, found⟩ := ih first
          have atMost : (tree.specificityOf id).rank ≤ (tree.specificityOf first).rank :=
            Nat.le_of_not_lt notLess
          have top := most first List.mem_cons_self
          refine ⟨?_, ?_⟩
          · intro other mem
            rcases List.mem_cons.mp mem with rfl | later
            · exact top
            · rcases List.mem_cons.mp later with rfl | last
              · exact Nat.le_trans atMost top
              · exact most other (List.mem_cons_of_mem _ last)
          · by_cases same : tree.specificityOf first =
                tree.specificityOf (tree.mostSpecific first rest)
            · rw [List.find?_cons_of_pos (by simpa using same)] at found ⊢
              exact found
            · rw [List.find?_cons_of_neg (by simpa using same)] at found ⊢
              have ne : tree.specificityOf id ≠
                  tree.specificityOf (tree.mostSpecific first rest) := by
                intro equal
                rw [equal] at atMost
                exact same (Specificity.rank_injective (Nat.le_antisymm top atMost))
              rw [List.find?_cons_of_neg (by simpa using ne)]
              exact found

/-! ### Groups -/

/-- The nodes with a name that are reached from the root. -/
def group (tree : TypeTree) (name : String) : List Nat :=
  tree.attached.filter fun id => tree.nameOf id == name

theorem exists_of_firstGroup? {group : List Nat} (found : tree.firstGroup? = some group) :
    1 < group.length ∧ ∃ name, group = tree.group name := by
  obtain ⟨id, _, rfl⟩ := List.mem_map.mp (List.mem_of_find?_eq_some found)
  exact ⟨by simpa using List.find?_some found, tree.nameOf id, rfl⟩

theorem length_group (tree : TypeTree) (name : String) :
    (tree.group name).length = tree.names.count name := by
  rw [names, List.count, List.countP_map, List.countP_eq_length_filter]
  rfl

theorem firstGroup?_eq_none_iff : tree.firstGroup? = none ↔ tree.names.Nodup := by
  rw [List.nodup_iff_count, firstGroup?]
  constructor
  · intro distinct name
    rw [← length_group]
    apply Nat.le_of_not_lt
    intro several
    obtain ⟨id, mem⟩ := List.exists_mem_of_length_pos (Nat.lt_of_succ_lt several)
    obtain ⟨attached, named⟩ := List.mem_filter.mp mem
    have none := List.find?_eq_none.mp distinct _ (List.mem_map_of_mem attached)
    rw [beq_iff_eq.mp named] at none
    exact none (decide_eq_true several)
  · intro distinct
    apply List.find?_eq_none.mpr
    intro group listed
    obtain ⟨id, _, rfl⟩ := List.mem_map.mp listed
    have atMost := distinct (tree.nameOf id)
    rw [← length_group] at atMost
    simpa [TypeTree.group] using atMost

/-! ### Rounds -/

/-- A round of duplicate removal: the tree that it starts from, and the nodes that have one name
there. -/
structure Round where
  tree : TypeTree
  first : Nat
  others : List Nat

namespace Round

def group (round : Round) : List Nat :=
  round.first :: round.others

def kept (round : Round) : Nat :=
  round.tree.mostSpecific round.first round.others

def discarded (round : Round) : List Nat :=
  round.group.filter (· != round.kept)

def report (round : Round) : Report :=
  round.tree.duplicateReport round.kept round.discarded

def result (round : Round) : TypeTree :=
  round.discarded.reverse.foldl (discard round.kept) round.tree

/-- The nodes of the round are all those in its tree that have one name. -/
def IsWhole (round : Round) : Prop :=
  ∃ name, round.group = round.tree.group name

variable {round : Round}

theorem kept_mem (round : Round) : round.kept ∈ round.group :=
  round.tree.mostSpecific_mem round.first round.others

theorem mem_discarded_iff {id : Nat} :
    id ∈ round.discarded ↔ id ∈ round.group ∧ id ≠ round.kept := by
  rw [discarded, List.mem_filter, bne_iff_ne]

theorem sameEntries_result (round : Round) : round.tree.SameEntries round.result :=
  round.tree.sameEntries_foldl_discard round.kept round.discarded.reverse

theorem IsWhole.sublist (whole : round.IsWhole) : round.group.Sublist round.tree.attached := by
  obtain ⟨name, grouped⟩ := whole
  rw [grouped]
  exact List.filter_sublist

theorem IsWhole.group_eq (whole : round.IsWhole) :
    round.group = round.tree.group (round.tree.nameOf round.kept) := by
  have kept := round.kept_mem
  obtain ⟨name, grouped⟩ := whole
  rw [grouped, TypeTree.group, List.mem_filter, beq_iff_eq] at kept
  rw [grouped, kept.2]

theorem IsWhole.mem_group_iff (whole : round.IsWhole) {id : Nat} : id ∈ round.group ↔
    id ∈ round.tree.attached ∧ round.tree.nameOf id = round.tree.nameOf round.kept := by
  rw [whole.group_eq, TypeTree.group, List.mem_filter, beq_iff_eq]

/-- All nodes that a round does without can be given up, the last one first. -/
theorem IsWhole.areDiscardable (whole : round.IsWhole) (has : round.tree.HasShape shape) :
    AreDiscardable round.kept round.discarded.reverse shape := by
  have ordered := whole.sublist
  rw [has.attached_eq] at ordered
  have inShape : round.discarded.Sublist shape.ids := List.filter_sublist.trans ordered
  refine ⟨ordered.subset round.kept_mem, ?_, List.pairwise_reverse.mpr ?_⟩
  · intro id listed
    rw [List.mem_reverse] at listed
    exact ⟨inShape.subset listed, (mem_discarded_iff.mp listed).2⟩
  · have apart := (List.Pairwise.and has.nodup (pairwise_not_above has.nodup)).sublist inShape
    exact apart.imp fun ⟨differs, notAbove⟩ => ⟨differs.symm, notAbove⟩

theorem IsWhole.exists_shape (whole : round.IsWhole) (has : round.tree.HasShape shape) :
    ∃ changed, round.result.HasShape changed ∧
      DiscardsAll round.kept round.discarded.reverse shape changed :=
  has.discardsAll (whole.areDiscardable has)

theorem IsWhole.exists_discarded (whole : round.IsWhole) (has : round.tree.HasShape shape)
    (several : 1 < round.group.length) : ∃ id, id ∈ round.discarded := by
  have ordered := whole.sublist
  rw [has.attached_eq] at ordered
  by_contra none
  have alone : round.group ⊆ [round.kept] := by
    intro id mem
    by_contra ne
    exact none ⟨id, mem_discarded_iff.mpr ⟨mem, by simpa using ne⟩⟩
  have := (has.nodup.sublist ordered).length_le_of_subset alone
  rw [List.length_singleton] at this
  omega

theorem IsWhole.length_lt (whole : round.IsWhole) (has : round.tree.HasShape shape)
    (several : 1 < round.group.length) {changed : Shape}
    (all : DiscardsAll round.kept round.discarded.reverse shape changed) :
    changed.ids.length < shape.ids.length := by
  have ready := whole.areDiscardable has
  obtain ⟨id, listed⟩ := whole.exists_discarded has several
  have smaller : changed.ids ⊆ shape.ids.erase id := by
    intro number left
    obtain ⟨mem, unlisted, _⟩ := (all.mem_iff ready has.nodup).mp left
    have ne : number ≠ id := by
      rintro rfl
      exact unlisted (List.mem_reverse.mpr listed)
    exact (List.mem_erase_of_ne ne).mpr mem
  have mem := (ready.mem id (List.mem_reverse.mpr listed)).1
  have := (all.nodup has.nodup).length_le_of_subset smaller
  have := List.length_erase_of_mem mem
  have := List.length_pos_of_mem mem
  omega

end Round

/-! ### Runs -/

/-- Rounds of duplicate removal from a tree to the one in which no name stands twice. -/
inductive RemovesBy : TypeTree → List Round → TypeTree → Prop where
  | done {tree : TypeTree} (distinct : tree.firstGroup? = none) : RemovesBy tree [] tree
  | round {round : Round} {later : List Round} {final : TypeTree}
      (due : round.tree.firstGroup? = some round.group)
      (rest : RemovesBy round.result later final) : RemovesBy round.tree (round :: later) final

theorem Round.isWhole_of_due {round : Round} (due : round.tree.firstGroup? = some round.group) :
    round.IsWhole :=
  (exists_of_firstGroup? due).2

/-- Rounds end when there are as many as nodes at most. -/
theorem HasShape.exists_rounds (has : tree.HasShape shape) {bound : Nat}
    (enough : shape.ids.length ≤ bound) :
    ∃ rounds, RemovesBy tree rounds (removeGroups bound tree).value ∧
      (removeGroups bound tree).reports = rounds.map Round.report := by
  -- Each round takes a node out of the shape, so the bound is never met with a group left.
  induction bound generalizing tree shape with
  | zero =>
      have := shape.height_lt_length_ids
      omega
  | succ bound ih =>
      rw [removeGroups]
      cases found : tree.firstGroup? with
      | none => exact ⟨[], .done found, rfl⟩
      | some group =>
          obtain ⟨several, _⟩ := exists_of_firstGroup? found
          cases group with
          | nil => simp at several
          | cons first others =>
              have whole : (Round.mk tree first others).IsWhole := Round.isWhole_of_due found
              obtain ⟨changed, hasChanged, all⟩ := whole.exists_shape has
              have fewer := whole.length_lt has several all
              obtain ⟨rounds, run, reports⟩ := ih hasChanged (by omega)
              exact ⟨⟨tree, first, others⟩ :: rounds, .round found run,
                congrArg (List.cons _) reports⟩

theorem HasShape.removesBy (has : tree.HasShape shape) :
    ∃ rounds, RemovesBy tree rounds tree.removeDuplicates.value ∧
      tree.removeDuplicates.reports = rounds.map Round.report :=
  has.exists_rounds has.length_ids_le

namespace RemovesBy

variable {rounds : List Round}

theorem nodup_names (run : RemovesBy tree rounds final) : final.names.Nodup := by
  induction run with
  | done distinct => exact firstGroup?_eq_none_iff.mp distinct
  | round _ _ ih => exact ih

theorem sameEntries (run : RemovesBy tree rounds final) : tree.SameEntries final := by
  induction run with
  | done => exact .refl _
  | round _ _ ih => exact (Round.sameEntries_result _).trans ih

end RemovesBy

end NodeWeave.Hierarchy.TypeTree
