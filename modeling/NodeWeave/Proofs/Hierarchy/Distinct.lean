import NodeWeave.Proofs.Hierarchy.Rounds

/-! Duplicate removal ends with one node for each class and leaves the root in its place. -/

namespace NodeWeave.Hierarchy.TypeTree

open Shape

variable {tree final : TypeTree} {shape : Shape}

theorem mostSpecific_of_root {first : Nat} (root : tree.specificityOf first = .root)
    (others : List Nat) : tree.mostSpecific first others = first := by
  induction others with
  | nil => rfl
  | cons id rest ih =>
      have notAbove : ¬ tree.specificityOf first < tree.specificityOf id := by
        rw [root]
        exact Nat.not_lt.mpr (Specificity.le_root _)
      rw [mostSpecific_cons, if_neg notAbove]
      exact ih

/-- A round does not do without the root: in its group it would come first. -/
theorem Round.IsWhole.top_not_mem {round : Round} (whole : round.IsWhole)
    (has : round.tree.HasShape shape) (root : round.tree.specificityOf shape.top = .root) :
    shape.top ∉ round.discarded := by
  intro listed
  obtain ⟨inGroup, ne⟩ := mem_discarded_iff.mp listed
  have first : round.first = shape.top := by
    obtain ⟨name, grouped⟩ := whole
    have named := inGroup
    rw [grouped, TypeTree.group, List.mem_filter] at named
    rw [group, TypeTree.group, has.attached_eq] at grouped
    cases shape with
    | node id children =>
        rw [top_node] at named
        rw [ids_node, List.filter_cons, if_pos named.2] at grouped
        exact (List.cons.inj grouped).1
  rw [← first] at root ne
  exact ne (mostSpecific_of_root root _).symm

namespace RemovesBy

variable {rounds : List Round}

theorem exists_shape_of_root (run : RemovesBy tree rounds final) (has : tree.HasShape shape)
    (root : tree.specificityOf shape.top = .root) :
    ∃ left, final.HasShape left ∧ left.top = shape.top := by
  induction run generalizing shape with
  | done => exact ⟨shape, has, rfl⟩
  | @round round _ _ due _ ih =>
      have whole := Round.isWhole_of_due due
      obtain ⟨next, hasNext, all⟩ := whole.exists_shape has
      have top := all.top_eq fun listed =>
        whole.top_not_mem has root (List.mem_reverse.mp listed)
      have rootNext : round.result.specificityOf next.top = .root := by
        rw [specificityOf_of_sameEntries round.sameEntries_result, top, root]
      obtain ⟨left, hasLeft, topLeft⟩ := ih hasNext rootNext
      exact ⟨left, hasLeft, topLeft.trans top⟩

end RemovesBy

/-- Duplicate removal leaves one node for each class, and the root in its place. -/
theorem HasShape.removeDuplicates (has : tree.HasShape shape)
    (root : tree.specificityOf shape.top = .root) :
    ∃ changed, tree.removeDuplicates.value.HasShape changed ∧ changed.top = shape.top ∧
      tree.SameEntries tree.removeDuplicates.value ∧
        tree.removeDuplicates.value.names.Nodup := by
  obtain ⟨rounds, run, _⟩ := has.removesBy
  obtain ⟨changed, hasChanged, top⟩ := run.exists_shape_of_root has root
  exact ⟨changed, hasChanged, top, run.sameEntries, run.nodup_names⟩

end NodeWeave.Hierarchy.TypeTree
