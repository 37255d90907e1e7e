import NodeWeave.Proofs.Hierarchy.Distinct
import NodeWeave.Proofs.Hierarchy.Hanging

/-!
Duplicate removal with and without leaves behind a tree that are less specific than all nodes of it.
Main statement: the two runs end with the same tree, up to some of the leaves.
-/

namespace NodeWeave.Hierarchy.TypeTree

open Shape

variable {tree other final : TypeTree} {leaves : List Nat} {shape : Shape} {name : String}

/-! ### The kept node -/

/-- Nothing is preferred to a node if nothing is more specific. -/
theorem mostSpecific_of_le {first : Nat} {others : List Nat}
    (most : ∀ id ∈ others, tree.specificityOf id ≤ tree.specificityOf first) :
    tree.mostSpecific first others = first := by
  induction others with
  | nil => rfl
  | cons id rest ih =>
      have notLess : ¬ tree.specificityOf first < tree.specificityOf id :=
        Nat.not_lt.mpr (most id List.mem_cons_self)
      rw [mostSpecific_cons, if_neg notLess]
      exact ih fun id listed => most id (List.mem_cons_of_mem _ listed)

theorem mostSpecific_append (tree : TypeTree) (first : Nat) (others more : List Nat) :
    tree.mostSpecific first (others ++ more) =
      tree.mostSpecific (tree.mostSpecific first others) more :=
  List.foldl_append

theorem mostSpecific_congr {first : Nat} {others : List Nat}
    (same : ∀ id ∈ first :: others, other.specificityOf id = tree.specificityOf id) :
    other.mostSpecific first others = tree.mostSpecific first others := by
  induction others generalizing first with
  | nil => rfl
  | cons id rest ih =>
      rw [mostSpecific_cons, mostSpecific_cons, same first List.mem_cons_self,
        same id (List.mem_cons_of_mem _ List.mem_cons_self)]
      refine ih fun number listed => ?_
      grind

/-! ### The first group -/

theorem firstGroup?_eq_map (tree : TypeTree) : tree.firstGroup? =
    (tree.attached.find? fun id => 1 < (tree.group (tree.nameOf id)).length).map fun id =>
      tree.group (tree.nameOf id) :=
  List.find?_map

/-- The first one that meets a condition is the first one that meets a stronger condition, if it
does so. -/
theorem find?_eq_some_of_imp {α : Type} {weak strong : α → Bool} {items : List α} {item : α}
    (found : items.find? weak = some item) (holds : strong item = true)
    (implies : ∀ x ∈ items, strong x = true → weak x = true) : items.find? strong = some item := by
  obtain ⟨_, before, after, same, earlier⟩ := List.find?_eq_some_iff_append.mp found
  refine List.find?_eq_some_iff_append.mpr ⟨holds, before, after, same, fun x mem => ?_⟩
  have listed : x ∈ items := same ▸ List.mem_append_left _ mem
  have fails := earlier x mem
  cases strict : strong x with
  | false => rfl
  | true => simp [implies x listed strict] at fails

/-! ### Trees with trailing leaves -/

/-- Leaves below the root, behind a tree whose nodes are all at least as specific. -/
structure TrailedBy (tree : TypeTree) (leaves : List Nat) (other : TypeTree) : Prop
    extends tree.HungWith leaves other where
  weak : ∀ leaf ∈ leaves, ∀ id ∈ tree.attached, other.specificityOf leaf ≤ tree.specificityOf id

namespace TrailedBy

theorem specificityOf_eq (trailed : tree.TrailedBy leaves other) (has : tree.HasShape shape)
    {id : Nat} (attached : id ∈ tree.attached) :
    other.specificityOf id = tree.specificityOf id := by
  rw [has.attached_eq] at attached
  rw [specificityOf, specificityOf, trailed.entryAt?_eq (has.realizes.lt_length attached)]

theorem nameOf_eq (trailed : tree.TrailedBy leaves other) (has : tree.HasShape shape) {id : Nat}
    (attached : id ∈ tree.attached) : other.nameOf id = tree.nameOf id := by
  rw [has.attached_eq] at attached
  rw [nameOf, nameOf, trailed.entryAt?_eq (has.realizes.lt_length attached)]

theorem group_eq (trailed : tree.TrailedBy leaves other) (has : tree.HasShape shape)
    (name : String) :
    other.group name = tree.group name ++ leaves.filter fun leaf => other.nameOf leaf == name := by
  rw [group, trailed.attached_eq has, List.filter_append, group]
  congr 1
  exact List.filter_congr fun id attached => by rw [trailed.nameOf_eq has attached]

theorem names_eq (trailed : tree.TrailedBy leaves other) (has : tree.HasShape shape) :
    other.names = tree.names ++ leaves.map other.nameOf := by
  rw [names, trailed.attached_eq has, List.map_append, names]
  congr 1
  exact List.map_congr_left fun id attached => trailed.nameOf_eq has attached

/-- The first group of the longer tree is that of the shorter one, if it is one there. -/
theorem firstGroup?_eq (trailed : tree.TrailedBy leaves other) (has : tree.HasShape shape)
    (found : other.firstGroup? = some (other.group name)) (several : 1 < (tree.group name).length) :
    tree.firstGroup? = some (tree.group name) := by
  have longer : ∀ id ∈ tree.attached, 1 < (tree.group (tree.nameOf id)).length →
      1 < (other.group (other.nameOf id)).length := by
    intro id attached more
    rw [trailed.nameOf_eq has attached, trailed.group_eq has, List.length_append]
    omega
  obtain ⟨member, grouped⟩ := List.exists_mem_of_length_pos (Nat.lt_of_succ_lt several)
  obtain ⟨attachedMember, named⟩ := List.mem_filter.mp grouped
  rw [beq_iff_eq] at named
  rw [firstGroup?_eq_map, Option.map_eq_some_iff, trailed.attached_eq has,
    List.find?_append] at found
  obtain ⟨id, first, same⟩ := found
  cases among : tree.attached.find? fun id => 1 < (other.group (other.nameOf id)).length with
  | none =>
      have fails := List.find?_eq_none.mp among member attachedMember
      rw [decide_eq_true_eq] at fails
      exact absurd (longer member attachedMember (named ▸ several)) fails
  | some found =>
      rw [among, Option.some_or, Option.some.injEq] at first
      subst first
      have attached := List.mem_of_find?_eq_some among
      have own : found ∈ other.group (other.nameOf found) := by
        rw [group, trailed.attached_eq has, List.mem_filter]
        exact ⟨List.mem_append_left _ attached, beq_self_eq_true _⟩
      rw [same, group, List.mem_filter, beq_iff_eq, trailed.nameOf_eq has attached] at own
      rw [firstGroup?_eq_map, Option.map_eq_some_iff]
      refine ⟨found, find?_eq_some_of_imp among ?_ ?_, by rw [own.2]⟩
      · rw [own.2]
        exact decide_eq_true several
      · intro id listed more
        exact decide_eq_true (longer id listed (of_decide_eq_true more))

/-! ### Rounds -/

theorem of_hungWith {next nextOther : TypeTree} {left : List Nat}
    (trailed : tree.TrailedBy leaves other) (hung : next.HungWith left nextOther)
    (part : left.Sublist leaves) (same : tree.SameEntries next)
    (sameOther : other.SameEntries nextOther) (fewer : next.attached ⊆ tree.attached) :
    next.TrailedBy left nextOther := by
  refine ⟨hung, fun leaf listed id attached => ?_⟩
  rw [specificityOf_of_sameEntries sameOther, specificityOf_of_sameEntries same]
  exact trailed.weak leaf (part.subset listed) id (fewer attached)

section

variable {round : Round}

/-- A round for a name that only leaves have gives up some of them. -/
theorem exists_result_of_nil (trailed : tree.TrailedBy leaves round.tree)
    (has : tree.HasShape shape) (whole : round.group = round.tree.group name)
    (grouped : tree.group name = []) :
    ∃ left, left.Sublist leaves ∧ tree.HungWith left round.result := by
  rw [trailed.group_eq has, grouped, List.nil_append] at whole
  have listed : round.group.Sublist leaves := whole ▸ List.filter_sublist
  refine trailed.discardAll_leaves has ?_ ?_ ?_ ?_
  · rw [trailed.attached_eq has]
    exact List.mem_append_right _ (listed.subset round.kept_mem)
  · rw [List.mem_reverse, Round.mem_discarded_iff]
    exact fun given => given.2 rfl
  · exact (List.reverse_perm _).nodup_iff.mpr
      (trailed.nodup.sublist (List.filter_sublist.trans listed))
  · intro id given
    rw [List.mem_reverse, Round.mem_discarded_iff] at given
    exact listed.subset given.1

/-- A round for a name that the tree has gives up the leaves with this name, and does with the tree
what is done without them. -/
theorem exists_result_of_cons (trailed : tree.TrailedBy leaves round.tree)
    (has : tree.HasShape shape) (root : tree.specificityOf shape.top = .root)
    (whole : round.group = round.tree.group name) {first : Nat} {others : List Nat}
    (grouped : tree.group name = first :: others) :
    ∃ left, left.Sublist leaves ∧
      (Round.mk tree first others).result.HungWith left round.result := by
  have wholeShort : (Round.mk tree first others).IsWhole := ⟨name, grouped.symm⟩
  have inTree : ∀ id ∈ first :: others, id ∈ tree.attached := wholeShort.sublist.subset
  rw [trailed.group_eq has, grouped, List.cons_append] at whole
  generalize added : leaves.filter (fun leaf => round.tree.nameOf leaf == name) = named at whole
  have listed : named.Sublist leaves := added ▸ List.filter_sublist
  obtain ⟨sameFirst, sameOthers⟩ := List.cons.inj whole
  have keptMem := (Round.mk tree first others).kept_mem
  have kept : round.kept = (Round.mk tree first others).kept := by
    rw [Round.kept, sameFirst, sameOthers, mostSpecific_append,
      mostSpecific_congr fun id mem => trailed.specificityOf_eq has (inTree id mem)]
    refine mostSpecific_of_le fun leaf mem => ?_
    have strong := trailed.weak leaf (listed.subset mem) _ (inTree _ keptMem)
    rwa [← trailed.specificityOf_eq has (inTree _ keptMem)] at strong
  have attached : round.kept ∈ tree.attached := kept ▸ inTree _ keptMem
  have noLeaf : round.kept ∉ named := by
    rw [has.attached_eq] at attached
    exact fun mem => trailed.not_mem (has.realizes.lt_length attached) (listed.subset mem)
  have discarded : round.discarded = (Round.mk tree first others).discarded ++ named := by
    rw [Round.discarded, whole, ← List.cons_append, List.filter_append, kept]
    refine congrArg _ (List.filter_eq_self.mpr fun leaf mem => bne_iff_ne.mpr ?_)
    rintro rfl
    exact noLeaf (kept ▸ mem)
  have attachedToo : round.kept ∈ round.tree.attached := by
    rw [trailed.attached_eq has]
    exact List.mem_append_left _ attached
  have nodup : named.reverse.Nodup :=
    (List.reverse_perm _).nodup_iff.mpr (trailed.nodup.sublist listed)
  obtain ⟨left, part, hung⟩ := trailed.discardAll_leaves has attachedToo
    (by rwa [List.mem_reverse]) nodup fun id mem => listed.subset (List.mem_reverse.mp mem)
  refine ⟨left, part, ?_⟩
  rw [Round.result, Round.result, discarded, List.reverse_append, List.foldl_append]
  rw [kept] at hung ⊢
  exact hung.discardAll has (wholeShort.areDiscardable has) fun mem =>
    wholeShort.top_not_mem has root (List.mem_reverse.mp mem)

end

end TrailedBy

/-! ### Runs -/

theorem Round.result_singleton (tree : TypeTree) (id : Nat) :
    (Round.mk tree id []).result = tree := by
  simp [Round.result, Round.discarded, Round.group, Round.kept, mostSpecific]

/-- What is left after a round of the run with leaves: the run without them has made the same round,
or none. -/
theorem TrailedBy.exists_next {round : Round} {rounds : List Round}
    (trailed : tree.TrailedBy leaves round.tree) (has : tree.HasShape shape)
    (root : tree.specificityOf shape.top = .root) (run : RemovesBy tree rounds final)
    (due : round.tree.firstGroup? = some round.group) :
    ∃ left next nextShape later, left.Sublist leaves ∧ next.TrailedBy left round.result ∧
      next.HasShape nextShape ∧ next.specificityOf nextShape.top = .root ∧
      RemovesBy next later final := by
  obtain ⟨_, name, whole⟩ := exists_of_firstGroup? due
  have sameOther := round.sameEntries_result
  cases grouped : tree.group name with
  | nil =>
      obtain ⟨left, part, hung⟩ := trailed.exists_result_of_nil has whole grouped
      exact ⟨left, tree, shape, rounds, part,
        trailed.of_hungWith hung part (.refl tree) sameOther (List.Subset.refl _), has, root, run⟩
  | cons first others =>
      obtain ⟨left, part, hung⟩ := trailed.exists_result_of_cons has root whole grouped
      cases others with
      | nil =>
          rw [Round.result_singleton] at hung
          exact ⟨left, tree, shape, rounds, part,
            trailed.of_hungWith hung part (.refl tree) sameOther (List.Subset.refl _), has, root,
            run⟩
      | cons second others =>
          have dueShort := trailed.firstGroup?_eq has (whole ▸ due) (by simp [grouped])
          rw [grouped] at dueShort
          cases run with
          | done distinct => simp [distinct] at dueShort
          | @round short later _ dueAlso rest =>
              rw [dueAlso, Option.some.injEq] at dueShort
              obtain ⟨rfl, sameOthers⟩ := List.cons.inj dueShort
              rw [← sameOthers] at hung
              have wholeShort := Round.isWhole_of_due dueAlso
              have same := short.sameEntries_result
              obtain ⟨changed, hasNext, all⟩ := wholeShort.exists_shape has
              have noTop : shape.top ∉ short.discarded.reverse := fun mem =>
                wholeShort.top_not_mem has root (List.mem_reverse.mp mem)
              have fewer : short.result.attached ⊆ short.tree.attached := by
                rw [hasNext.attached_eq, has.attached_eq]
                exact fun id mem =>
                  ((all.mem_iff (wholeShort.areDiscardable has) has.nodup).mp mem).1
              refine ⟨left, short.result, changed, later, part,
                trailed.of_hungWith hung part same sameOther fewer, hasNext, ?_, rest⟩
              rw [specificityOf_of_sameEntries same, all.top_eq noTop, root]

/-- The two runs end with the same tree, up to some of the leaves. -/
theorem TrailedBy.removesBy {finalOther : TypeTree} {rounds roundsOther : List Round}
    (trailed : tree.TrailedBy leaves other) (has : tree.HasShape shape)
    (root : tree.specificityOf shape.top = .root)
    (run : RemovesBy tree rounds final) (runOther : RemovesBy other roundsOther finalOther) :
    ∃ left, left.Sublist leaves ∧ final.TrailedBy left finalOther := by
  -- The induction is on the run with leaves, which makes all the rounds of the other one.
  induction runOther generalizing tree rounds leaves shape with
  | done distinct =>
      rw [firstGroup?_eq_none_iff, trailed.names_eq has, List.nodup_append] at distinct
      cases run with
      | done => exact ⟨leaves, .refl _, trailed⟩
      | round due => exact absurd (firstGroup?_eq_none_iff.mpr distinct.1) (by simp [due])
  | round due _ ih =>
      obtain ⟨left, next, nextShape, later, part, trailedNext, hasNext, rootNext, rest⟩ :=
        trailed.exists_next has root run due
      obtain ⟨leftFinal, partFinal, trailedFinal⟩ := ih trailedNext hasNext rootNext rest
      exact ⟨leftFinal, partFinal.trans part, trailedFinal⟩

theorem TrailedBy.removeDuplicates (trailed : tree.TrailedBy leaves other)
    (has : tree.HasShape shape) (root : tree.specificityOf shape.top = .root) :
    ∃ left, left.Sublist leaves ∧
      tree.removeDuplicates.value.TrailedBy left other.removeDuplicates.value := by
  obtain ⟨rounds, run, _⟩ := has.removesBy
  cases shape with
  | node top below =>
      obtain ⟨roundsOther, runOther, _⟩ := (trailed.hasShape has).removesBy
      exact trailed.removesBy has root run runOther

end NodeWeave.Hierarchy.TypeTree
