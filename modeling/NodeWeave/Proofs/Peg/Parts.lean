import NodeWeave.Proofs.Peg.Matching

/-!
The parts that a rule leaves, as slots in a row. Where no silent rule is called from one that shows
itself, every tree of a parse fills the slots of its rule, and so do the trees inside it.
-/

namespace NodeWeave.Peg

variable {R : Type}

/-- A place for parts of some rules. -/
inductive Slot (R : Type) where
  | one (rules : List R)
  | optional (rules : List R)
  | many (rules : List R)
  deriving DecidableEq, Repr

/-- The slots of an expression. Where alternatives are not alike, or more than one part is repeated,
nothing is said of the order. -/
def Expr.slots : Expr R → List (Slot R)
  | .seq first second => first.slots ++ second.slots
  | .alt first second =>
      match first.slots, second.slots with
      | [], [] => []
      | [.one rules], [.one others] => [.one (rules ++ others)]
      | _, _ => [.many (first.calls ++ second.calls)]
  | .opt body =>
      match body.slots with
      | [] => []
      | [.one rules] => [.optional rules]
      | _ => [.many body.calls]
  | .star body | .more body =>
      match body.slots with
      | [] => []
      | [.one rules] => [.many rules]
      | _ => [.many body.calls]
  | .rule name => [.one [name]]
  | _ => []

def Fills : List (Slot R) → List (Tree R) → Prop
  | [], trees => trees = []
  | .one rules :: rest, trees =>
      ∃ tree others, trees = tree :: others ∧ tree.rule ∈ rules ∧ Fills rest others
  | .optional rules :: rest, trees =>
      Fills rest trees ∨
        ∃ tree others, trees = tree :: others ∧ tree.rule ∈ rules ∧ Fills rest others
  | .many rules :: rest, trees =>
      ∃ front others, trees = front ++ others ∧ (∀ tree ∈ front, tree.rule ∈ rules) ∧
        Fills rest others

namespace Fills

variable {slots others : List (Slot R)} {trees behind : List (Tree R)} {rules : List R}

theorem append (fills : Fills slots trees) (more : Fills others behind) :
    Fills (slots ++ others) (trees ++ behind) := by
  induction slots generalizing trees with
  | nil =>
      cases fills
      exact more
  | cons slot rest ih =>
      cases slot with
      | one rules =>
          obtain ⟨tree, later, rfl, mem, fills⟩ := fills
          exact ⟨tree, later ++ behind, rfl, mem, ih fills⟩
      | optional rules =>
          rcases fills with fills | ⟨tree, later, rfl, mem, fills⟩
          · exact .inl (ih fills)
          · exact .inr ⟨tree, later ++ behind, rfl, mem, ih fills⟩
      | many rules =>
          obtain ⟨front, later, rfl, all, fills⟩ := fills
          exact ⟨front, later ++ behind, List.append_assoc .., all, ih fills⟩

theorem single {tree : Tree R} (mem : tree.rule ∈ rules) : Fills [.one rules] [tree] :=
  ⟨tree, [], rfl, mem, rfl⟩

theorem exists_single (fills : Fills [.one rules] trees) :
    ∃ tree, trees = [tree] ∧ tree.rule ∈ rules := by
  obtain ⟨tree, _, rfl, mem, rfl⟩ := fills
  exact ⟨tree, rfl, mem⟩

theorem exists_mem (fills : Fills slots trees) (asked : .one rules ∈ slots) :
    ∃ tree ∈ trees, tree.rule ∈ rules := by
  induction slots generalizing trees with
  | nil => cases asked
  | cons slot rest ih =>
      cases slot with
      | one others =>
          obtain ⟨first, later, rfl, mem, fills⟩ := fills
          cases asked with
          | head => exact ⟨first, List.mem_cons_self, mem⟩
          | tail _ asked =>
              exact (ih fills asked).imp fun _ => .imp_left (List.mem_cons_of_mem _)
      | optional others =>
          cases asked with
          | tail _ asked =>
              rcases fills with fills | ⟨first, later, rfl, -, fills⟩
              · exact ih fills asked
              · exact (ih fills asked).imp fun _ => .imp_left (List.mem_cons_of_mem _)
      | many others =>
          obtain ⟨front, later, rfl, -, fills⟩ := fills
          cases asked with
          | tail _ asked =>
              exact (ih fills asked).imp fun _ => .imp_left (List.mem_append_right _)

theorem many (all : ∀ tree ∈ trees, tree.rule ∈ rules) : Fills [.many rules] trees :=
  ⟨trees, [], (List.append_nil _).symm, all, rfl⟩

end Fills

theorem Expr.Leaves.fills {g : Rules R} {e : Expr R} {trees : List (Tree R)}
    (leaves : e.Leaves g trees) (shows : ∀ name ∈ e.calls, g.kind name ≠ .silent) :
    Fills e.slots trees := by
  induction e generalizing trees with
  | done | text | one | finish | «unless» => exact leaves
  | rule name =>
      obtain ⟨tree, rfl, same, -⟩ := leaves.resolve_left (shows name (List.mem_singleton_self _))
      exact .single (List.mem_singleton.mpr same)
  | seq first second ihFirst ihSecond =>
      obtain ⟨before, behind, rfl, front, back⟩ := leaves
      rw [calls, List.forall_mem_append] at shows
      exact (ihFirst front shows.1).append (ihSecond back shows.2)
  | alt first second ihFirst ihSecond =>
      have listed := fun tree mem => (leaves.forall_mem shows tree mem).1
      rw [calls, List.forall_mem_append] at shows
      have fills := leaves.imp (fun front => ihFirst front shows.1)
        fun back => ihSecond back shows.2
      rw [slots]
      split
      · next none alsoNone =>
          rw [none, alsoNone] at fills
          exact fills.elim id id
      · next rules others alike alsoAlike =>
          rw [alike, alsoAlike] at fills
          rcases fills with front | back
          · obtain ⟨tree, rfl, mem⟩ := front.exists_single
            exact .single (List.mem_append_left _ mem)
          · obtain ⟨tree, rfl, mem⟩ := back.exists_single
            exact .single (List.mem_append_right _ mem)
      · exact .many listed
  | opt body ih =>
      have listed := fun tree mem => (leaves.forall_mem shows tree mem).1
      have fills := leaves.imp_right fun inner => ih inner shows
      rw [slots]
      split
      · next none =>
          rw [none] at fills
          exact fills.elim id id
      · next rules alike =>
          rw [alike] at fills
          exact fills
      · exact .many listed
  | star body ih | more body ih =>
      have listed := fun tree mem => (leaves.forall_mem shows tree mem).1
      obtain ⟨parts, rfl, each⟩ := leaves
      have fills := fun part mem => ih (each part mem) shows
      rw [slots]
      split
      · next none =>
          rw [none] at fills
          exact List.flatten_eq_nil_iff.mpr fills
      · next rules alike =>
          rw [alike] at fills
          refine .many fun tree mem => ?_
          obtain ⟨part, isPart, inside⟩ := List.mem_flatten.mp mem
          obtain ⟨only, rfl, isOf⟩ := (fills part isPart).exists_single
          exact List.mem_singleton.mp inside ▸ isOf
      · exact .many listed

namespace Rules

/-- The parts of a tree fill the slots of its rule, and so do those of all trees inside it. Nothing
is said of the parts of a token. -/
inductive IsComplete (g : Rules R) : Tree R → Prop where
  | token {tree : Tree R} (isToken : g.kind tree.rule = .token) : IsComplete g tree
  | node {tree : Tree R} (fills : Fills (g.body tree.rule).slots tree.children)
      (inside : ∀ child ∈ tree.children, IsComplete g child) : IsComplete g tree

/-- Rules that show themselves and their parts call no silent ones. -/
def CallsShow (g : Rules R) : Prop :=
  ∀ name, g.kind name ≠ .silent → g.kind name ≠ .token →
    ∀ called ∈ (g.body name).calls, g.kind called ≠ .silent

theorem Makes.isComplete {g : Rules R} (callsShow : g.CallsShow) {tree : Tree R}
    (made : g.Makes tree) (shows : g.kind tree.rule ≠ .silent) : g.IsComplete tree := by
  by_cases isToken : g.kind tree.rule = .token
  · exact .token isToken
  · have leaves := made.leaves isToken
    have called := callsShow tree.rule shows isToken
    refine .node (leaves.fills called) fun child mem => ?_
    obtain ⟨isCalled, childMade⟩ := leaves.forall_mem called child mem
    have smaller := Tree.sizeOf_lt_of_mem mem
    exact childMade.isComplete callsShow (called _ isCalled)
termination_by sizeOf tree

end Rules

end NodeWeave.Peg
