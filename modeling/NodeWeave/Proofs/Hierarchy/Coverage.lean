import NodeWeave.Proofs.Hierarchy.Names
import NodeWeave.Proofs.Hierarchy.Written
import NodeWeave.Report.Collector

/-!
No name that is written in a hierarchy is dropped in silence: a node stands in the resolved tree
where the name is written, or a report covers that place. Duplicates may be removed in any order.
-/

namespace NodeWeave

namespace Collector

def everything : Collector where
  kind := .recording
  least := .debug

theorem kept_takeAll {c : Collector} (recording : c.kind = .recording) (reports : List Report) :
    (c.takeAll reports).kept = c.kept ++ reports.filter fun report => !c.hides report := by
  induction reports generalizing c with
  | nil => simp
  | cons report rest ih =>
      have step : (c.take report).1.kind = .recording ∧ (c.take report).1.least = c.least ∧
          (c.take report).1.kept = c.kept ++ if c.hides report then [] else [report] := by
        rw [take, recording]
        cases c.hides report <;> simp [recording]
      have same : (c.take report).1.hides = c.hides := by
        funext other
        rw [hides, hides, step.2.1]
      rw [takeAll, List.foldl_cons, ← takeAll, ih step.1, step.2.2, same, List.append_assoc,
        List.filter_cons]
      cases c.hides report <;> rfl

theorem mem_kept_everything {reports : List Report} {report : Report} (mem : report ∈ reports)
    (severe : .warning ≤ report.severity) : report ∈ (everything.takeAll reports).kept := by
  have shown : everything.hides report = false := by
    rw [hides]
    revert severe
    cases report.severity <;> decide
  rw [kept_takeAll rfl, List.mem_append, List.mem_filter, shown]
  exact .inr ⟨mem, rfl⟩

end Collector

namespace Hierarchy

open Shape

namespace TypeTree

variable {tree : TypeTree} {shape : Shape}

/-! ### Rounds -/

/-- Rounds of duplicate removal. Each one takes any name that several nodes have. -/
inductive Rounds : TypeTree → List Report → TypeTree → Prop where
  | done (tree : TypeTree) : Rounds tree [] tree
  | round {tree final : TypeTree} {reports : List Report} (name : String)
      (several : 1 < (tree.group name).length)
      (rest : Rounds (tree.keepOne (tree.group name)).value reports final) :
      Rounds tree ((tree.keepOne (tree.group name)).reports ++ reports) final

theorem rounds_removeGroups (rounds : Nat) (tree : TypeTree) :
    Rounds tree (removeGroups rounds tree).reports (removeGroups rounds tree).value := by
  induction rounds generalizing tree with
  | zero => exact .done tree
  | succ rounds ih =>
      rw [removeGroups]
      cases found : tree.firstGroup? with
      | none => exact .done tree
      | some group =>
          obtain ⟨several, name, rfl⟩ := exists_of_firstGroup? found
          exact .round name several (ih _)

/-! ### Places -/

def placeAt? (tree : TypeTree) (id : Nat) : Option Place :=
  (tree.entryAt? id).map Entry.place

theorem placeAt?_of_sameEntries {other : TypeTree} (same : tree.SameEntries other) (id : Nat) :
    other.placeAt? id = tree.placeAt? id := by
  rw [placeAt?, placeAt?, same]

def PlacedAround (tree : TypeTree) (upper lower : Nat) : Prop :=
  ∃ outer inner, tree.placeAt? upper = some outer ∧ tree.placeAt? lower = some inner ∧
    outer.IsAround inner

/-- A node stands above another one because its place is around that of the other one, or it has
come there in a round and is the only one with its name. -/
def IsTraced (tree : TypeTree) (shape : Shape) : Prop :=
  ∀ upper lower, Above upper lower shape → tree.PlacedAround upper lower ∨
    ∀ other ∈ shape.ids, tree.nameOf other = tree.nameOf upper → other = upper

/-- One round keeps the order of places. Whatever it loses its report covers. -/
theorem HasShape.keepOne_traced {name : String} (has : tree.HasShape shape)
    (traced : tree.IsTraced shape) (several : 1 < (tree.group name).length) :
    ∃ changed, (tree.keepOne (tree.group name)).value.HasShape changed ∧
      (tree.keepOne (tree.group name)).value.IsTraced changed ∧
        ∀ id ∈ shape.ids, ∀ path, tree.placeAt? id = some (.data path) → id ∈ changed.ids ∨
          ∃ report ∈ (tree.keepOne (tree.group name)).reports, report.Covers path := by
  cases grouped : tree.group name with
  | nil => simp [grouped] at several
  | cons first others =>
      let round : Round := ⟨tree, first, others⟩
      have whole : round.IsWhole := ⟨name, grouped.symm⟩
      have same : tree.SameEntries (tree.keepOne (first :: others)).value :=
        round.sameEntries_result
      have ready := whole.areDiscardable has
      have inGroup {id : Nat} : id ∈ round.group ↔
          id ∈ shape.ids ∧ tree.nameOf id = tree.nameOf round.kept := by
        rw [whole.mem_group_iff, has.attached_eq]
      obtain ⟨changed, hasChanged, all⟩ := whole.exists_shape has
      have left (id : Nat) : id ∈ changed.ids ↔ _ := all.mem_iff ready has.nodup
      refine ⟨changed, hasChanged, ?_, ?_⟩
      · intro upper lower above
        rcases all.above above with rfl | old
        · right
          intro other stays named
          rw [nameOf_of_sameEntries same, nameOf_of_sameEntries same] at named
          obtain ⟨mem, unlisted, _⟩ := (left other).mp stays
          by_contra ne
          exact unlisted
            (List.mem_reverse.mpr (Round.mem_discarded_iff.mpr ⟨inGroup.mpr ⟨mem, named⟩, ne⟩))
        · refine (traced upper lower old).imp ?_ ?_
          · rintro ⟨outer, inner, placed, below, around⟩
            rw [← placeAt?_of_sameEntries same] at placed below
            exact ⟨outer, inner, placed, below, around⟩
          · intro alone other stays named
            rw [nameOf_of_sameEntries same, nameOf_of_sameEntries same] at named
            exact alone other ((left other).mp stays).1 named
      · intro id stood path placed
        by_cases stays : id ∈ changed.ids
        · exact .inl stays
        · right
          obtain ⟨dropped, listed, below⟩ : ∃ dropped ∈ round.discarded,
              id = dropped ∨ Above dropped id shape := by
            have gone := mt (left id).mpr stays
            simp only [List.mem_reverse] at gone
            by_cases listed : id ∈ round.discarded
            · exact ⟨id, listed, .inl rfl⟩
            · grind
          rw [Round.mem_discarded_iff] at listed
          obtain ⟨around, droppedAt, isPrefix⟩ :
              ∃ around, tree.placeAt? dropped = some (.data around) ∧ around <+: path := by
            rcases below with rfl | above
            · exact ⟨path, placed, List.prefix_refl path⟩
            · rcases traced dropped id above with ⟨outer, inner, upper, lower, around⟩ | alone
              · rw [placed] at lower
                cases lower
                obtain ⟨shorter, _, rfl, longer, isPrefix⟩ := around
                cases longer
                exact ⟨shorter, upper, isPrefix⟩
              · have named := (inGroup.mp listed.1).2
                exact absurd (alone _ ready.kept_mem named.symm).symm listed.2
          refine ⟨round.report, List.mem_cons_self, Nat.le_refl _, around, ?_, isPrefix⟩
          exact List.mem_filterMap.mpr ⟨dropped, Round.mem_discarded_iff.mpr listed, droppedAt⟩

/-- However many rounds there are, and whatever names they take, a node that is lost is covered. -/
theorem Rounds.covered {final : TypeTree} {reports : List Report}
    (rounds : Rounds tree reports final) (has : tree.HasShape shape)
    (traced : tree.IsTraced shape) :
    ∃ left, final.HasShape left ∧ tree.SameEntries final ∧
      ∀ id ∈ shape.ids, ∀ path, tree.placeAt? id = some (.data path) → id ∈ left.ids ∨
        ∃ report ∈ reports, report.Covers path := by
  induction rounds generalizing shape with
  | done tree => exact ⟨shape, has, .refl tree, fun id stood _ _ => .inl stood⟩
  | @round tree final reports name several rest ih =>
      obtain ⟨changed, hasChanged, tracedChanged, covered⟩ := has.keepOne_traced traced several
      obtain ⟨left, hasLeft, sameLeft, coveredLeft⟩ := ih hasChanged tracedChanged
      have same := tree.sameEntries_keepOne (tree.group name)
      refine ⟨left, hasLeft, same.trans sameLeft, ?_⟩
      intro id stood path placed
      rcases covered id stood path placed with stays | ⟨report, told, covers⟩
      · have placedChanged := (placeAt?_of_sameEntries same id).trans placed
        rcases coveredLeft id stays path placedChanged with last | ⟨report, told, covers⟩
        · exact .inl last
        · exact .inr ⟨report, List.mem_append_right _ told, covers⟩
      · exact .inr ⟨report, List.mem_append_left _ told, covers⟩

/-! ### The expanded hierarchy -/

mutual
theorem placedAround_of_above {place : Place} {upper lower : Nat} : ∀ (outline : Outline)
    (next : Nat), outline.IsWithin place → Above upper lower (outline.shape next) →
      (∀ index entry, outline.entries[index]? = some entry →
        tree.entryAt? (next + index) = some entry) → tree.PlacedAround upper lower
  | .node entry children, next, within, above, laid => by
      rw [Outline.IsWithin] at within
      rw [Outline.shape, above_node] at above
      have below (index : Nat) (inner : Entry)
          (listed : (Outline.entriesAll children)[index]? = some inner) :
          tree.entryAt? (next + 1 + index) = some inner := by
        rw [Nat.add_assoc, Nat.add_comm 1]
        exact laid (index + 1) inner listed
      rcases above with ⟨rfl, under⟩ | inside
      · rw [Outline.idsAll_shapes, List.mem_range'_1, ← Outline.length_entriesAll] at under
        obtain ⟨index, rfl⟩ := Nat.exists_eq_add_of_le under.1
        have bound : index < (Outline.entriesAll children).length := by omega
        have listed := List.getElem?_eq_getElem bound
        have own := laid 0 entry rfl
        refine ⟨entry.place, _, congrArg (Option.map Entry.place) own,
          congrArg (Option.map Entry.place) (below index _ listed), ?_⟩
        exact within.2.isAround (List.getElem_mem bound)
      · exact placedAround_of_aboveAll children (next + 1) within.2 inside below

theorem placedAround_of_aboveAll {place : Place} {upper lower : Nat} :
    ∀ (outlines : List Outline) (next : Nat), Outline.AreWithin place outlines →
      AboveAll upper lower (Outline.shapes next outlines) →
        (∀ index entry, (Outline.entriesAll outlines)[index]? = some entry →
          tree.entryAt? (next + index) = some entry) → tree.PlacedAround upper lower
  | [], _, _, above, _ => absurd above aboveAll_nil
  | outline :: rest, next, within, above, laid => by
      rw [Outline.AreWithin] at within
      rw [Outline.shapes, AboveAll] at above
      rcases above with here | later
      · refine placedAround_of_above outline next within.1 here fun index entry listed => ?_
        apply laid index entry
        rw [Outline.entriesAll, List.getElem?_append_left (List.getElem?_eq_some_iff.mp listed).1]
        exact listed
      · refine placedAround_of_aboveAll rest _ within.2 later fun index entry listed => ?_
        rw [Nat.add_assoc]
        apply laid
        rw [Outline.entriesAll, ← Outline.length_entries,
          List.getElem?_append_right (Nat.le_add_right _ _), Nat.add_sub_cancel_left]
        exact listed
end

theorem isTraced_ofOutline {place : Place} {outline : Outline} (within : outline.IsWithin place) :
    (ofOutline outline).IsTraced (outline.shape 0) := by
  intro upper lower above
  left
  refine placedAround_of_above outline 0 within above fun index entry listed => ?_
  rw [Nat.zero_add, entryAt?_eq_getElem?, ofOutline, map_entry_layOut]
  exact listed

/-! ### Resolved trees -/

/-- A node that is reached from the root has this path as its place. -/
def StandsAt (tree : TypeTree) (path : DataPath) : Prop :=
  ∃ id ∈ tree.attached, tree.placeAt? id = some (.data path)

theorem HasShape.standsAt_adopt (has : tree.HasShape shape) (d : Declared)
    (orphans : List Declaration) {id : Nat} {path : DataPath} (mem : id ∈ shape.ids)
    (placed : tree.placeAt? id = some (.data path)) :
    (TypeTree.adopt d tree orphans).compact.StandsAt path := by
  have compact := has.isCompact_adopt d orphans
  have followed := has.isFollowedBy d orphans
  obtain ⟨entry, found, place_eq⟩ := Option.map_eq_some_iff.mp placed
  have listed : some entry ∈ (TypeTree.adopt d tree orphans).compact.nodes.map
      (some ∘ TypeNode.entry) := by
    rw [followed.entries_eq, has.attached_eq, ← found]
    exact List.mem_append_left _ (List.mem_map_of_mem mem)
  obtain ⟨node, stands, entry_eq⟩ := List.mem_map.mp listed
  obtain ⟨number, inside, node_eq⟩ := List.getElem_of_mem stands
  refine ⟨number, ?_, ?_⟩
  · rw [compact.attached_eq]
    exact List.mem_range.mpr inside
  · rw [placeAt?, entryAt?, node?, List.getElem?_eq_getElem inside, node_eq, Option.map_some,
      Option.map_some, Option.some.inj entry_eq, place_eq]

end TypeTree

open TypeTree

/-- A tree and the reports on the way to it, where duplicates are removed in any order. -/
def ResolvesInAnyOrder (d : Declared) (outline : Outline) (tree : TypeTree)
    (reports : List Report) : Prop :=
  ∃ distinct removal, Rounds (ofOutline (outline.expandRoot d).value) removal distinct ∧
    tree = (distinct.adoptMissing d).value.compact ∧
      reports = (outline.expandRoot d).reports ++ (removal ++ (distinct.adoptMissing d).reports)

theorem resolvesInAnyOrder_resolve (d : Declared) (outline : Outline) :
    ResolvesInAnyOrder d outline (outline.resolve d).value (outline.resolve d).reports := by
  refine ⟨_, _, rounds_removeGroups _ (ofOutline (outline.expandRoot d).value), rfl, ?_⟩
  simp [Outline.resolve, removeDuplicates]

theorem ResolvesInAnyOrder.covered {d : Declared} {outline : Outline} {tree : TypeTree}
    {reports : List Report} {place : Place} (resolved : ResolvesInAnyOrder d outline tree reports)
    (within : outline.IsWithin place) {entry : Entry} {path : DataPath}
    (mem : entry ∈ outline.entries) (stands : entry.place = .data path) :
    tree.StandsAt path ∨ ∃ report ∈ reports, report.Covers path := by
  obtain ⟨distinct, removal, rounds, rfl, rfl⟩ := resolved
  have start := hasShape_ofOutline (outline.expandRoot d).value
  have traced := isTraced_ofOutline (Outline.isWithin_expandRoot d within)
  rcases Outline.covered_expandRoot d within mem stands with
    ⟨expanded, listed, expandedAt⟩ | ⟨report, told, covers⟩
  · obtain ⟨left, has, same, covered⟩ := rounds.covered start traced
    obtain ⟨id, inside, entry_eq⟩ := List.getElem_of_mem listed
    have placed : (ofOutline (outline.expandRoot d).value).placeAt? id = some (.data path) := by
      rw [placeAt?, entryAt?_eq_getElem?, ofOutline, map_entry_layOut,
        List.getElem?_eq_getElem inside, entry_eq, Option.map_some, expandedAt]
    have stood : id ∈ ((outline.expandRoot d).value.shape 0).ids := by
      rw [Outline.ids_shape, List.mem_range'_1, ← Outline.length_entries]
      omega
    rcases covered id stood path placed with stays | ⟨report, told, covers⟩
    · left
      rw [adoptMissing_value]
      exact has.standsAt_adopt d _ stays ((placeAt?_of_sameEntries same id).trans placed)
    · exact .inr ⟨report, by simp [told], covers⟩
  · exact .inr ⟨report, by simp [told], covers⟩

/-- Whatever is written in a hierarchy, and in whatever order duplicates are removed, a name stands
in the tree or a report that is recorded covers it. -/
theorem written_accounted (d : Declared) {value : Yaml} {path : DataPath}
    (there : WrittenAt Outline.dataPath value path) :
    let outline := Outline.ofYaml (some value)
    let result := outline.value.resolve d
    ResolvesInAnyOrder d outline.value result.value result.reports ∧
      ∀ tree reports, ResolvesInAnyOrder d outline.value tree reports → tree.StandsAt path ∨
        ∃ report ∈ (Collector.everything.takeAll (outline.reports ++ reports)).kept,
          report.Covers path := by
  intro outline result
  refine ⟨resolvesInAnyOrder_resolve d outline.value, fun tree reports resolved => ?_⟩
  have recorded {report : Report} (told : report ∈ outline.reports ++ reports)
      (covers : report.Covers path) :
      ∃ report ∈ (Collector.everything.takeAll (outline.reports ++ reports)).kept,
        report.Covers path :=
    ⟨report, Collector.mem_kept_everything told covers.1, covers⟩
  rcases Outline.covered_ofYaml there with ⟨entry, mem, stands⟩ | ⟨report, told, covers⟩
  · have within := Outline.isWithin_ofYaml (some value)
    refine (resolved.covered within mem stands).imp_right ?_
    rintro ⟨report, told, covers⟩
    exact recorded (List.mem_append_right _ told) covers
  · exact .inr (recorded (List.mem_append_left _ told) covers)

/-- A class above itself, with a name of its own below. -/
def nestedValue : Yaml :=
  .map [(.text "A", .list [.map [(.text "A", .text "B")]])]

def nestedPath : DataPath :=
  Outline.dataPath ++ ["A"] ++ [toString 0] ++ ["A"]

theorem writtenAt_nestedValue : WrittenAt Outline.dataPath nestedValue nestedPath :=
  .value List.mem_cons_self (by rintro name ⟨⟩; rfl) (.item rfl (.key List.mem_cons_self))

theorem written_accounted_nestedValue :
    WrittenAt Outline.dataPath nestedValue nestedPath ∧
      let outline := Outline.ofYaml (some nestedValue)
      let result := outline.value.resolve (.ofNames "" "" ["A", "B"])
      result.value.StandsAt nestedPath ∨
        ∃ report ∈ (Collector.everything.takeAll (outline.reports ++ result.reports)).kept,
          report.Covers nestedPath :=
  have accounted := written_accounted (.ofNames "" "" ["A", "B"]) writtenAt_nestedValue
  ⟨writtenAt_nestedValue, accounted.2 _ _ accounted.1⟩

end Hierarchy

end NodeWeave
