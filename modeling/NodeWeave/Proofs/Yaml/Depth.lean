import NodeWeave.Proofs.Yaml.Reading

/-!
How deep lists and maps stand in each other. What is read with a bound keeps it, and so does what
maps within it are merged to.
-/

namespace NodeWeave.Yaml

/-- Lists and maps stand at most this deep in each other. -/
inductive Within : Nat → Yaml → Prop where
  | null {depth : Nat} : Within depth null
  | bool {depth : Nat} (value : Bool) : Within depth (bool value)
  | int {depth : Nat} (value : Int) : Within depth (int value)
  | float {depth : Nat} (value : Binary64) : Within depth (float value)
  | text {depth : Nat} (value : String) : Within depth (text value)
  | list {depth : Nat} {items : List Yaml} :
      (∀ item ∈ items, Within depth item) → Within (depth + 1) (list items)
  | map {depth : Nat} {entries : Entries} :
      (∀ entry ∈ entries, Within depth entry.1) → (∀ entry ∈ entries, Within depth entry.2) →
        Within (depth + 1) (map entries)
  | tagged {depth : Nat} (tag : String) {value : Yaml} :
      Within depth value → Within depth (tagged tag value)

def EntriesWithin (depth : Nat) (entries : Entries) : Prop :=
  ∀ entry ∈ entries, Within depth entry.1 ∧ Within depth entry.2

theorem within_map {depth : Nat} {entries : Entries} :
    Within (depth + 1) (map entries) ↔ EntriesWithin depth entries :=
  ⟨fun | .map keys values => fun entry mem => ⟨keys entry mem, values entry mem⟩,
    fun each => .map (fun entry mem => (each entry mem).1) fun entry mem => (each entry mem).2⟩

variable {depth : Nat} {key value : Yaml} {entries child parent : Entries}

/-! ### Merging -/

theorem mem_remove {entry : Yaml × Yaml} (mem : entry ∈ remove key entries) : entry ∈ entries := by
  induction entries with
  | nil => exact mem
  | cons first rest ih =>
      rw [remove] at mem
      split at mem
      · cases last : rest.getLast? with
        | none =>
            rw [last] at mem
            cases mem
        | some final =>
            rw [last] at mem
            refine List.mem_cons_of_mem _ ?_
            rcases List.mem_cons.mp mem with rfl | front
            · exact List.mem_of_getLast? last
            · exact List.dropLast_subset _ front
      · rcases List.mem_cons.mp mem with rfl | later
        · exact List.mem_cons_self
        · exact List.mem_cons_of_mem _ (ih later)

namespace EntriesWithin

theorem insert (within : EntriesWithin depth entries) (withinKey : Within depth key)
    (withinValue : Within depth value) : EntriesWithin depth (insert key value entries) := by
  induction entries with
  | nil => exact List.forall_mem_singleton.mpr ⟨withinKey, withinValue⟩
  | cons first rest ih =>
      obtain ⟨first, others⟩ := List.forall_mem_cons.mp within
      rw [Yaml.insert]
      split
      · exact List.forall_mem_cons.mpr ⟨⟨first.1, withinValue⟩, others⟩
      · exact List.forall_mem_cons.mpr ⟨first, ih others⟩

theorem of_find? (within : EntriesWithin depth entries) (found : find? key entries = some value) :
    Within depth value := by
  obtain ⟨_, mem, _⟩ := exists_of_find?_eq_some found
  exact (within _ mem).2

theorem merge_of_combines (within : EntriesWithin depth child)
    (withinParent : EntriesWithin depth parent)
    (combines : ∀ entry ∈ child, ∀ inherited, (∀ old, inherited = some old → Within depth old) →
      Within depth (mergeValue entry.2 inherited)) :
    EntriesWithin depth (merge child parent) := by
  induction child generalizing parent with
  | nil => exact withinParent
  | cons entry rest ih =>
      obtain ⟨key, own⟩ := entry
      obtain ⟨withinEntry, withinRest⟩ := List.forall_mem_cons.mp within
      obtain ⟨combinesOwn, combinesRest⟩ := List.forall_mem_cons.mp combines
      have removed : EntriesWithin depth (Yaml.remove key parent) :=
        fun entry mem => withinParent entry (mem_remove mem)
      have combined := combinesOwn (Yaml.find? key parent) fun _ => withinParent.of_find?
      rw [Yaml.merge]
      exact ih withinRest (removed.insert withinEntry.1 combined) combinesRest

end EntriesWithin

theorem within_mergeValue {own : Yaml} (within : Within depth own) {inherited : Option Yaml}
    (withinInherited : ∀ old, inherited = some old → Within depth old) :
    Within depth (mergeValue own inherited) := by
  induction within generalizing inherited with
  | @map depth entries keys values _ ih =>
      have each : EntriesWithin depth entries := fun entry mem => ⟨keys entry mem, values entry mem⟩
      rw [mergeValue.eq_def]
      split
      · next child parent isMap =>
          cases isMap
          have parentWithin := within_map.mp (withinInherited _ rfl)
          refine within_map.mpr (EntriesWithin.merge_of_combines each parentWithin ?_)
          exact fun entry mem old withinOld => ih entry mem withinOld
      · exact within_map.mpr each
  | null => exact .null
  | bool value => exact .bool value
  | int value => exact .int value
  | float value => exact .float value
  | text value => exact .text value
  | list items => exact .list items
  | tagged tag value => exact .tagged tag value

theorem EntriesWithin.merge (within : EntriesWithin depth child)
    (withinParent : EntriesWithin depth parent) : EntriesWithin depth (merge child parent) :=
  within.merge_of_combines withinParent fun entry mem _ withinOld =>
    within_mergeValue (within entry mem).2 withinOld

/-! ### Values as they are read -/

/-- A value that can be read with a bound on the depth. -/
structure Legible (depth : Nat) (value : Yaml) : Prop where
  wellFormed : WellFormed value
  within : Within depth value

theorem Legible.merge (legible : Legible (depth + 1) (map child))
    (legibleParent : Legible (depth + 1) (map parent)) :
    Legible (depth + 1) (map (merge child parent)) where
  wellFormed :=
    wellFormed_map.mpr (isMapping_merge (wellFormed_map.mp legible.wellFormed)
      (wellFormed_map.mp legibleParent.wellFormed))
  within :=
    within_map.mpr ((within_map.mp legible.within).merge (within_map.mp legibleParent.within))

/-- The maps of an optional field can be read. -/
def LegibleMap? (depth : Nat) (entries : Option Entries) : Prop :=
  ∀ found, entries = some found → Legible (depth + 1) (map found)

theorem LegibleMap?.merge? {child parent : Option Entries} (legible : LegibleMap? depth child)
    (legibleParent : LegibleMap? depth parent) : LegibleMap? depth (merge? child parent) := by
  cases child with
  | none =>
      rw [merge?_none_left]
      exact legibleParent
  | some child =>
      cases parent with
      | none => exact legible
      | some parent =>
          rintro _ ⟨⟩
          exact (legible child rfl).merge (legibleParent parent rfl)

theorem within_scalarValue {tag : Option String} {style : ScalarStyle} {text : String}
    (read : Document.scalarValue tag style text = .ok value) : Within depth value := by
  unfold Document.scalarValue ofPlain? ofFraction at read
  dsimp only at read
  repeat' split at read
  all_goals
    first
      | cases read <;> constructor
      | grind [Within]

theorem within_tagValue {tag : Option String} {found : Yaml} (within : Within depth value)
    (read : Document.tagValue tag value = .ok found) : Within depth found := by
  unfold Document.tagValue at read
  split at read
  · cases read
  · cases read
    exact .tagged _ within
  · cases read
    exact within

theorem eq_of_distinctEntries {found : Entries}
    (read : Document.distinctEntries entries = .ok found) : found = entries := by
  have folded : ∀ (entries start : Entries),
      entries.foldlM (fun sorted entry =>
        if (find? entry.1 sorted).isSome then Except.error Problem.duplicateKey
        else .ok (sorted ++ [(entry.1, entry.2)])) start = .ok found →
          found = start ++ entries := by
    intro entries
    induction entries with
    | nil =>
        intro start read
        cases read
        exact (List.append_nil _).symm
    | cons entry rest ih =>
        intro start read
        rw [List.foldlM_cons] at read
        by_cases fresh : (find? entry.1 start).isSome = true
        · rw [if_pos fresh] at read
          cases read
        · rw [if_neg fresh] at read
          rw [ih _ read, List.append_assoc, List.singleton_append]
  exact folded entries [] read

namespace Document

variable (d : Document)

theorem yields_within_entry {depth : Nat}
    (each : ∀ node, Yields (Within depth) (d.value depth node)) (entry : Node × Node) :
    Yields (fun read => Within depth read.1 ∧ Within depth read.2) (do
      let key ← d.value depth entry.1
      let value ← d.value depth entry.2
      return (key, value)) :=
  .bind (each entry.1) fun _ key => .bind (each entry.2) fun _ value => .pure ⟨key, value⟩

theorem yields_within (depth : Nat) (node : Node) : Yields (Within depth) (d.value depth node) := by
  induction depth generalizing node with
  | zero =>
      rw [value]
      refine .bind_any fun found => ?_
      cases found with
      | scalar tag style text =>
          refine .bind (.lift fun _ read => within_scalarValue read)
            fun value (within : Within 0 value) => ?_
          exact .lift fun _ read => within_tagValue within read
      | _ => exact .throw _
  | succ depth ih =>
      rw [value]
      refine .bind_any fun found => ?_
      cases found with
      | scalar tag style text =>
          refine .bind (.lift fun _ read => within_scalarValue read)
            fun value (within : Within (depth + 1) value) => ?_
          exact .lift fun _ read => within_tagValue within read
      | list tag items =>
          refine .bind (.mapM ih) fun values each => ?_
          exact .lift fun _ read => within_tagValue (.list each) read
      | map tag entries =>
          refine .bind (.mapM (d.yields_within_entry ih)) fun entries each => ?_
          refine .bind (.lift fun _ read => ?_) fun found (within : EntriesWithin depth found) => ?_
          · rw [eq_of_distinctEntries read]
            exact each
          · exact .lift fun _ read => within_tagValue (within_map.mpr within) read
      | _ => exact .throw _

theorem yields_legible (depth : Nat) (node : Node) :
    Yields (Legible depth) (d.value depth node) :=
  fun left found after run =>
    ⟨d.yields_value _ node left found after run, d.yields_within _ node left found after run⟩

theorem yields_legible_entries (depth : Nat) (node : Node) :
    Yields (fun found => Legible (depth + 1) (map found)) (d.entriesValue (depth + 1) node) := by
  have within : Yields (EntriesWithin depth) (d.entriesValue (depth + 1) node) := by
    refine .bind_any fun entries => ?_
    refine .bind (.mapM (d.yields_within_entry (d.yields_within depth))) fun values each => ?_
    refine .lift fun found read => ?_
    rw [eq_of_distinctEntries read]
    exact each
  exact fun left found after run =>
    ⟨wellFormed_map.mpr (d.yields_entriesValue _ node left found after run),
      within_map.mpr (within left found after run)⟩

end Document

end NodeWeave.Yaml
