import NodeWeave.Proofs.Hierarchy.Resolution

/-!
Names that are written in a hierarchy, however malformed what is around them may be, are kept by
reading and by expansion, or a report points to them or to something around them.
-/

namespace NodeWeave

namespace Hierarchy

/-- A name is written in a value that stands at a path: as a text, or as the key of a map. The path
goes on with the number of an item and with a key that is a text; other keys have no name in paths,
so that any name may stand for them. -/
inductive WrittenAt : DataPath → Yaml → DataPath → Prop where
  | text (path : DataPath) (name : String) : WrittenAt path (.text name) path
  | item {path found : DataPath} {items : List Yaml} {index : Nat} {item : Yaml}
      (listed : items[index]? = some item)
      (inside : WrittenAt (path ++ [toString index]) item found) :
      WrittenAt path (.list items) found
  | key {path : DataPath} {entries : Yaml.Entries} {name : String} {below : Yaml}
      (listed : (.text name, below) ∈ entries) : WrittenAt path (.map entries) (path ++ [name])
  | value {path found : DataPath} {entries : Yaml.Entries} {key below : Yaml} {segment : String}
      (listed : (key, below) ∈ entries) (named : ∀ name, key = .text name → segment = name)
      (inside : WrittenAt (path ++ [segment]) below found) : WrittenAt path (.map entries) found
  | inKey {path found : DataPath} {entries : Yaml.Entries} {key below : Yaml} {segment : String}
      (listed : (key, below) ∈ entries) (unnamed : ∀ name, key ≠ .text name)
      (inside : WrittenAt (path ++ [segment]) key found) : WrittenAt path (.map entries) found
  | tagged {path found : DataPath} {tag : String} {value : Yaml}
      (inside : WrittenAt path value found) : WrittenAt path (.tagged tag value) found

namespace WrittenAt

theorem isPrefix {path found : DataPath} {value : Yaml}
    (written : WrittenAt path value found) : path <+: found := by
  induction written with
  | text path name => exact List.prefix_refl path
  | item _ _ ih => exact (List.prefix_append ..).trans ih
  | key _ => exact List.prefix_append ..
  | value _ _ _ ih => exact (List.prefix_append ..).trans ih
  | inKey _ _ _ ih => exact (List.prefix_append ..).trans ih
  | tagged _ ih => exact ih

theorem of_name {path found : DataPath} {name : String} {below : Yaml}
    (written : WrittenAt path (.map [(.text name, below)]) found) :
    found = path ++ [name] ∨ WrittenAt (path ++ [name]) below found := by
  cases written with
  | key listed =>
      cases List.mem_singleton.mp listed
      exact .inl rfl
  | value listed named inside =>
      cases List.mem_singleton.mp listed
      cases named name rfl
      exact .inr inside
  | inKey listed unnamed _ =>
      cases List.mem_singleton.mp listed
      exact absurd rfl (unnamed name)

end WrittenAt

end Hierarchy

/-- A report that is at least a warning and points to a path or to one around it. -/
def Report.Covers (report : Report) (path : DataPath) : Prop :=
  .warning ≤ report.severity ∧ ∃ around, .data around ∈ report.places ∧ around <+: path

theorem Report.covers_make {category : Category} {message : String} {around path : DataPath}
    (severe : .warning ≤ category.severity) (isPrefix : around <+: path) :
    (Report.make category message [.data around]).Covers path :=
  ⟨severe, around, List.mem_singleton.mpr rfl, isPrefix⟩

/-- The path of the inner place begins with that of the outer one. -/
def Place.IsAround (outer inner : Place) : Prop :=
  ∃ path longer, outer = .data path ∧ inner = .data longer ∧ path <+: longer

namespace Place.IsAround

theorem data {path longer : DataPath} (isPrefix : path <+: longer) :
    IsAround (.data path) (.data longer) :=
  ⟨path, longer, rfl, rfl, isPrefix⟩

theorem trans {outer between inner : Place} (first : outer.IsAround between)
    (second : between.IsAround inner) : outer.IsAround inner := by
  obtain ⟨path, longer, rfl, rfl, isPrefix⟩ := first
  obtain ⟨_, _, same, rfl, further⟩ := second
  cases same
  exact data (isPrefix.trans further)

theorem isPrefix {path longer : DataPath} (around : IsAround (.data path) (.data longer)) :
    path <+: longer := by
  obtain ⟨_, _, outer, inner, isPrefix⟩ := around
  cases outer
  cases inner
  exact isPrefix

end Place.IsAround

namespace Hierarchy

def Covered (entries : List Entry) (reports : List Report) (path : DataPath) : Prop :=
  (∃ entry ∈ entries, entry.place = .data path) ∨ ∃ report ∈ reports, report.Covers path

namespace Covered

variable {entries more : List Entry} {reports others : List Report} {path : DataPath}

theorem mono (covered : Covered entries reports path) (within : entries ⊆ more)
    (told : reports ⊆ others) : Covered more others path := by
  rcases covered with ⟨entry, mem, place⟩ | ⟨report, mem, covers⟩
  · exact .inl ⟨entry, within mem, place⟩
  · exact .inr ⟨report, told mem, covers⟩

theorem of_make {category : Category} {message : String} {around : DataPath}
    (severe : .warning ≤ category.severity) (isPrefix : around <+: path) :
    Covered entries (.make category message [.data around] :: reports) path :=
  .inr ⟨_, List.mem_cons_self, Report.covers_make severe isPrefix⟩

end Covered

namespace Outline

/-! ### Places go on downwards -/

mutual
/-- The place is around that of the outline, and every place in the outline is around those
below it. -/
def IsWithin (place : Place) : Outline → Prop
  | node entry children => place.IsAround entry.place ∧ AreWithin entry.place children

def AreWithin (place : Place) : List Outline → Prop
  | [] => True
  | outline :: rest => IsWithin place outline ∧ AreWithin place rest
end

theorem areWithin_append {place : Place} {outlines others : List Outline} :
    AreWithin place (outlines ++ others) ↔
      AreWithin place outlines ∧ AreWithin place others := by
  induction outlines with
  | nil => simp [AreWithin]
  | cons outline rest ih => simp [AreWithin, ih, and_assoc]

mutual
theorem IsWithin.isAround {place : Place} {entry : Entry} : ∀ {outline : Outline},
    outline.IsWithin place → entry ∈ outline.entries → place.IsAround entry.place
  | node own children, within, mem => by
      rw [IsWithin] at within
      rw [entries, List.mem_cons] at mem
      rcases mem with rfl | below
      · exact within.1
      · exact within.1.trans (AreWithin.isAround within.2 below)

theorem AreWithin.isAround {place : Place} {entry : Entry} : ∀ {outlines : List Outline},
    AreWithin place outlines → entry ∈ entriesAll outlines → place.IsAround entry.place
  | outline :: rest, within, mem => by
      rw [AreWithin] at within
      rw [entriesAll, List.mem_append] at mem
      rcases mem with here | later
      · exact within.1.isAround here
      · exact AreWithin.isAround within.2 later
end

theorem IsWithin.of_around {outer place : Place} {outline : Outline} (around : outer.IsAround place)
    (within : outline.IsWithin place) : outline.IsWithin outer := by
  cases outline with
  | node entry children =>
      rw [IsWithin] at within ⊢
      exact ⟨around.trans within.1, within.2⟩

theorem AreWithin.of_around {outer place : Place} {outlines : List Outline}
    (around : outer.IsAround place) (within : AreWithin place outlines) :
    AreWithin outer outlines := by
  induction outlines with
  | nil => trivial
  | cons outline rest ih =>
      rw [AreWithin] at within ⊢
      exact ⟨within.1.of_around around, ih within.2⟩

/-! ### Reading -/

/-- A text is the name of an entry at its place, unless it is blank. -/
theorem entryOfName_cases (name : String) (path : DataPath) :
    (∃ message, entryOfName name path = ⟨none, [.make .wrongType message [.data path]]⟩) ∨
      entryOfName name path = ⟨some { name := Text.trim name, place := .data path }, []⟩ := by
  unfold entryOfName
  dsimp only
  split
  · exact .inl ⟨_, rfl⟩
  · exact .inr rfl

theorem covered_leafOfName (name : String) (path : DataPath) :
    Covered (entriesAll (leafOfName name path).value.toList) (leafOfName name path).reports
      path := by
  have read := entryOfName_cases name path
  rw [leafOfName]
  generalize entryOfName name path = found at read ⊢
  rcases read with ⟨message, rfl⟩ | rfl
  · exact .of_make (by decide) (List.prefix_refl path)
  · exact .inl ⟨_, List.mem_cons_self, rfl⟩

theorem exists_covers_of_ofBelow {path found : DataPath} {below : Yaml}
    (nothing : (ofBelow path below).value = none) (isPrefix : path <+: found) :
    ∃ report ∈ (ofBelow path below).reports, report.Covers found := by
  cases below with
  | text name => cases nothing
  | list items => cases nothing
  | null | bool | int | float | map | tagged =>
      exact ⟨_, List.mem_cons_self, Report.covers_make (by decide) isPrefix⟩

mutual
theorem covered_ofValue {path found : DataPath} : ∀ value : Yaml, WrittenAt path value found →
    Covered (entriesAll (ofValue path value).value.toList) (ofValue path value).reports found
  | .text name, there => by
      cases there
      rw [ofValue]
      exact covered_leafOfName name path
  | .map [], there => .of_make (by decide) there.isPrefix
  | .map [root], there => by
      rw [ofValue]
      exact covered_ofRoot root there
  | .map (first :: second :: rest), there => by
      rw [ofValue]
      · exact .of_make (by decide) there.isPrefix
      · exact nofun
      · exact nofun
  | .list _, there | .tagged _ _, there => .of_make (by decide) there.isPrefix
  | .null, there | .bool _, there | .int _, there | .float _, there => nomatch there
termination_by value => sizeOf value

theorem covered_ofRoot {path found : DataPath} : ∀ root : Yaml × Yaml,
    WrittenAt path (.map [root]) found →
      Covered (entriesAll (ofRoot path root).value.toList) (ofRoot path root).reports found
  | (.text name, below), there => by
      have inside := there.of_name
      have isPrefix : path ++ [name] <+: found := by
        rcases inside with rfl | inside
        · exact List.prefix_refl _
        · exact inside.isPrefix
      have kept (inside : WrittenAt (path ++ [name]) below found) := covered_ofBelow below inside
      have read := entryOfName_cases name (path ++ [name])
      rw [ofRoot]
      generalize entryOfName name (path ++ [name]) = first at read ⊢
      rcases read with ⟨message, rfl⟩ | rfl
      · exact .of_make (by decide) isPrefix
      · simp only [Reported.bind_value, Reported.bind_reports, Reported.pure_value,
          Reported.pure_reports, List.nil_append, List.append_nil]
        cases read : (ofBelow (path ++ [name]) below).value with
        | none => exact .inr (exists_covers_of_ofBelow read isPrefix)
        | some children =>
            rcases inside with rfl | inside
            · exact .inl ⟨_, List.mem_cons_self, rfl⟩
            · rw [read, Option.getD_some] at kept
              exact (kept inside).mono (by simp [entriesAll, entries]) (List.Subset.refl _)
  | (.null, _), there | (.bool _, _), there | (.int _, _), there | (.float _, _), there
  | (.list _, _), there | (.map _, _), there | (.tagged _ _, _), there =>
      .of_make (by decide) there.isPrefix
termination_by root => sizeOf root

theorem covered_ofBelow {path found : DataPath} : ∀ below : Yaml, WrittenAt path below found →
    Covered (entriesAll ((ofBelow path below).value.getD [])) (ofBelow path below).reports found
  | .text name, there => by
      cases there
      rw [ofBelow]
      exact (covered_leafOfName name path).mono (List.Subset.refl _) (by simp)
  | .list items, .item listed inside => by
      rw [ofBelow]
      exact (covered_ofItems items 0 listed (by rwa [Nat.zero_add])).mono (List.Subset.refl _)
        (by simp)
  | .map _, there | .tagged _ _, there => .of_make (by decide) there.isPrefix
  | .null, there | .bool _, there | .int _, there | .float _, there => nomatch there
termination_by below => sizeOf below

theorem covered_ofItems {path found : DataPath} {item : Yaml} :
    ∀ (items : List Yaml) (start : Nat) {index : Nat}, items[index]? = some item →
      WrittenAt (path ++ [toString (start + index)]) item found →
        Covered (entriesAll (ofItems path start items).value) (ofItems path start items).reports
          found
  | [], _, _, listed, _ => nomatch listed
  | first :: rest, start, 0, listed, there => by
      have here : first = item := Option.some.inj listed
      rw [ofItems]
      exact (covered_ofValue first (here ▸ there)).mono (by simp [entriesAll_append]) (by simp)
  | first :: rest, start, index + 1, listed, there => by
      rw [Nat.add_comm index, ← Nat.add_assoc] at there
      rw [ofItems]
      exact (covered_ofItems rest (start + 1) listed there).mono (by simp [entriesAll_append])
        (by simp)
termination_by items => sizeOf items
end

theorem areWithin_toList {place : Place} {read : Option Outline}
    (within : ∀ outline ∈ read, outline.IsWithin place) : AreWithin place read.toList := by
  cases read with
  | none => trivial
  | some outline => exact ⟨within outline rfl, trivial⟩

theorem isWithin_of_mem_leafOfName {name : String} {path : DataPath} {outline : Outline}
    (mem : outline ∈ (leafOfName name path).value) : outline.IsWithin (.data path) := by
  have read := entryOfName_cases name path
  rw [leafOfName] at mem
  generalize entryOfName name path = found at read mem
  rcases read with ⟨message, rfl⟩ | rfl
  · cases mem
  · obtain rfl := Option.some.inj mem
    exact ⟨.data (List.prefix_refl path), trivial⟩

mutual
theorem isWithin_of_mem_ofValue {path : DataPath} {outline : Outline} : ∀ value : Yaml,
    outline ∈ (ofValue path value).value → outline.IsWithin (.data path)
  | .text name, mem => by
      rw [ofValue] at mem
      exact isWithin_of_mem_leafOfName mem
  | .map [root], mem => by
      rw [ofValue] at mem
      exact isWithin_of_mem_ofRoot root mem
  | .map [], mem | .map (_ :: _ :: _), mem | .list _, mem | .tagged _ _, mem => nomatch mem
  | .null, mem | .bool _, mem | .int _, mem | .float _, mem => nomatch mem
termination_by value => sizeOf value

theorem isWithin_of_mem_ofRoot {path : DataPath} {outline : Outline} : ∀ root : Yaml × Yaml,
    outline ∈ (ofRoot path root).value → outline.IsWithin (.data path)
  | (.text name, below), mem => by
      have children := fun outlines => @areWithin_of_mem_ofBelow (path ++ [name]) outlines below
      have read := entryOfName_cases name (path ++ [name])
      rw [ofRoot] at mem
      generalize entryOfName name (path ++ [name]) = first at read mem
      rcases read with ⟨message, rfl⟩ | rfl
      · cases mem
      · obtain ⟨outlines, found, rfl⟩ := Option.map_eq_some_iff.mp mem
        exact ⟨.data (List.prefix_append path [name]), children outlines found⟩
  | (.null, _), mem | (.bool _, _), mem | (.int _, _), mem | (.float _, _), mem => nomatch mem
  | (.list _, _), mem | (.map _, _), mem | (.tagged _ _, _), mem => nomatch mem
termination_by root => sizeOf root

theorem areWithin_of_mem_ofBelow {path : DataPath} {outlines : List Outline} : ∀ below : Yaml,
    outlines ∈ (ofBelow path below).value → AreWithin (.data path) outlines
  | .text name, mem => by
      have leaf := fun outline => @isWithin_of_mem_leafOfName name path outline
      rw [ofBelow] at mem
      generalize leafOfName name path = read at leaf mem
      obtain rfl := Option.some.inj mem
      exact areWithin_toList leaf
  | .list items, mem => by
      rw [ofBelow] at mem
      obtain rfl := Option.some.inj mem
      exact areWithin_ofItems path items 0
  | .map _, mem | .tagged _ _, mem | .null, mem | .bool _, mem | .int _, mem | .float _, mem =>
      nomatch mem
termination_by below => sizeOf below

theorem areWithin_ofItems (path : DataPath) : ∀ (items : List Yaml) (start : Nat),
    AreWithin (.data path) (ofItems path start items).value
  | [], _ => trivial
  | first :: rest, start => by
      have here := areWithin_toList fun outline =>
        @isWithin_of_mem_ofValue (path ++ [toString start]) outline first
      simp only [ofItems, Reported.bind_value, Reported.pure_value, areWithin_append]
      exact ⟨here.of_around (.data (List.prefix_append path _)),
        areWithin_ofItems path rest (start + 1)⟩
termination_by items => sizeOf items
end

/-! ### Expansion -/

theorem areWithin_found {d : Declared} {outer place : Place} (around : outer.IsAround place)
    (names : List String) : AreWithin outer (names.map (found d place [])) := by
  induction names with
  | nil => trivial
  | cons name rest ih => exact ⟨⟨around, trivial⟩, ih⟩

section

variable {compile : Matcher} {d : Declared}

mutual
theorem areWithin_expand {place : Place} : ∀ outline : Outline,
    outline.IsWithin place → AreWithin place (expand compile d outline).value
  | node entry children, within => by
      rw [IsWithin] at within
      obtain ⟨around, within⟩ := within
      have below := areWithin_expandAll children within
      unfold expand
      split
      · split
        · trivial
        · split
          · trivial
          · exact areWithin_found around _
          · exact ⟨⟨around, below⟩, trivial⟩
          · trivial
      · exact ⟨⟨around, below⟩, trivial⟩

theorem areWithin_expandAll {place : Place} : ∀ outlines : List Outline,
    AreWithin place outlines → AreWithin place (expandAll compile d outlines).value
  | [], _ => trivial
  | outline :: rest, within => by
      rw [AreWithin] at within
      rw [expandAll]
      exact areWithin_append.mpr
        ⟨areWithin_expand outline within.1, areWithin_expandAll rest within.2⟩
end

mutual
theorem covered_expand {place : Place} {entry : Entry} {found : DataPath} :
    ∀ outline : Outline, outline.IsWithin place → entry ∈ outline.entries →
      entry.place = .data found →
        Covered (entriesAll (expand compile d outline).value)
          (expand compile d outline).reports found
  | node own children, within, mem, stands => by
      rw [IsWithin] at within
      obtain ⟨_, around, outer_eq, own_eq, _⟩ := within.1
      have isPrefix : around <+: found := by
        rcases List.mem_cons.mp mem with rfl | below
        · rw [own_eq] at stands
          cases stands
          exact List.prefix_refl _
        · have isAround := within.2.isAround below
          rw [own_eq, stands] at isAround
          exact isAround.isPrefix
      have told {category : Category} {message : String} {entries : List Entry}
          {reports : List Report} (severe : .warning ≤ category.severity) :
          Covered entries (.make category message [own.place] :: reports) found :=
        own_eq ▸ .of_make severe isPrefix
      unfold expand
      split
      · split
        · exact told (by decide)
        · split
          · exact told (by decide)
          · next matched =>
              obtain ⟨name, others, names_eq⟩ := List.exists_cons_of_ne_nil matched
              rw [names_eq]
              exact .inl ⟨_, List.mem_cons_self, (List.mem_singleton.mp mem) ▸ stands⟩
          · exact told (by decide)
          · exact .inr ⟨_, List.mem_cons_self, Nat.le_of_ble_eq_true rfl, around,
              by simp [own_eq], isPrefix⟩
      · rcases List.mem_cons.mp mem with rfl | below
        · exact .inl ⟨_, List.mem_cons_self, stands⟩
        · exact (covered_expandAll children within.2 below stands).mono
            (by simp [entriesAll, entries]) (by simp)

theorem covered_expandAll {place : Place} {entry : Entry} {found : DataPath} :
    ∀ outlines : List Outline, AreWithin place outlines → entry ∈ entriesAll outlines →
      entry.place = .data found →
        Covered (entriesAll (expandAll compile d outlines).value)
          (expandAll compile d outlines).reports found
  | outline :: rest, within, mem, stands => by
      rw [AreWithin] at within
      rw [entriesAll, List.mem_append] at mem
      rw [expandAll]
      rcases mem with here | later
      · exact (covered_expand outline within.1 here stands).mono (by simp [entriesAll_append])
          (by simp)
      · exact (covered_expandAll rest within.2 later stands).mono (by simp [entriesAll_append])
          (by simp)
end

end

theorem isWithin_expandRoot (d : Declared) {place : Place} {outline : Outline}
    (within : outline.IsWithin place) : (expandRoot d outline).value.IsWithin place := by
  cases outline with
  | node entry children =>
      rw [IsWithin] at within
      exact ⟨within.1, areWithin_expandAll children within.2⟩

theorem covered_expandRoot (d : Declared) {place : Place} {outline : Outline} {entry : Entry}
    {found : DataPath} (within : outline.IsWithin place) (mem : entry ∈ outline.entries)
    (stands : entry.place = .data found) :
    Covered (expandRoot d outline).value.entries (expandRoot d outline).reports found := by
  cases outline with
  | node own children =>
      rw [IsWithin] at within
      rcases List.mem_cons.mp mem with rfl | below
      · exact .inl ⟨_, List.mem_cons_self, stands⟩
      · exact (covered_expandAll children within.2 below stands).mono
          (List.subset_cons_self _ _) (by simp [expandRoot, expandRootWith])

/-! ### The setting of a hierarchy -/

theorem isWithin_asRoot {place : Place} {outline : Outline} (within : outline.IsWithin place) :
    outline.asRoot.IsWithin place := by
  cases outline
  exact within

theorem map_place_asRoot (outline : Outline) :
    outline.asRoot.entries.map Entry.place = outline.entries.map Entry.place := by
  cases outline
  rfl

theorem isWithin_getD {place : Place} {read : Option Outline} {default : Outline}
    (within : ∀ outline ∈ read, outline.IsWithin place) (defaultWithin : default.IsWithin place) :
    (read.getD default).IsWithin place := by
  cases read with
  | none => exact defaultWithin
  | some outline => exact within outline rfl

theorem written?_value (value : Yaml) :
    (written? (some value)).value = (ofValue dataPath value).value := by
  cases value <;> rfl

theorem isWithin_ofYaml (value : Option Yaml) :
    (ofYaml value).value.IsWithin (.data dataPath) := by
  have default : defaultRoot.IsWithin (.data dataPath) := ⟨.data (List.prefix_refl _), trivial⟩
  apply isWithin_asRoot
  cases value with
  | none => exact default
  | some value =>
      refine isWithin_getD (fun outline mem => ?_) default
      rw [written?_value] at mem
      exact isWithin_of_mem_ofValue value mem

theorem covered_ofYaml {value : Yaml} {found : DataPath}
    (there : WrittenAt dataPath value found) :
    Covered (ofYaml (some value)).value.entries (ofYaml (some value)).reports found := by
  have same : written? (some value) = ofValue dataPath value := by
    cases there <;> rfl
  have covered := covered_ofValue value there
  rw [← same] at covered
  rcases covered with ⟨entry, mem, stands⟩ | ⟨report, told, covers⟩
  · cases read : (written? (some value)).value with
    | none => rw [read] at mem; cases mem
    | some outline =>
        rw [read, Option.toList_some, entriesAll, entriesAll, List.append_nil] at mem
        have placed : entry.place ∈ outline.asRoot.entries.map Entry.place := by
          rw [map_place_asRoot]
          exact List.mem_map_of_mem mem
        obtain ⟨marked, listed, place_eq⟩ := List.mem_map.mp placed
        refine .inl ⟨marked, ?_, place_eq.trans stands⟩
        rw [ofYaml, Reported.bind_value, read]
        exact listed
  · exact .inr ⟨report, List.mem_append_left _ told, covers⟩

end Outline

end Hierarchy

end NodeWeave
