import NodeWeave.Proofs.Hierarchy.Placing

/-!
A pattern behind all that is written below the root. It adds leaves below the root, and these take
no class from a place where something else puts it. This holds whatever the pattern matches.
-/

namespace NodeWeave.Hierarchy

open TypeTree

/-- The meaning of patterns that have to match whole names, where texts have this meaning. -/
def wholeNames (compile : Matcher) : Matcher := fun text => compile (Outline.wholeName text)

def nameMatcher : Matcher := wholeNames Pattern.compile?

namespace Outline

section

variable (matcher : Matcher) (d : Declared)

/-- The names that a pattern selects. One whose text is not valid selects none. -/
def selectedBy (text : String) : List String :=
  ((matcher text).map fun selects => d.rawNames.filter selects).getD []

mutual
def expandBy : Outline → List Outline
  | node entry children =>
      match Shorthand.ofName entry.name with
      | .pattern text =>
          match selectedBy matcher d text, children with
          | names, [] => names.map (found d entry.place [])
          | [raw], child :: rest => [found d entry.place (expandAllBy (child :: rest)) raw]
          | _, _ :: _ => []
      | shorthand => [node (classEntry d entry shorthand.specificity) (expandAllBy children)]

def expandAllBy : List Outline → List Outline
  | [] => []
  | outline :: rest => expandBy outline ++ expandAllBy rest
end

def expandRootBy : Outline → Outline
  | node entry children => node (classEntry d entry .root) (expandAllBy matcher d children)

/-- The tree of classes that an outline stands for, for any meaning of patterns. -/
def resolveBy (outline : Outline) : TypeTree :=
  ((ofOutline (outline.expandRootBy matcher d)).removeDuplicates.value.adoptMissing d).value.compact

end

variable {matcher : Matcher} {d : Declared}

mutual
theorem value_expand (compile : Matcher) (d : Declared) : ∀ outline : Outline,
    (outline.expand compile d).value = outline.expandBy (wholeNames compile) d
  | node entry children => by
      have below := value_expandAll compile d children
      unfold expand expandBy
      cases Shorthand.ofName entry.name with
      | quoted _ | simple _ | qualified _ =>
          rw [← below]
          rfl
      | pattern text =>
          simp only [selectedBy, wholeNames]
          cases compile (wholeName text) with
          | none => cases children <;> rfl
          | some isMatch =>
              simp only [Option.map_some, Option.getD_some]
              rcases d.rawNames.filter isMatch with _ | ⟨raw, _ | ⟨second, more⟩⟩
              · cases children <;> rfl
              · cases children with
                | nil => rfl
                | cons child rest =>
                    exact congrArg (fun below => [found d entry.place below raw]) below
              · cases children <;> rfl

theorem value_expandAll (compile : Matcher) (d : Declared) : ∀ outlines : List Outline,
    (expandAll compile d outlines).value = expandAllBy (wholeNames compile) d outlines
  | [] => rfl
  | outline :: rest => by
      rw [expandAll, expandAllBy, ← value_expand compile d outline,
        ← value_expandAll compile d rest]
      rfl
end

theorem value_resolve (d : Declared) (outline : Outline) :
    (outline.resolve d).value = outline.resolveBy nameMatcher d := by
  have expanded : (outline.expandRoot d).value = outline.expandRootBy nameMatcher d := by
    cases outline with
    | node entry children =>
        rw [expandRootBy, nameMatcher, ← value_expandAll Pattern.compile? d children]
        rfl
  rw [resolveBy, ← expanded]
  rfl

theorem expandAllBy_append (outlines others : List Outline) :
    expandAllBy matcher d (outlines ++ others) =
      expandAllBy matcher d outlines ++ expandAllBy matcher d others := by
  induction outlines with
  | nil => rfl
  | cons outline rest ih => rw [List.cons_append, expandAllBy, expandAllBy, ih, List.append_assoc]

def patternLeaf (entry : Entry) (text : String) : Outline :=
  node { entry with name := "r:" ++ text } []

theorem expandBy_patternLeaf (entry : Entry) (text : String) :
    (patternLeaf entry text).expandBy matcher d =
      (selectedBy matcher d text).map (found d entry.place []) := by
  rw [patternLeaf, expandBy, Shorthand.ofName_pattern]

/-! ### What is expanded is at least as specific as what a pattern finds -/

theorem regex_le_of_mem_found {place : Place} {children : List Outline} (names : List String)
    (below : ∀ entry ∈ entriesAll children, Specificity.regex ≤ entry.specificity) :
    ∀ entry ∈ entriesAll (names.map (found d place children)),
      Specificity.regex ≤ entry.specificity := by
  induction names with
  | nil => exact nofun
  | cons raw rest ih =>
      intro entry mem
      simp only [List.map_cons, found, entriesAll, entries, List.cons_append, List.mem_cons,
        List.mem_append] at mem
      rcases mem with rfl | inside | later
      · exact Nat.le_refl _
      · exact below entry inside
      · exact ih entry later

mutual
theorem regex_le_of_mem_expandBy : ∀ outline : Outline,
    ∀ entry ∈ entriesAll (outline.expandBy matcher d), Specificity.regex ≤ entry.specificity
  | node entry children => by
      have below := regex_le_of_mem_expandAllBy children
      have plain (shorthand : Shorthand) : Specificity.regex ≤ shorthand.specificity := by
        cases shorthand <;> simp only [Shorthand.specificity] <;> decide
      unfold expandBy
      split
      · split
        · exact regex_le_of_mem_found _ nofun
        · exact regex_le_of_mem_found [_] below
        · exact nofun
      · intro other mem
        rw [entriesAll, entriesAll, List.append_nil, entries, List.mem_cons] at mem
        rcases mem with rfl | inside
        · exact plain _
        · exact below other inside

theorem regex_le_of_mem_expandAllBy : ∀ outlines : List Outline,
    ∀ entry ∈ entriesAll (expandAllBy matcher d outlines), Specificity.regex ≤ entry.specificity
  | [] => nofun
  | outline :: rest => by
      intro entry mem
      rw [expandAllBy, entriesAll_append, List.mem_append] at mem
      rcases mem with first | later
      · exact regex_le_of_mem_expandBy outline entry first
      · exact regex_le_of_mem_expandAllBy rest entry later
end

end Outline

namespace TypeTree

open Outline

/-! ### Leaves behind an outline -/

theorem layOutAll_append (parent : Option Nat) (next : Nat) (outlines others : List Outline) :
    layOutAll parent next (outlines ++ others) =
      layOutAll parent next outlines ++ layOutAll parent (next + sizeAll outlines) others := by
  induction outlines generalizing next with
  | nil => rfl
  | cons outline rest ih =>
      rw [List.cons_append, layOutAll, layOutAll, ih, sizeAll, List.append_assoc, Nat.add_assoc]

theorem numbers_append (next : Nat) (outlines others : List Outline) :
    numbers next (outlines ++ others) =
      numbers next outlines ++ numbers (next + sizeAll outlines) others := by
  induction outlines generalizing next with
  | nil => rfl
  | cons outline rest ih =>
      rw [List.cons_append, numbers, numbers, ih, sizeAll, List.cons_append, Nat.add_assoc]

theorem layOutAll_leaves (parent : Option Nat) (next : Nat) (entries : List Entry) :
    layOutAll parent next (entries.map (node · [])) = entries.map (⟨·, parent, []⟩) := by
  induction entries generalizing next with
  | nil => rfl
  | cons entry rest ih =>
      rw [List.map_cons, layOutAll, ih, layOut, layOutAll, numbers]
      rfl

theorem numbers_leaves (next : Nat) (entries : List Entry) :
    numbers next (entries.map (node · [])) = List.range' next entries.length := by
  induction entries generalizing next with
  | nil => rfl
  | cons entry rest ih =>
      rw [List.map_cons, numbers, ih, List.length_cons, List.range'_succ]
      rfl

theorem hungWith_ofOutline (root : Entry) (children : List Outline) (entries : List Entry) :
    (ofOutline (node root children)).HungWith
      (List.range' (ofOutline (node root children)).nodes.length entries.length)
      (ofOutline (node root (children ++ entries.map (node · [])))) := by
  have length : (ofOutline (node root children)).nodes.length = 1 + sizeAll children :=
    length_layOut none 0 (node root children)
  have nodes_eq : (ofOutline (node root (children ++ entries.map (node · [])))).nodes =
      (ofOutline (node root children)).nodes.modify 0
        (·.withLeaves (List.range' (ofOutline (node root children)).nodes.length entries.length)) ++
          entries.map (⟨·, some 0, []⟩) := by
    rw [length]
    simp only [ofOutline, layOut, layOutAll_append, numbers_append, layOutAll_leaves,
      numbers_leaves, Nat.zero_add, TypeNode.withLeaves, List.modify_zero_cons, List.cons_append]
  have within {id : Nat} (inside : id < (ofOutline (node root children)).nodes.length) :
      (ofOutline (node root (children ++ entries.map (node · [])))).node? id =
        if 0 = id then ((ofOutline (node root children)).node? id).map
          (·.withLeaves (List.range' (ofOutline (node root children)).nodes.length entries.length))
        else (ofOutline (node root children)).node? id := by
    rw [node?, nodes_eq, List.getElem?_append_left (by simpa using inside), List.getElem?_modify,
      node?]
    split <;> simp
  refine ⟨rfl, ?_, ?_, ?_, List.nodup_range'⟩
  · have rootInside : 0 < (ofOutline (node root children)).nodes.length := by omega
    exact (within rootInside).trans (if_pos rfl)
  · intro id inside noRoot
    exact (within inside).trans (if_neg (Ne.symm noRoot))
  · intro id listed
    obtain ⟨at_, less, rfl⟩ := List.mem_range'.mp listed
    refine ⟨by omega, entries[at_], ?_⟩
    rw [node?, nodes_eq, List.getElem?_append_right (by simp), List.getElem?_map]
    simp [less, ofOutline]

/-! ### Classes of the complete tree -/

variable {d : Declared}

theorem mem_map_missing_iff {present : List String} {declarations : List Declaration}
    {name : String} :
    name ∈ (missing d present declarations).map (fun o => d.qualifiedName o.raw) ↔
      name ∈ declarations.map (fun o => d.qualifiedName o.raw) ∧ name ∉ present := by
  constructor
  · intro mem
    obtain ⟨orphan, found, rfl⟩ := List.mem_map.mp mem
    exact ⟨List.mem_map_of_mem ((missing_sublist present declarations).subset found),
      (mem_missing_iff.mp found).2⟩
  · rintro ⟨mem, absent⟩
    obtain ⟨declaration, listed, rfl⟩ := List.mem_map.mp mem
    exact (mem_present_or_missing present listed).resolve_left absent

theorem HasShape.placings_complete {tree : TypeTree} {shape : Shape} (has : tree.HasShape shape)
    (d : Declared) : (tree.adoptMissing d).value.compact.placings = tree.placings ++
      ((missing d tree.names d.declarations).map fun o => d.qualifiedName o.raw).map fun name =>
        (name, some (tree.nameOf tree.root)) := by
  obtain ⟨_, _, grown, hasGrown, _⟩ := has.adopt d (missing d tree.names d.declarations)
  rw [adoptMissing_value, hasGrown.placings_compact, has.placings_adopt]

theorem HasShape.nodup_names_complete {tree : TypeTree} {shape : Shape} (has : tree.HasShape shape)
    (distinct : tree.names.Nodup) : (tree.adoptMissing d).value.compact.names.Nodup := by
  rw [← map_fst_placings, has.placings_complete, List.map_append, map_fst_placings, List.map_map,
    List.nodup_append]
  refine ⟨distinct, by simpa [Function.comp_def] using nodup_missing _ _, ?_⟩
  rintro name present orphan missing rfl
  rw [Function.comp_def, List.map_id', mem_map_missing_iff] at missing
  exact missing.2 present

/-- Leaves that stand for declared classes stand where adopting would put these classes. -/
theorem TrailedBy.perm_placings {tree other : TypeTree} {leaves : List Nat} {shape : Shape}
    (trailed : tree.TrailedBy leaves other) (has : tree.HasShape shape)
    (distinct : other.names.Nodup)
    (declared : leaves.map other.nameOf ⊆ d.declarations.map fun o => d.qualifiedName o.raw) :
    ((tree.adoptMissing d).value.compact.placings).Perm
      (other.adoptMissing d).value.compact.placings := by
  cases shape with
  | node top below =>
      have hasOther := trailed.hasShape has
      have names := trailed.names_eq has
      have rootName : other.nameOf other.root = tree.nameOf tree.root := by
        rw [trailed.root_eq, trailed.nameOf_eq has]
        rw [has.attached_eq, has.root_eq]
        exact Shape.top_mem_ids _
      rw [has.placings_complete, hasOther.placings_complete, trailed.placings_eq has, rootName,
        List.append_assoc, ← List.map_append]
      refine List.Perm.append_left _ (List.Perm.map _ ?_)
      rw [names] at distinct
      obtain ⟨_, nodupLeaves, apart⟩ := List.nodup_append.mp distinct
      refine (List.perm_ext_iff_of_nodup (nodup_missing _ _) ?_).mpr fun name => ?_
      · refine List.nodup_append.mpr ⟨nodupLeaves, nodup_missing _ _, ?_⟩
        rintro name leaf orphan missing rfl
        rw [mem_map_missing_iff, names, List.mem_append, not_or] at missing
        exact missing.2.2 leaf
      · rw [List.mem_append, mem_map_missing_iff, mem_map_missing_iff, names, List.mem_append,
          not_or]
        constructor
        · rintro ⟨listed, absent⟩
          by_cases leaf : name ∈ leaves.map other.nameOf
          · exact .inl leaf
          · exact .inr ⟨listed, absent, leaf⟩
        · rintro (leaf | ⟨listed, absent, _⟩)
          · exact ⟨declared leaf, fun present => apart name present name leaf rfl⟩
          · exact ⟨listed, absent⟩

end TypeTree

open TypeTree Outline

section

variable {matcher : Matcher} {d : Declared}

def foundEntries (matcher : Matcher) (d : Declared) (place : Place) (text : String) : List Entry :=
  (selectedBy matcher d text).map fun raw =>
    { name := d.qualifiedName raw, place, specificity := .regex }

theorem expandRootBy_concat_pattern (root : Entry) (children : List Outline) (leaf : Entry)
    (text : String) : (node root (children ++ [patternLeaf leaf text])).expandRootBy matcher d =
      node (classEntry d root .root) (expandAllBy matcher d children ++
        (foundEntries matcher d leaf.place text).map (node · [])) := by
  rw [expandRootBy, expandAllBy_append, expandAllBy, expandAllBy, List.append_nil,
    expandBy_patternLeaf, foundEntries, List.map_map]
  rfl

theorem name_mem_of_mem_foundEntries {place : Place} {text : String} {entry : Entry}
    (mem : entry ∈ foundEntries matcher d place text) :
    entry.name ∈ d.declarations.map fun o => d.qualifiedName o.raw := by
  obtain ⟨raw, selected, rfl⟩ := List.mem_map.mp mem
  have listed : raw ∈ d.rawNames := by
    rw [selectedBy] at selected
    cases compiled : matcher text with
    | none => simp [compiled] at selected
    | some selects =>
        rw [compiled] at selected
        exact (List.mem_filter.mp selected).1
  obtain ⟨declaration, declared, same⟩ := List.any_eq_true.mp (Declared.mem_rawNames.mp listed)
  exact List.mem_map.mpr ⟨declaration, declared, by rw [beq_iff_eq.mp same]⟩

end

namespace TypeTree

theorem map_entryAt?_leaves (root : Entry) (children : List Outline) (entries : List Entry) :
    (List.range' (ofOutline (node root children)).nodes.length entries.length).map
      (ofOutline (node root (children ++ entries.map (node · [])))).entryAt? =
        entries.map some := by
  have leaves : entriesAll (entries.map (node · [])) = entries := by
    induction entries with
    | nil => rfl
    | cons entry rest ih => exact congrArg (List.cons entry) ih
  have length : (root :: entriesAll children).length =
      (ofOutline (node root children)).nodes.length :=
    ((node root children).length_entries).trans (length_layOut none 0 (node root children)).symm
  rw [← map_getElem?_append (root :: entriesAll children) entries, length]
  refine List.map_congr_left fun id _ => ?_
  rw [entryAt?_eq_getElem?, ofOutline, map_entry_layOut, Outline.entries, entriesAll_append, leaves,
    List.cons_append]

/-- The leaves of a pattern are less specific than all that is written in another way. -/
theorem trailedBy_ofOutline {root : Entry} {children : List Outline} {entries : List Entry}
    (strong : ∀ entry ∈ (node root children).entries, Specificity.regex ≤ entry.specificity)
    (weak : ∀ entry ∈ entries, entry.specificity = .regex) :
    (ofOutline (node root children)).TrailedBy
      (List.range' (ofOutline (node root children)).nodes.length entries.length)
      (ofOutline (node root (children ++ entries.map (node · [])))) := by
  refine ⟨hungWith_ofOutline root children entries, fun leaf listed id attached => ?_⟩
  have found := List.mem_map_of_mem
    (f := (ofOutline (node root (children ++ entries.map (node · [])))).entryAt?) listed
  rw [map_entryAt?_leaves] at found
  obtain ⟨leafEntry, mem, leaf_eq⟩ := List.mem_map.mp found
  have has := hasShape_ofOutline (node root children)
  rw [has.attached_eq] at attached
  have inside := has.realizes.lt_length attached
  obtain ⟨entry, entry_eq⟩ : ∃ entry, (ofOutline (node root children)).entryAt? id = some entry :=
    ⟨_, by rw [entryAt?, node?, List.getElem?_eq_getElem inside, Option.map_some]⟩
  rw [specificityOf, specificityOf, ← leaf_eq, entry_eq, Option.map_some, Option.map_some,
    Option.getD_some, Option.getD_some, weak leafEntry mem]
  rw [entryAt?_eq_getElem?, ofOutline, map_entry_layOut] at entry_eq
  exact strong entry (List.mem_of_getElem? entry_eq)

end TypeTree

/-- A pattern behind all that stands below the root moves no class and adds none. -/
theorem placesAlike_concat_pattern (matcher : Matcher) (d : Declared) (root : Entry)
    (children : List Outline) (leaf : Entry) (text : String) :
    PlacesAlike ((node root children).resolveBy matcher d)
      ((node root (children ++ [patternLeaf leaf text])).resolveBy matcher d) := by
  rw [resolveBy, resolveBy, expandRootBy_concat_pattern, expandRootBy]
  have has := hasShape_ofOutline (node (classEntry d root .root) (expandAllBy matcher d children))
  have strong : ∀ entry ∈ (node (classEntry d root .root) (expandAllBy matcher d children)).entries,
      Specificity.regex ≤ entry.specificity := by
    intro entry mem
    rcases List.mem_cons.mp mem with rfl | below
    · exact Specificity.le_root _
    · exact regex_le_of_mem_expandAllBy children entry below
  have weak : ∀ entry ∈ foundEntries matcher d leaf.place text, entry.specificity = .regex := by
    intro entry mem
    obtain ⟨raw, _, rfl⟩ := List.mem_map.mp mem
    rfl
  have trailed := trailedBy_ofOutline strong weak
  obtain ⟨left, part, final⟩ := trailed.removeDuplicates has rfl
  have hasOther := hasShape_ofOutline (node (classEntry d root .root)
    (expandAllBy matcher d children ++ (foundEntries matcher d leaf.place text).map (node · [])))
  obtain ⟨shape, hasFinal, _, _, nodup⟩ := has.removeDuplicates rfl
  obtain ⟨_, _, _, same, nodupOther⟩ := hasOther.removeDuplicates rfl
  refine .of_perm (final.perm_placings hasFinal nodupOther ?_) (hasFinal.nodup_names_complete nodup)
  intro name listed
  obtain ⟨id, stays, rfl⟩ := List.mem_map.mp listed
  have found := List.mem_map_of_mem (f := (ofOutline (node (classEntry d root .root)
    (expandAllBy matcher d children ++
      (foundEntries matcher d leaf.place text).map (node · [])))).entryAt?) (part.subset stays)
  rw [map_entryAt?_leaves] at found
  obtain ⟨entry, mem, entry_eq⟩ := List.mem_map.mp found
  rw [nameOf_of_sameEntries same, nameOf, ← entry_eq]
  exact name_mem_of_mem_foundEntries mem

/-- Resolving is resolving with the meaning that patterns have, and whatever patterns mean, one
behind all that stands below the root moves no class and adds none. -/
theorem resolve_concat_pattern (d : Declared) :
    (∀ outline : Outline, ∃ reports, (written outline).resolve d =
      .ok ⟨resolved (outline.resolveBy nameMatcher d), reports⟩) ∧
    ∀ (matcher : Matcher) (root : Entry) (children : List Outline) (leaf : Entry) (text : String),
      PlacesAlike ((node root children).resolveBy matcher d)
        ((node root (children ++ [patternLeaf leaf text])).resolveBy matcher d) := by
  refine ⟨fun outline => ⟨(outline.resolve d).reports, ?_⟩, fun matcher root children leaf text =>
    placesAlike_concat_pattern matcher d root children leaf text⟩
  rw [resolve, value_resolve]

end NodeWeave.Hierarchy
