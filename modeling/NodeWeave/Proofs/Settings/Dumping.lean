import NodeWeave.Proofs.Settings.Chain
import NodeWeave.Proofs.Yaml.Literal
import NodeWeave.Settings.Printer

/-!
Settings that are written are read back. What a chain of option files comes to is no deeper than
what one of them says, so it can be read again; only a hierarchy that is null counts as missing.
-/

namespace NodeWeave

open Yaml

namespace Index

variable {α : Type}

theorem insert_last {name : String} {index : Index α} (value : α)
    (before : ∀ entry ∈ index, entry.1 < name) :
    insert name value index = index ++ [(name, value)] := by
  induction index with
  | nil => rfl
  | cons first rest ih =>
      obtain ⟨other, old⟩ := first
      obtain ⟨less, later⟩ := List.forall_mem_cons.mp before
      rw [insert, if_neg (lt_asymm less), if_neg less.ne', ih later, List.cons_append]

theorem ofList_eq {values : Index α} (sorted : IsSorted values) : ofList values = values := by
  have folded : ∀ rest index : Index α, IsSorted (index ++ rest) →
      rest.foldl (fun index entry => insert entry.1 entry.2 index) index = index ++ rest := by
    intro rest
    induction rest with
    | nil => exact fun index _ => (List.append_nil index).symm
    | cons entry rest ih =>
        intro index sorted
        have before : ∀ other ∈ index, other.1 < entry.1 := fun other mem =>
          (List.pairwise_append.mp sorted).2.2 other mem entry List.mem_cons_self
        rw [List.append_cons] at sorted ⊢
        rw [List.foldl_cons, insert_last entry.2 before]
        exact ih _ sorted
  exact folded values [] sorted

end Index

/-! ### Fields that are given -/

def givenFields (fields : List (String × Option Yaml)) : List (String × Yaml) :=
  fields.filterMap fun (name, value) => value.map (name, ·)

theorem namedEntries_givenFields_cons (name : String) (value : Option Yaml)
    (rest : List (String × Option Yaml)) :
    namedEntries (givenFields ((name, value) :: rest)) =
      (value.map fun v => (Yaml.text name, v)).toList ++ namedEntries (givenFields rest) := by
  cases value <;> rfl

theorem sublist_givenFields (fields : List (String × Option Yaml)) :
    ((givenFields fields).map (·.1)).Sublist (fields.map (·.1)) := by
  induction fields with
  | nil => exact .slnil
  | cons field rest ih =>
      obtain ⟨name, value⟩ := field
      cases value with
      | none => exact .cons _ ih
      | some value => exact .cons_cons _ ih

theorem lookup_givenFields {fields : List (String × Option Yaml)}
    (distinct : (fields.map (·.1)).Nodup) {name : String} {value : Option Yaml}
    (mem : (name, value) ∈ fields) : (givenFields fields).lookup name = value := by
  induction fields with
  | nil => cases mem
  | cons field rest ih =>
      obtain ⟨new, distinctRest⟩ := List.nodup_cons.mp distinct
      obtain ⟨other, own⟩ := field
      have absent : (givenFields rest).lookup other = none := by
        refine List.lookup_eq_none_iff.mpr fun entry given => bne_iff_ne.mpr fun same => new ?_
        exact same ▸ (sublist_givenFields rest).subset (List.mem_map_of_mem given)
      rcases List.mem_cons.mp mem with here | later
      · cases here
        cases value with
        | none => exact absent
        | some value => exact List.lookup_cons_self
      · have differs : (name == other) = false := by
          refine beq_eq_false_iff_ne.mpr ?_
          rintro rfl
          exact new (List.mem_map.mpr ⟨_, later, rfl⟩)
        cases own with
        | none => exact ih distinctRest later
        | some own =>
            have next : givenFields ((other, some own) :: rest) =
              (other, own) :: givenFields rest := rfl
            rw [next, List.lookup_cons, differs]
            exact ih distinctRest later

namespace Yaml.Document

variable (d : Document) {fields : List (String × Node)} {named : List (String × Yaml)}

theorem gives_field {α : Type} (denote : List.Forall₂ DenotesField fields named) {name : String}
    {typed : Option α} {written : α → Yaml} {read : Node → Decode α}
    (look : named.lookup name = typed.map written)
    (each : ∀ found, typed = some found → ∀ {node : Node}, node.Denotes (written found) →
      isNull (written found) = false → Gives (read node) found) :
    Gives
      (match fields.lookup name with
      | some n => d.optional read n
      | none => pure none)
      (typed.filter fun found => !isNull (written found)) := by
  rcases lookup_of_denotesField denote name with
    ⟨missing, absent⟩ | ⟨node, value, there, given, denotes⟩
  · rw [missing]
    rw [absent] at look
    rw [Option.map_eq_none_iff.mp look.symm]
    exact .pure
  · rw [there]
    rw [given] at look
    obtain ⟨found, rfl, rfl⟩ := Option.map_eq_some_iff.mp look.symm
    have read := d.gives_optional denotes fun present => each found rfl denotes present
    cases null : isNull (written found) with
    | true => simpa [Option.filter, null] using read
    | false => simpa [Option.filter, null] using read

theorem gives_field_of_present {α : Type} (denote : List.Forall₂ DenotesField fields named)
    {name : String} {typed : Option α} {written : α → Yaml} {read : Node → Decode α}
    (look : named.lookup name = typed.map written)
    (present : ∀ found, isNull (written found) = false)
    (each : ∀ found, typed = some found → ∀ {node : Node}, node.Denotes (written found) →
      Gives (read node) found) :
    Gives
      (match fields.lookup name with
      | some n => d.optional read n
      | none => pure none)
      typed := by
  have all : (typed.filter fun found => !isNull (written found)) = typed := by
    cases typed <;> simp [present]
  have given := d.gives_field denote look fun found isFound _ denotes _ =>
    each found isFound denotes
  rwa [all] at given

end Yaml.Document

/-! ### Specifications -/

namespace FileSpec

def fields (spec : FileSpec) : List (String × Option Yaml) :=
  [("execute", spec.execute.map .bool), ("template", spec.template.map .text),
    ("templateFile", spec.templateFile.map .text), ("genClassName", spec.className.map .text),
    ("context", spec.context.map .map)]

theorem toYaml_eq (spec : FileSpec) :
    spec.toYaml = .map (namedEntries (givenFields spec.fields)) := by
  unfold toYaml fields
  simp only [namedEntries_givenFields_cons, Option.map_map, List.append_assoc]
  simp [givenFields, namedEntries, Function.comp_def]

theorem nodup_names (spec : FileSpec) : (spec.fields.map (·.1)).Nodup := by
  rw [show spec.fields.map (·.1) = fieldNames from rfl]
  decide

theorem gives_ofNode (d : Document) {node : Node} {spec : FileSpec} {depth : Nat}
    (denotes : node.Denotes spec.toYaml) (legible : LegibleMap? depth spec.context) :
    Gives (ofNode d (depth + 2) node) spec := by
  rw [toYaml_eq] at denotes
  have distinct := spec.nodup_names
  obtain ⟨fields, denote, given⟩ :=
    d.gives_fieldsOf fieldNames ((sublist_givenFields _).nodup distinct) denotes
  have look (i : Nat) {name : String} {value : Option Yaml}
      (there : spec.fields[i]? = some (name, value)) :
      (givenFields spec.fields).lookup name = value :=
    lookup_givenFields distinct (List.mem_of_getElem? there)
  refine .bind given ?_
  dsimp only
  refine .bind (d.gives_field_of_present denote (look 0 rfl) (fun _ => rfl)
    fun _ _ _ => d.gives_boolValue) ?_
  refine .bind (d.gives_field_of_present denote (look 1 rfl) (fun _ => rfl)
    fun _ _ _ => d.gives_textOf) ?_
  refine .bind (d.gives_field_of_present denote (look 2 rfl) (fun _ => rfl)
    fun _ _ _ => d.gives_textOf) ?_
  refine .bind (d.gives_field_of_present denote (look 3 rfl) (fun _ => rfl)
    fun _ _ _ => d.gives_textOf) ?_
  refine .bind (d.gives_field_of_present denote (look 4 rfl) (fun _ => rfl)
    fun found isFound _ denotes => d.gives_entriesValue denotes (legible found isFound)) ?_
  exact .pure

theorem yields_legible (d : Document) (depth : Nat) (node : Node) :
    Yields (fun spec => LegibleMap? depth spec.context) (ofNode d (depth + 2) node) := by
  refine .bind_any fun fields => ?_
  refine .bind_any fun execute => .bind_any fun template => .bind_any fun templateFile =>
    .bind_any fun className => ?_
  exact .bind (d.yields_field (d.yields_legible_entries depth) fields "context") fun _ legible =>
    .pure legible

end FileSpec

namespace Settings

/-! ### Settings -/

def visitorDepth : Nat := fieldDepth - 3

/-- How deep values may be in the contexts of the files of nodes. -/
def nodeFileDepth : Nat := fieldDepth - 4

structure IsLegible (s : Settings) : Prop where
  hierarchy : ∀ value, s.hierarchy = some value → Legible fieldDepth value
  generation : LegibleMap? (fieldDepth - 1) s.generation
  context : LegibleMap? (fieldDepth - 1) s.context
  visitors : ∀ entry ∈ s.visitors, LegibleMap? visitorDepth entry.2.context
  sorted : Index.IsSorted s.visitors
  nodeFiles : ∀ specs, s.nodeFiles = some specs →
    ∀ spec ∈ specs, LegibleMap? nodeFileDepth spec.context

theorem isLegible_empty : IsLegible {} where
  hierarchy := nofun
  generation := nofun
  context := nofun
  visitors := List.forall_mem_nil _
  sorted := List.Pairwise.nil
  nodeFiles := nofun

theorem yields_legible_visitors (d : Document) (node : Node) :
    Yields (fun visitors => (∀ entry ∈ visitors, LegibleMap? visitorDepth entry.2.context) ∧
      Index.IsSorted visitors) (readVisitors d node) := by
  refine .bind_any fun entries => ?_
  have each (entry : Node × Node) : Yields (fun named => LegibleMap? visitorDepth named.2.context)
      (do
        let name ← d.textOf entry.1
        let spec ← FileSpec.ofNode d (fieldDepth - 1) entry.2
        return (name, spec)) :=
    .bind_any fun name => .bind (FileSpec.yields_legible d visitorDepth _) fun _ legible =>
      .pure legible
  refine .bind (.mapM each) fun specs legible => .pure ⟨?_, Index.isSorted_ofList _⟩
  exact fun entry mem => legible entry (Index.mem_of_mem_ofList mem)

theorem yields_legible_nodeFiles (d : Document) (node : Node) :
    Yields (fun specs => ∀ spec ∈ specs, LegibleMap? nodeFileDepth spec.context)
      (readNodeFiles d node) := by
  refine .bind_any fun fields => ?_
  split
  · exact .bind_any fun items => .mapM (FileSpec.yields_legible d nodeFileDepth)
  · exact .pure (List.forall_mem_nil _)

theorem yields_isLegible (d : Document) (node : Node) : Yields IsLegible (ofNode d node) := by
  refine .bind_any fun fields => ?_
  have hierarchy := d.yields_field (d.yields_legible fieldDepth) fields "typeHierarchy"
  have entriesOf (name : String) :=
    d.yields_field (d.yields_legible_entries (fieldDepth - 1)) fields name
  have nodeFiles := d.yields_field (yields_legible_nodeFiles d) fields "nodeGen"
  have made {visitors : Index FileSpec}
      (read : (∀ entry ∈ visitors, LegibleMap? visitorDepth entry.2.context) ∧
        Index.IsSorted visitors)
      (s : Settings) (isRead : s.visitors = visitors)
      (hierarchy : ∀ value, s.hierarchy = some value → Legible fieldDepth value)
      (generation : LegibleMap? (fieldDepth - 1) s.generation)
      (context : LegibleMap? (fieldDepth - 1) s.context)
      (nodeFiles : ∀ specs, s.nodeFiles = some specs →
        ∀ spec ∈ specs, LegibleMap? nodeFileDepth spec.context) : s.IsLegible := by
    subst isRead
    exact ⟨hierarchy, generation, context, read.1, read.2, nodeFiles⟩
  dsimp only
  split
  · refine .bind (yields_legible_visitors d _) fun visitors read => ?_
    exact yields_fields hierarchy (entriesOf "javaccGen") (entriesOf "templateContext") nodeFiles
      (made read)
  · rw [pure_bind]
    exact yields_fields hierarchy (entriesOf "javaccGen") (entriesOf "templateContext") nodeFiles
      (made ⟨List.forall_mem_nil _, List.Pairwise.nil⟩)

/-! ### Completing -/

theorem legible_completeVisitors {visitors parent : Index FileSpec}
    (legible : ∀ entry ∈ visitors, LegibleMap? visitorDepth entry.2.context)
    (legibleParent : ∀ entry ∈ parent, LegibleMap? visitorDepth entry.2.context) :
    ∀ entry ∈ completeVisitors visitors parent, LegibleMap? visitorDepth entry.2.context := by
  induction visitors generalizing parent with
  | nil => exact legibleParent
  | cons entry rest ih =>
      obtain ⟨name, spec⟩ := entry
      obtain ⟨legibleSpec, legibleRest⟩ := List.forall_mem_cons.mp legible
      rw [completeVisitors_cons]
      refine ih legibleRest fun entry mem => ?_
      rcases Index.mem_insert mem with rfl | old
      · have inherited : LegibleMap? visitorDepth ((parent.lookup name).getD {}).context := by
          cases found : parent.lookup name with
          | none => exact nofun
          | some spec =>
              obtain ⟨front, back, split, _⟩ := List.lookup_eq_some_iff.mp found
              exact legibleParent (name, spec) (split ▸ List.mem_append_right _ List.mem_cons_self)
        exact legibleSpec.merge? inherited
      · exact legibleParent entry old

theorem eq_some_or_of_orElse {α : Type} {own inherited : Option α} {found : α}
    (isFound : (own <|> inherited) = some found) : own = some found ∨ inherited = some found := by
  cases own with
  | none => exact .inr isFound
  | some own => exact .inl isFound

theorem IsLegible.complete {s parent : Settings} (legible : s.IsLegible)
    (legibleParent : parent.IsLegible) : (s.complete parent).IsLegible where
  hierarchy value found :=
    (eq_some_or_of_orElse found).elim (legible.hierarchy value) (legibleParent.hierarchy value)
  generation := legible.generation.merge? legibleParent.generation
  context := legible.context.merge? legibleParent.context
  visitors := legible_completeVisitors legible.visitors legibleParent.visitors
  sorted := isSorted_completeVisitors legibleParent.sorted
  nodeFiles specs found :=
    (eq_some_or_of_orElse found).elim (legible.nodeFiles specs) (legibleParent.nodeFiles specs)

theorem isLegible_ofChain {models : List Settings} (legible : ∀ s ∈ models, s.IsLegible) :
    (ofChain models).IsLegible := by
  induction models with
  | nil => exact isLegible_empty
  | cons s rest ih =>
      obtain ⟨first, others⟩ := List.forall_mem_cons.mp legible
      exact first.complete (ih others)

/-! ### Reading back -/

def fields (s : Settings) : List (String × Option Yaml) :=
  [("nodePrefix", s.nodePrefix.map .text), ("nodePackage", s.nodePackage.map .text),
    ("typeHierarchy", s.hierarchy), ("javaccGen", s.generation.map .map),
    ("templateContext", s.context.map .map),
    ("visitors", if s.visitors.isEmpty then none else
      some (.map (namedEntries (s.visitors.map fun (name, spec) => (name, spec.toYaml))))),
    ("nodeGen", s.nodeFiles.map fun specs =>
      .map (namedEntries [("templates", .list (specs.map FileSpec.toYaml))]))]

theorem toYaml_eq (s : Settings) : s.toYaml = .map (namedEntries (givenFields s.fields)) := by
  obtain ⟨nodePrefix, nodePackage, hierarchy, generation, context, visitors, nodeFiles⟩ := s
  unfold toYaml fields
  simp only [namedEntries_givenFields_cons, Option.map_map, List.append_assoc]
  cases visitors <;> simp [givenFields, namedEntries, Function.comp_def]

theorem nodup_names (s : Settings) : (s.fields.map (·.1)).Nodup := by
  rw [show s.fields.map (·.1) = fieldNames from rfl]
  decide

theorem gives_readVisitors (d : Document) {node : Node} {visitors : Index FileSpec}
    (denotes : node.Denotes
      (.map (namedEntries (visitors.map fun (name, spec) => (name, spec.toYaml)))))
    (legible : ∀ entry ∈ visitors, LegibleMap? visitorDepth entry.2.context)
    (sorted : Index.IsSorted visitors) : Gives (readVisitors d node) visitors := by
  obtain ⟨nodes, each, given⟩ := d.gives_entriesOf denotes
  rw [namedEntries, List.map_map, List.forall₂_map_right_iff] at each
  have specs : Gives (nodes.mapM fun entry => do
      let name ← d.textOf entry.1
      let spec ← FileSpec.ofNode d (fieldDepth - 1) entry.2
      return (name, spec)) visitors := by
    refine .mapM ((forall₂_and_of_forall_right each legible).imp ?_)
    rintro _ _ ⟨⟨name, spec⟩, context⟩
    exact .bind (d.gives_textOf name) (.bind (FileSpec.gives_ofNode d spec context) .pure)
  refine .bind given (.bind specs ?_)
  rw [Index.ofList_eq sorted]
  exact .pure

theorem gives_readNodeFiles (d : Document) {node : Node} {specs : List FileSpec}
    (denotes : node.Denotes
      (.map (namedEntries [("templates", .list (specs.map FileSpec.toYaml))])))
    (legible : ∀ spec ∈ specs, LegibleMap? nodeFileDepth spec.context) :
    Gives (readNodeFiles d node) specs := by
  obtain ⟨fields, denote, given⟩ :=
    d.gives_fieldsOf ["templates"] (by simp) denotes
  refine .bind given ?_
  rcases lookup_of_denotesField denote "templates" with ⟨_, absent⟩ | ⟨n, value, there, look, items⟩
  · cases absent
  · cases look
    obtain ⟨nodes, each, givenItems⟩ := d.gives_itemsOf items
    rw [List.forall₂_map_right_iff] at each
    rw [there]
    refine .bind givenItems (.mapM ((forall₂_and_of_forall_right each legible).imp ?_))
    rintro _ _ ⟨spec, context⟩
    exact FileSpec.gives_ofNode d spec context

/-- The settings with a hierarchy that is null left out. -/
def withoutNull (s : Settings) : Settings :=
  { s with hierarchy := s.hierarchy.filter fun value => !isNull value }

theorem gives_fields {s : Settings} {visitors : Index FileSpec} (isRead : s.visitors = visitors)
    {readPrefix readPackage : Decode (Option String)}
    {readHierarchy : Decode (Option Yaml)} {readGeneration readContext : Decode (Option Entries)}
    {readNodeFiles : Decode (Option (List FileSpec))} (nodePrefix : Gives readPrefix s.nodePrefix)
    (nodePackage : Gives readPackage s.nodePackage) (hierarchy : Gives readHierarchy s.hierarchy)
    (generation : Gives readGeneration s.generation) (context : Gives readContext s.context)
    (nodeFiles : Gives readNodeFiles s.nodeFiles) :
    Gives (do
      return {
        nodePrefix := ← readPrefix
        nodePackage := ← readPackage
        hierarchy := ← readHierarchy
        generation := ← readGeneration
        context := ← readContext
        visitors
        nodeFiles := ← readNodeFiles }) s := by
  subst isRead
  exact .bind nodePrefix (.bind nodePackage (.bind hierarchy (.bind generation (.bind context
    (.bind nodeFiles .pure)))))

theorem gives_ofNode (d : Document) {node : Node} {s : Settings} (legible : s.IsLegible)
    (denotes : node.Denotes s.toYaml) : Gives (ofNode d node) s.withoutNull := by
  rw [toYaml_eq] at denotes
  have distinct := s.nodup_names
  obtain ⟨fields, denote, given⟩ :=
    d.gives_fieldsOf fieldNames ((sublist_givenFields _).nodup distinct) denotes
  have look (i : Nat) {name : String} {value : Option Yaml}
      (there : s.fields[i]? = some (name, value)) :
      (givenFields s.fields).lookup name = value :=
    lookup_givenFields distinct (List.mem_of_getElem? there)
  have nodePrefix := d.gives_field_of_present denote (look 0 rfl) (fun _ => rfl)
    fun _ _ _ => d.gives_textOf
  have nodePackage := d.gives_field_of_present denote (look 1 rfl) (fun _ => rfl)
    fun _ _ _ => d.gives_textOf
  have hierarchy := d.gives_field denote ((look 2 rfl).trans Option.map_id'.symm)
    fun value isValue _ denotes _ => d.gives_value denotes (legible.hierarchy value isValue)
  have generation := d.gives_field_of_present denote (look 3 rfl) (fun _ => rfl)
    fun found isFound _ denotes => d.gives_entriesValue denotes (legible.generation found isFound)
  have context := d.gives_field_of_present denote (look 4 rfl) (fun _ => rfl)
    fun found isFound _ denotes => d.gives_entriesValue denotes (legible.context found isFound)
  have nodeFiles := d.gives_field_of_present denote (look 6 rfl) (fun _ => rfl)
    fun specs isSpecs _ denotes => gives_readNodeFiles d denotes (legible.nodeFiles specs isSpecs)
  have rest {visitors : Index FileSpec} (isRead : s.withoutNull.visitors = visitors) :=
    gives_fields isRead nodePrefix nodePackage hierarchy generation context nodeFiles
  refine .bind given ?_
  dsimp only
  have written := look 5 rfl
  rcases lookup_of_denotesField denote "visitors" with
    ⟨missing, absent⟩ | ⟨n, value, there, found, denotesVisitors⟩
  · rw [missing, pure_bind]
    rw [absent] at written
    split at written
    · next empty => exact rest (List.isEmpty_iff.mp empty)
    · cases written
  · rw [there]
    rw [found] at written
    split at written
    · cases written
    · cases written
      refine .bind (gives_readVisitors d denotesVisitors legible.visitors legible.sorted) ?_
      exact rest rfl

theorem decode_of_gives {α : Type} {d : Document} {steps : Decode α} {found : α}
    (given : Gives steps found) : d.decode steps = .ok found := by
  unfold Document.decode
  rw [given]
  rfl

theorem not_blank_write (s : Settings) : (write s).toList.all Text.isBlank = false := by
  have key : simpleKey? (text "jjtx") = some "jjtx" := by decide +kernel
  have text : write s =
      pad 0 ++ ("jjtx" ++ ":" ++ writeAfter 0 0 false s.toYaml) ++ "" := by
    rw [write, writeMap, if_neg (by simp), writeEntries, writeEntries]
    unfold writeEntry
    rw [key]
  rw [text]
  simp only [String.toList_append, List.all_append, Bool.and_eq_false_iff]
  exact .inl (.inr (.inl (.inl (by decide +kernel))))

theorem read_write {s : Settings} (legible : s.IsLegible)
    (roundTrips : RoundTrips [(.text "jjtx", s.toYaml)]) (file : String) :
    read file (write s) = .ok s.withoutNull := by
  obtain ⟨d, root, document, isRoot, denotes⟩ := roundTrips.document
  have named : root.Denotes (map (namedEntries [("jjtx", s.toYaml)])) := denotes
  obtain ⟨fields, denote, given⟩ := d.gives_fieldsOf ["jjtx"] (by simp) named
  have settings : readText (write s) = .ok s.withoutNull := by
    rw [readText, write, document]
    dsimp only [bind, Except.bind]
    rw [isRoot]
    refine decode_of_gives (.bind given ?_)
    rcases lookup_of_denotesField denote "jjtx" with ⟨_, absent⟩ | ⟨n, value, there, look, map⟩
    · cases absent
    · cases look
      rw [there]
      have present : isNull s.toYaml = false := rfl
      have read := d.gives_optional map fun _ => gives_ofNode d legible map
      rw [present] at read
      exact .bind read .pure
  rw [read, not_blank_write, if_neg Bool.false_ne_true, settings]

theorem withoutNull_eq {s : Settings} (present : s.hierarchy ≠ some .null) :
    s.withoutNull = s := by
  obtain ⟨nodePrefix, nodePackage, hierarchy, generation, context, visitors, nodeFiles⟩ := s
  cases hierarchy with
  | none => rfl
  | some value =>
      cases value with
      | null => exact absurd rfl present
      | _ => rfl

/-- What a chain of option files comes to is read again from the text that is printed for it, if
the nodes of that text are those of the printed value. A hierarchy that is null is left out, and
nothing else is. -/
theorem read_write_ofChain (models : List Settings)
    (parsed : ∀ s ∈ models, ∃ file text, read file text = .ok s)
    (roundTrips : RoundTrips [(.text "jjtx", (ofChain models).toYaml)]) (file : String) :
    let s := ofChain models
    read file (write s) = .ok s.withoutNull ∧
      (s.hierarchy ≠ some .null → s.withoutNull = s) := by
  refine ⟨read_write (isLegible_ofChain fun s mem => ?_) roundTrips file, withoutNull_eq⟩
  obtain ⟨_, _, found⟩ := parsed s mem
  exact holds_read isLegible_empty yields_isLegible found

def ofText (text : String) : Settings :=
  (read "options" text).toOption.getD {}

theorem parsed_ofText {text : String} (isOk : (read "options" text).isOk = true) :
    ∃ file text', read file text' = .ok (ofText text) := by
  refine ⟨"options", text, ?_⟩
  unfold ofText
  cases found : read "options" text with
  | ok s => rfl
  | error fault =>
      rw [found] at isOk
      cases isOk

/-- Two option files, the first one the more important. -/
def sampleChain : List Settings :=
  [ofText "\x7b'jjtx': \x7b'nodePrefix': 12, 'typeHierarchy': [!x ~]\x7d\x7d",
    ofText ("\x7b'jjtx': \x7b'nodePrefix': 'A', " ++
      "'visitors': \x7b'V': \x7b'context': \x7b\x7d\x7d\x7d\x7d\x7d")]

theorem read_write_sampleChain :
    (∀ s ∈ sampleChain, ∃ file text, read file text = .ok s) ∧
      RoundTrips [(.text "jjtx", (ofChain sampleChain).toYaml)] ∧
      read "dump" (write (ofChain sampleChain)) = .ok (ofChain sampleChain) ∧
      (ofChain sampleChain).nodePrefix = some "12" := by
  have parsed : ∀ s ∈ sampleChain, ∃ file text, read file text = .ok s :=
    List.forall_mem_cons.mpr ⟨parsed_ofText (by decide +kernel),
      List.forall_mem_singleton.mpr (parsed_ofText (by decide +kernel))⟩
  have roundTrips : RoundTrips [(.text "jjtx", (ofChain sampleChain).toYaml)] := by
    decide +kernel
  have present : (ofChain sampleChain).hierarchy ≠ some .null := by decide +kernel
  obtain ⟨readBack, same⟩ := read_write_ofChain sampleChain parsed roundTrips "dump"
  rw [same present] at readBack
  exact ⟨parsed, roundTrips, readBack, by decide +kernel⟩

def nullHierarchy : Settings :=
  ofText "jjtx:\n  typeHierarchy: !!null \"null\"\n"

/-- Not every chain of option files comes back as it is: what is printed as null is missing. -/
theorem not_kept_null :
    ¬ ∀ models : List Settings, (∀ s ∈ models, ∃ file text, read file text = .ok s) →
      RoundTrips [(.text "jjtx", (ofChain models).toYaml)] → ∀ file,
        ∃ t, read file (write (ofChain models)) = .ok t ∧
          t.hierarchy.isSome = (ofChain models).hierarchy.isSome := by
  intro claim
  have parsed : ∀ s ∈ [nullHierarchy], ∃ file text, read file text = .ok s :=
    List.forall_mem_singleton.mpr (parsed_ofText (by decide +kernel))
  obtain ⟨t, found, same⟩ := claim [nullHierarchy] parsed (by decide +kernel) "options"
  have printed : write (ofChain [nullHierarchy]) = "jjtx:\n  typeHierarchy: null\n" := by
    decide +kernel
  have missing : (ofText "jjtx:\n  typeHierarchy: null\n").hierarchy.isSome = false := by
    decide +kernel
  have present : (ofChain [nullHierarchy]).hierarchy.isSome = true := by decide +kernel
  rw [printed] at found
  rw [ofText, found] at missing
  rw [present] at same
  exact Bool.false_ne_true (missing.symm.trans same)

end Settings

end NodeWeave
