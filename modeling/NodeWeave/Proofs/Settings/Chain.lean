import Mathlib.Data.List.Forall2
import NodeWeave.Generation.Source
import NodeWeave.Proofs.Settings.Reading
import NodeWeave.Settings.Chain

/-!
What a chain of option files says. A field is that of the first file that has it, maps are merged
key by key, and visitors are completed by those of the same name.
-/

namespace NodeWeave

open Yaml

section

variable {α β : Type} {complete : β → β → β} {empty : β}

theorem foldr_eq_findSome? {get : β → Option α} (nothing : get empty = none)
    (step : ∀ item parent, get (complete item parent) = (get item <|> get parent))
    (items : List β) : get (items.foldr complete empty) = items.findSome? get := by
  induction items with
  | nil => exact nothing
  | cons item rest ih =>
      rw [List.foldr_cons, step, ih, List.findSome?_cons]
      cases get item <;> rfl

theorem mergedFrom?_of_merge? {get : β → Option Entries} (nothing : get empty = none)
    (step : ∀ item parent, get (complete item parent) = merge? (get item) (get parent))
    {items : List β} (mappings : ∀ item ∈ items, IsMapping? (get item)) :
    MergedFrom? (items.filterMap get) (get (items.foldr complete empty)) := by
  have same : get (items.foldr complete empty) =
      items.foldr (fun item => merge? (get item)) none := by
    clear mappings
    induction items with
    | nil => exact nothing
    | cons item rest ih => rw [List.foldr_cons, step, ih, List.foldr_cons]
  rw [same]
  exact (mergedFrom?_foldr get mappings).2

end

namespace FileSpec

/-- Where the text of the template comes from, if anything is said of it. -/
def source? (spec : FileSpec) : Option TemplateSource :=
  TemplateSource.ofFields? spec.template spec.templateFile

/-- What a list of specifications comes to, the most important one first. -/
structure ResolvesInOrder (specs : List FileSpec) (spec : FileSpec) : Prop where
  execute : spec.execute = specs.findSome? FileSpec.execute
  className : spec.className = specs.findSome? FileSpec.className
  source : spec.source? = (specs.find? hasTemplate).bind source?
  context : MergedFrom? (specs.filterMap FileSpec.context) spec.context

def ofChain (specs : List FileSpec) : FileSpec :=
  specs.foldr complete {}

theorem source?_complete (spec parent : FileSpec) :
    (spec.complete parent).source? = if spec.hasTemplate then spec.source? else parent.source? := by
  unfold source? complete
  dsimp only
  split <;> rfl

theorem source?_ofChain (specs : List FileSpec) :
    (ofChain specs).source? = (specs.find? hasTemplate).bind source? := by
  induction specs with
  | nil => rfl
  | cons spec rest ih =>
      rw [ofChain, List.foldr_cons, source?_complete, List.find?_cons]
      cases spec.hasTemplate with
      | true => rfl
      | false => exact ih

theorem resolvesInOrder_ofChain {specs : List FileSpec}
    (mappings : ∀ spec ∈ specs, IsMapping? spec.context) :
    ResolvesInOrder specs (ofChain specs) where
  execute := foldr_eq_findSome? rfl (fun _ _ => rfl) specs
  className := foldr_eq_findSome? rfl (fun _ _ => rfl) specs
  source := source?_ofChain specs
  context := mergedFrom?_of_merge? rfl (fun _ _ => rfl) mappings

end FileSpec

namespace Settings

def specOf? (name : String) (s : Settings) : Option FileSpec :=
  s.visitors.lookup name

/-- What a chain of settings comes to, the most important ones first. -/
structure ResolvesInOrder (chain : List Settings) (s : Settings) : Prop where
  nodePrefix : s.nodePrefix = chain.findSome? Settings.nodePrefix
  nodePackage : s.nodePackage = chain.findSome? Settings.nodePackage
  hierarchy : s.hierarchy = chain.findSome? Settings.hierarchy
  nodeFiles : s.nodeFiles = chain.findSome? Settings.nodeFiles
  generation : MergedFrom? (chain.filterMap Settings.generation) s.generation
  context : MergedFrom? (chain.filterMap Settings.context) s.context
  distinct : s.visitors.names.Nodup
  names : ∀ name, name ∈ s.visitors.names ↔ ∃ member ∈ chain, name ∈ member.visitors.names
  visitors : ∀ name spec, s.specOf? name = some spec →
    FileSpec.ResolvesInOrder (chain.filterMap (specOf? name)) spec

/-! ### Visitors -/

/-- What stands at a name after completing, by what the two indices have there. -/
def completed : Option FileSpec → Option FileSpec → Option FileSpec
  | none, inherited => inherited
  | some own, inherited => some (own.complete (inherited.getD {}))

theorem isSorted_completeVisitors {visitors parent : Index FileSpec}
    (sorted : Index.IsSorted parent) : Index.IsSorted (completeVisitors visitors parent) :=
  Index.isSorted_foldl (fun _ entry sorted => sorted.insert entry.1 _) sorted visitors

theorem completeVisitors_cons (name : String) (spec : FileSpec) (rest parent : Index FileSpec) :
    completeVisitors ((name, spec) :: rest) parent =
      completeVisitors rest
        (Index.insert name (spec.complete ((parent.lookup name).getD {})) parent) := by
  unfold completeVisitors
  rw [List.foldl_cons]
  cases found : parent.lookup name with
  | some inherited => simp only [found, Option.getD_some]
  | none => simp only [found, Option.getD_none, FileSpec.complete_empty]

theorem lookup_completeVisitors {visitors : Index FileSpec} (sorted : Index.IsSorted visitors)
    (parent : Index FileSpec) (name : String) :
    (completeVisitors visitors parent).lookup name =
      completed (visitors.lookup name) (parent.lookup name) := by
  induction visitors generalizing parent with
  | nil => rfl
  | cons entry rest ih =>
      obtain ⟨other, spec⟩ := entry
      obtain ⟨before, sortedRest⟩ := List.pairwise_cons.mp sorted
      rw [completeVisitors_cons, ih sortedRest, List.lookup_cons]
      by_cases same : name = other
      · subst same
        have absent : rest.lookup name = none := by
          refine List.lookup_eq_none_iff.mpr fun entry mem => ?_
          exact bne_iff_ne.mpr (before entry mem).ne
        rw [absent, Index.lookup_insert_self, beq_self_eq_true]
        rfl
      · rw [Index.lookup_insert_of_ne same, beq_eq_false_iff_ne.mpr same]

theorem isSorted_ofChain {chain : List Settings} (read : ∀ s ∈ chain, s.IsWellFormed) :
    Index.IsSorted (ofChain chain).visitors := by
  induction chain with
  | nil => exact List.Pairwise.nil
  | cons s rest ih => exact isSorted_completeVisitors (ih (List.forall_mem_cons.mp read).2)

/-- The specification of a visitor is made of those that members of the chain have. -/
theorem specOf?_ofChain {chain : List Settings} (read : ∀ s ∈ chain, s.IsWellFormed)
    (name : String) :
    (ofChain chain).specOf? name =
      match chain.filterMap (specOf? name) with
      | [] => none
      | spec :: specs => some (FileSpec.ofChain (spec :: specs)) := by
  induction chain with
  | nil => rfl
  | cons s rest ih =>
      obtain ⟨readFirst, readRest⟩ := List.forall_mem_cons.mp read
      have look : (ofChain (s :: rest)).specOf? name =
          completed (s.specOf? name) ((ofChain rest).specOf? name) :=
        lookup_completeVisitors readFirst.sorted _ name
      rw [look, ih readRest]
      cases own : s.specOf? name with
      | none => rw [List.filterMap_cons_none own, completed]
      | some spec =>
          rw [List.filterMap_cons_some own]
          cases rest.filterMap (specOf? name) with
          | nil => rfl
          | cons next others => rfl

theorem mem_names_iff {s : Settings} {name : String} :
    name ∈ s.visitors.names ↔ (s.specOf? name).isSome = true := by
  rw [← Option.ne_none_iff_isSome, specOf?, ne_eq, List.lookup_eq_none_iff]
  simp [Index.names]

theorem mem_of_specOf? {s : Settings} {name : String} {spec : FileSpec}
    (found : s.specOf? name = some spec) : (name, spec) ∈ s.visitors := by
  obtain ⟨front, back, split, _⟩ := List.lookup_eq_some_iff.mp found
  rw [split]
  exact List.mem_append_right _ List.mem_cons_self

/-! ### Chains -/

theorem resolvesInOrder_ofChain {chain : List Settings} (read : ∀ s ∈ chain, s.IsWellFormed) :
    ResolvesInOrder chain (ofChain chain) where
  nodePrefix := foldr_eq_findSome? rfl (fun _ _ => rfl) chain
  nodePackage := foldr_eq_findSome? rfl (fun _ _ => rfl) chain
  hierarchy := foldr_eq_findSome? rfl (fun _ _ => rfl) chain
  nodeFiles := foldr_eq_findSome? rfl (fun _ _ => rfl) chain
  generation := mergedFrom?_of_merge? rfl (fun _ _ => rfl) fun s mem => (read s mem).generation
  context := mergedFrom?_of_merge? rfl (fun _ _ => rfl) fun s mem => (read s mem).context
  distinct := Index.nodup_names (isSorted_ofChain read)
  names name := by
    simp only [mem_names_iff]
    rw [specOf?_ofChain read]
    cases listed : chain.filterMap (specOf? name) with
    | nil => simpa using listed
    | cons first rest =>
        have mem : first ∈ chain.filterMap (specOf? name) := listed ▸ List.mem_cons_self
        obtain ⟨member, inChain, found⟩ := List.mem_filterMap.mp mem
        exact iff_of_true rfl ⟨member, inChain, found ▸ rfl⟩
  visitors name spec found := by
    rw [specOf?_ofChain read] at found
    split at found
    · cases found
    · next first rest listed =>
        cases found
        rw [← listed]
        refine FileSpec.resolvesInOrder_ofChain fun spec mem => ?_
        obtain ⟨s, inChain, there⟩ := List.mem_filterMap.mp mem
        exact (read s inChain).visitors _ (mem_of_specOf? there)

/-! ### Loading -/

def Loads (tools : Toolbox) (files : Files) (path : String) (s : Settings) : Prop :=
  ((loadFile path).run tools files).value = .ok s

theorem files_loadFile (tools : Toolbox) (files : Files) (path : String) :
    ((loadFile path).run tools files).files = files := by
  unfold loadFile Work.readFile
  rw [Work.bind_eq, Work.run_bind, Work.run]
  cases files.read path <;> rfl

theorem loadOnto_of_loads {tools : Toolbox} {files : Files} {paths : List String}
    {models : List Settings} (loads : List.Forall₂ (Loads tools files) paths models)
    (start : Settings) :
    ((loadOnto paths start).run tools files).value =
      .ok (models.foldl (fun parent s => s.complete parent) start) := by
  induction loads generalizing start with
  | nil => rfl
  | @cons path s paths models first _ ih =>
      rw [loadOnto, Work.bind_eq, Work.run_bind]
      dsimp only
      rw [show ((loadFile path).run tools files).value = .ok s from first, files_loadFile]
      exact ih (s.complete start)

theorem loadChain_of_loads {tools : Toolbox} {files : Files} {paths : List String}
    {models : List Settings} (loads : List.Forall₂ (Loads tools files) paths models) :
    ((loadChain paths).run tools files).value = .ok (ofChain models) := by
  rw [loadChain, loadOnto_of_loads (List.forall₂_reverse_iff.mpr loads), List.foldl_reverse]
  rfl

/-- A chain of option files that can be read is loaded. Every setting is that of the first file
that has it; maps are merged key by key. -/
theorem loadChain_resolvesInOrder (models : List Settings)
    (parsed : ∀ s ∈ models, ∃ file text, read file text = .ok s) :
    ResolvesInOrder models (ofChain models) ∧
      ∀ tools files paths, List.Forall₂ (Loads tools files) paths models →
        ((loadChain paths).run tools files).value = .ok (ofChain models) := by
  refine ⟨resolvesInOrder_ofChain fun s mem => ?_, fun _ _ _ => loadChain_of_loads⟩
  obtain ⟨file, text, found⟩ := parsed s mem
  exact isWellFormed_read found

/-- Two option files, the first one the more important. -/
def sampleFiles : Files :=
  let first := "\x7b'jjtx': \x7b'nodePrefix': 'My', " ++
    "'templateContext': \x7b'a': \x7b'x': 'own'\x7d\x7d\x7d\x7d"
  let second := "\x7b'jjtx': \x7b'nodePrefix': 'No', " ++
    "'templateContext': \x7b'a': \x7b'x': '', 'y': ''\x7d\x7d\x7d\x7d"
  ((Files.startingAt ["work"]).add "first" first false).add "second" second false

def sample (path : String) : Settings :=
  ((loadFile path).run .nothing sampleFiles).value.toOption.getD {}

theorem loads_sample {path : String}
    (isOk : ((loadFile path).run .nothing sampleFiles).value.isOk = true) :
    Loads .nothing sampleFiles path (sample path) := by
  unfold Loads sample
  cases found : ((loadFile path).run .nothing sampleFiles).value with
  | ok s => rfl
  | error fault =>
      rw [found] at isOk
      cases isOk

theorem parsed_of_loads {tools : Toolbox} {files : Files} {path : String} {s : Settings}
    (loads : Loads tools files path s) : ∃ file text, read file text = .ok s := by
  unfold Loads loadFile Work.readFile at loads
  rw [Work.bind_eq, Work.run_bind, Work.run] at loads
  cases found : files.read path with
  | error problem =>
      rw [found] at loads
      cases loads
  | ok text =>
      rw [found] at loads
      exact ⟨path, text, loads⟩

theorem loadChain_resolvesInOrder_sample :
    let models := [sample "first", sample "second"]
    (∀ s ∈ models, ∃ file text, read file text = .ok s) ∧
      List.Forall₂ (Loads .nothing sampleFiles) ["first", "second"] models ∧
      ResolvesInOrder models (ofChain models) ∧
      ((loadChain ["first", "second"]).run .nothing sampleFiles).value = .ok (ofChain models) ∧
      (ofChain models).nodePrefix = some "My" ∧
      ((ofChain models).context.map fun entries => same (.map entries)
        (.map [(text "a", .map [(text "x", text "own"), (text "y", text "")])])) = some true := by
  have first : Loads .nothing sampleFiles "first" (sample "first") :=
    loads_sample (by decide +kernel)
  have second : Loads .nothing sampleFiles "second" (sample "second") :=
    loads_sample (by decide +kernel)
  have parsed : ∀ s ∈ [sample "first", sample "second"], ∃ file text, read file text = .ok s :=
    List.forall_mem_cons.mpr
      ⟨parsed_of_loads first, List.forall_mem_singleton.mpr (parsed_of_loads second)⟩
  have loads : List.Forall₂ (Loads .nothing sampleFiles) ["first", "second"]
      [sample "first", sample "second"] := .cons first (.cons second .nil)
  obtain ⟨resolves, loaded⟩ := loadChain_resolvesInOrder _ parsed
  exact ⟨parsed, loads, resolves, loaded _ _ _ loads, by decide +kernel, by decide +kernel⟩

end Settings

end NodeWeave
