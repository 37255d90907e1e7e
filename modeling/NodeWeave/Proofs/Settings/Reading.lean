import Mathlib.Data.String.Basic
import NodeWeave.Proofs.Yaml.Reading
import NodeWeave.Settings.Reader

/-! Settings that are read: their maps are well-formed, and no visitor is there twice. -/

namespace NodeWeave

namespace Index

variable {α : Type} {index : Index α}

def IsSorted (index : Index α) : Prop :=
  index.Pairwise fun first second => first.1 < second.1

theorem mem_insert {name : String} {value : α} {entry : String × α}
    (mem : entry ∈ insert name value index) : entry = (name, value) ∨ entry ∈ index := by
  induction index with
  | nil => exact .inl (List.mem_singleton.mp mem)
  | cons first rest ih =>
      obtain ⟨other, old⟩ := first
      rw [insert] at mem
      split at mem
      · exact List.mem_cons.mp mem
      · split at mem
        · exact (List.mem_cons.mp mem).imp_right (List.mem_cons_of_mem _)
        · rcases List.mem_cons.mp mem with rfl | later
          · exact .inr List.mem_cons_self
          · exact (ih later).imp_right (List.mem_cons_of_mem _)

theorem IsSorted.insert (sorted : IsSorted index) (name : String) (value : α) :
    IsSorted (insert name value index) := by
  induction index with
  | nil => exact List.pairwise_singleton _ _
  | cons first rest ih =>
      obtain ⟨other, old⟩ := first
      obtain ⟨before, sortedRest⟩ := List.pairwise_cons.mp sorted
      rw [Index.insert]
      split
      · next less =>
          refine List.pairwise_cons.mpr ⟨?_, sorted⟩
          exact List.forall_mem_cons.mpr ⟨less, fun entry mem => less.trans (before entry mem)⟩
      · next notLess =>
          split
          · next same =>
              subst same
              exact List.pairwise_cons.mpr ⟨before, sortedRest⟩
          · next differ =>
              refine List.pairwise_cons.mpr ⟨fun entry mem => ?_, ih sortedRest⟩
              rcases mem_insert mem with rfl | later
              · exact lt_of_le_of_ne (not_lt.mp notLess) (Ne.symm differ)
              · exact before entry later

theorem isSorted_foldl {β : Type} {step : Index α → β → Index α}
    (keeps : ∀ index item, IsSorted index → IsSorted (step index item))
    (sorted : IsSorted index) (items : List β) : IsSorted (items.foldl step index) := by
  induction items generalizing index with
  | nil => exact sorted
  | cons item rest ih => exact ih (keeps index item sorted)

theorem isSorted_ofList (values : List (String × α)) : IsSorted (ofList values) :=
  isSorted_foldl (fun _ entry sorted => sorted.insert entry.1 entry.2) List.Pairwise.nil values

theorem nodup_names (sorted : IsSorted index) : index.names.Nodup :=
  List.pairwise_map.mpr (sorted.imp fun less => less.ne)

theorem mem_of_mem_ofList {values : List (String × α)} {entry : String × α}
    (mem : entry ∈ ofList values) : entry ∈ values := by
  have folded : ∀ (values : List (String × α)) (index : Index α),
      entry ∈ values.foldl (fun index entry => insert entry.1 entry.2 index) index →
        entry ∈ values ∨ entry ∈ index := by
    intro values
    induction values with
    | nil => exact fun _ mem => .inr mem
    | cons first rest ih =>
        intro index mem
        rcases ih _ mem with later | before
        · exact .inl (List.mem_cons_of_mem _ later)
        · rcases mem_insert before with rfl | old
          · exact .inl List.mem_cons_self
          · exact .inr old
  exact (folded values [] mem).resolve_right List.not_mem_nil

end Index

open Yaml

/-- The maps of an optional field are well-formed. -/
def Yaml.IsMapping? (entries : Option Entries) : Prop :=
  ∀ found, entries = some found → IsMapping found

structure Settings.IsWellFormed (s : Settings) : Prop where
  generation : IsMapping? s.generation
  context : IsMapping? s.context
  visitors : ∀ entry ∈ s.visitors, IsMapping? entry.2.context
  sorted : Index.IsSorted s.visitors

theorem Settings.isWellFormed_empty : IsWellFormed {} where
  generation := nofun
  context := nofun
  visitors := List.forall_mem_nil _
  sorted := List.Pairwise.nil

namespace Yaml.Document

variable (d : Document)

theorem yields_optional {α : Type} {P : α → Prop} {read : Node → Decode α}
    (each : ∀ node, Yields P (read node)) (node : Node) :
    Yields (fun value => ∀ found, value = some found → P found) (d.optional read node) := by
  refine .bind_any fun isAbsent => ?_
  split
  · exact .pure nofun
  · refine .bind (each node) fun value holds => .pure ?_
    rintro _ ⟨⟩
    exact holds

theorem yields_field {α : Type} {P : α → Prop} {read : Node → Decode α}
    (each : ∀ node, Yields P (read node)) (fields : List (String × Node)) (name : String) :
    Yields (fun value => ∀ found, value = some found → P found)
      (match fields.lookup name with
      | some n => d.optional read n
      | none => pure none) := by
  split
  · exact d.yields_optional each _
  · exact .pure nofun

end Yaml.Document

namespace FileSpec

theorem yields_ofNode (d : Document) (depth : Nat) (node : Node) :
    Yields (fun spec => IsMapping? spec.context) (ofNode d depth node) := by
  refine .bind_any fun fields => ?_
  refine .bind_any fun execute => .bind_any fun template => .bind_any fun templateFile =>
    .bind_any fun className => ?_
  refine .bind (d.yields_field (d.yields_entriesValue _) fields "context") fun _ mapping => ?_
  exact .pure mapping

end FileSpec

namespace Settings

theorem yields_readVisitors (d : Document) (node : Node) :
    Yields (fun visitors => (∀ entry ∈ visitors, IsMapping? entry.2.context) ∧
      Index.IsSorted visitors) (readVisitors d node) := by
  refine .bind_any fun entries => ?_
  have each (entry : Node × Node) : Yields (fun named => IsMapping? named.2.context)
      (do
        let name ← d.textOf entry.1
        let spec ← FileSpec.ofNode d (fieldDepth - 1) entry.2
        return (name, spec)) :=
    .bind_any fun name => .bind (FileSpec.yields_ofNode d _ _) fun spec mapping => .pure mapping
  refine .bind (.mapM each) fun specs mappings => .pure ⟨?_, Index.isSorted_ofList _⟩
  exact fun entry mem => mappings entry (Index.mem_of_mem_ofList mem)

theorem yields_fields {P : Settings → Prop} {H : Option Yaml → Prop} {G C : Option Entries → Prop}
    {N : Option (List FileSpec) → Prop} {visitors : Index FileSpec}
    {readPrefix readPackage : Decode (Option String)} {readHierarchy : Decode (Option Yaml)}
    {readGeneration readContext : Decode (Option Entries)}
    {readNodeFiles : Decode (Option (List FileSpec))}
    (hierarchy : Yields H readHierarchy) (generation : Yields G readGeneration)
    (context : Yields C readContext) (nodeFiles : Yields N readNodeFiles)
    (made : ∀ s : Settings, s.visitors = visitors → H s.hierarchy → G s.generation →
      C s.context → N s.nodeFiles → P s) :
    Yields P (do
      return {
        nodePrefix := ← readPrefix
        nodePackage := ← readPackage
        hierarchy := ← readHierarchy
        generation := ← readGeneration
        context := ← readContext
        visitors
        nodeFiles := ← readNodeFiles }) :=
  .bind_any fun _ => .bind_any fun _ => .bind hierarchy fun _ hierarchyRead =>
    .bind generation fun _ generationRead => .bind context fun _ contextRead =>
      .bind nodeFiles fun _ nodeFilesRead =>
        .pure (made _ rfl hierarchyRead generationRead contextRead nodeFilesRead)

theorem yields_ofNode (d : Document) (node : Node) : Yields IsWellFormed (ofNode d node) := by
  refine .bind_any fun fields => ?_
  have entriesOf (name : String) := d.yields_field (d.yields_entriesValue fieldDepth) fields name
  have rest {visitors : Index FileSpec}
      (read : (∀ entry ∈ visitors, IsMapping? entry.2.context) ∧ Index.IsSorted visitors)
      (s : Settings) (isRead : s.visitors = visitors) (generation : IsMapping? s.generation)
      (context : IsMapping? s.context) : s.IsWellFormed := by
    subst isRead
    exact ⟨generation, context, read.1, read.2⟩
  dsimp only
  split
  · refine .bind (yields_readVisitors d _) fun visitors read => ?_
    exact yields_fields .any (entriesOf "javaccGen") (entriesOf "templateContext") .any
      fun s isRead _ generation context _ => rest read s isRead generation context
  · rw [pure_bind]
    exact yields_fields .any (entriesOf "javaccGen") (entriesOf "templateContext") .any
      fun s isRead _ generation context _ =>
        rest ⟨List.forall_mem_nil _, List.Pairwise.nil⟩ s isRead generation context

theorem yields_decode {α : Type} {P : α → Prop} {d : Document} {steps : Decode α}
    (yields : Yields P steps) {found : α} (read : d.decode steps = .ok found) : P found := by
  unfold Document.decode at read
  cases run : steps.run (100 * d.size) with
  | error problem =>
      rw [run] at read
      cases read
  | ok pair =>
      rw [run] at read
      cases read
      exact yields _ _ _ run

/-- What holds of empty settings and of all that are read from a node holds of those of a text. -/
theorem holds_readText {P : Settings → Prop} (empty : P {})
    (yields : ∀ d node, Yields P (ofNode d node)) {text : String} {s : Settings}
    (read : readText text = .ok s) : P s := by
  unfold readText at read
  cases document : Document.read text with
  | error problem =>
      rw [document] at read
      cases read
  | ok d =>
      rw [document] at read
      dsimp only [bind, Except.bind] at read
      split at read
      · cases read
        exact empty
      · refine yields_decode ?_ read
        refine .bind_any fun fields => ?_
        split
        · refine .bind (d.yields_optional (yields d) _) fun found holds => .pure ?_
          cases found with
          | none => exact empty
          | some s => exact holds s rfl
        · exact .pure empty

theorem holds_read {P : Settings → Prop} (empty : P {})
    (yields : ∀ d node, Yields P (ofNode d node)) {file text : String} {s : Settings}
    (found : read file text = .ok s) : P s := by
  unfold read at found
  split at found
  · cases found
    exact empty
  · split at found
    · next read =>
        cases found
        exact holds_readText empty yields read
    · cases found

theorem isWellFormed_read {file text : String} {s : Settings} (found : read file text = .ok s) :
    s.IsWellFormed :=
  holds_read isWellFormed_empty yields_ofNode found

end Settings

end NodeWeave
