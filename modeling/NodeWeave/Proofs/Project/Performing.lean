import NodeWeave.Project.Run
import NodeWeave.Proofs.Hierarchy.Diagnostics

/-!
What one task does to the state of a run, whatever its requests are answered. A task may resolve
the hierarchy first; apart from that, it says nothing on hierarchies.
-/

namespace NodeWeave

def Report.IsOffHierarchy (report : Report) : Prop :=
  report.isOfHierarchy = false

/-- A parser generator makes no reports of its own; it comes to files or to a fault. -/
def Compiler.IsQuiet (compiler : Compiler) : Prop :=
  ∀ grammar, (compiler.compile grammar).TellsOnly fun _ => False

theorem Compiler.isQuiet_ofProgram (program : String) : (ofProgram program).IsQuiet :=
  fun _ => .runTool fun _ => .done _

open Work (comes_done comes_tell comes_bind)

/-! ### Work that does not resolve -/

theorem TemplateSource.isOffHierarchy_load (directory : String) (source : TemplateSource) :
    (source.load directory).TellsOnly Report.IsOffHierarchy := by
  cases source with
  | inline text => exact .done _
  | file path => exact .readFile _

namespace ClassJob

variable (job : ClassJob) (place : GenerationPlace)

theorem isOffHierarchy_generate (name : String) :
    (job.generate place name).TellsOnly Report.IsOffHierarchy := by
  refine .bind (job.source.isOffHierarchy_load _) fun loaded => ?_
  split
  · exact .done _
  · split
    · exact .done _
    · dsimp only
      refine .bind (.writeWithParents _ _) fun written => ?_
      split
      · exact .done _
      · exact .bind (.report rfl) fun _ => .done _

theorem isOffHierarchy_execute : (job.execute place).TellsOnly Report.IsOffHierarchy := by
  unfold execute
  split
  · exact .done _
  · refine .bind (.findFirst? (fun root => .isFile _) _) fun found => ?_
    split
    · exact .bind (.report rfl) fun _ => .done _
    · exact job.isOffHierarchy_generate place _

end ClassJob

namespace Generation

theorem isOffHierarchy_executeAll (place : GenerationPlace) (jobs : List ClassJob) :
    (executeAll place jobs).TellsOnly Report.IsOffHierarchy := by
  induction jobs with
  | nil => exact .done _
  | cons job rest ih =>
      exact .bind (job.isOffHierarchy_execute place) fun _ => .bind ih fun _ => .done _

theorem isOffHierarchy_of_mem_failures {results : List (ClassJob × Except Fault ClassResult)}
    {report : Report} (mem : report ∈ failures results) : report.IsOffHierarchy := by
  obtain ⟨⟨job, result⟩, -, made⟩ := List.mem_filterMap.mp mem
  cases result with
  | ok result => cases made
  | error fault =>
      cases made
      rfl

theorem isOffHierarchy_of_mem_summary {place : GenerationPlace} {count : GenerationCount}
    {report : Report} (mem : report ∈ summary place count) : report.IsOffHierarchy := by
  have one : ∀ {condition : Prop} [Decidable condition] {message : String},
      report ∈ (if condition then [] else [Report.normal message]) →
        report.IsOffHierarchy := by
    intro condition _ message mem
    split at mem
    · cases mem
    · rw [List.mem_singleton.mp mem]
      rfl
  rcases List.mem_append.mp mem with mem | mem
  · rcases List.mem_append.mp mem with mem | mem
    · exact one mem
    · exact one mem
  · exact one mem

theorem isOffHierarchy_runAll (place : GenerationPlace) (jobs : List ClassJob) :
    (runAll place jobs).TellsOnly Report.IsOffHierarchy := by
  refine .bind (isOffHierarchy_executeAll place jobs) fun results => .tell ?_ (.done _)
  intro report mem
  rcases List.mem_append.mp mem with mem | mem
  · exact isOffHierarchy_of_mem_failures mem
  · exact isOffHierarchy_of_mem_summary mem

end Generation

namespace Compiler

theorem isOffHierarchy_shareAll (output : String) (sourceRoots : List String)
    (produced : List (Route × String)) :
    (shareAll output sourceRoots produced).TellsOnly Report.IsOffHierarchy := by
  induction produced with
  | nil => exact .done _
  | cons file rest ih =>
      refine .bind (.findFirst? (fun root => .isFile _) _) fun found => ?_
      split
      · exact .bind (.report rfl) fun _ => .bind ih fun _ => .done _
      · refine .bind (.isThere _) fun isThere => ?_
        split
        · exact .bind (.report rfl) fun _ => .bind ih fun _ => .done _
        · refine .bind (.writeWithParents _ _) fun written => ?_
          split
          · exact .done _
          · exact .bind ih fun _ => .done _

theorem IsQuiet.isOffHierarchy_run {compiler : Compiler} (quiet : compiler.IsQuiet)
    (grammar output : String) (sourceRoots : List String) :
    (compiler.run grammar output sourceRoots).TellsOnly Report.IsOffHierarchy := by
  refine .bind ((quiet grammar).mono fun _ => False.elim) fun compiled => ?_
  split
  · exact .done _
  · refine .bind (isOffHierarchy_shareAll output sourceRoots _) fun shared => ?_
    split
    · exact .done _
    · exact .bind (.report rfl) fun _ => .done _

end Compiler

namespace Project

variable (p : Project)

theorem isOffHierarchy_writeWoven : p.writeWoven.TellsOnly Report.IsOffHierarchy := by
  unfold writeWoven
  refine .bind (.writeWithParents _ _) fun written => ?_
  split
  · exact .done _
  · exact .bind (.report rfl) fun _ => .done _

theorem isOffHierarchy_allNodeJobs (view : Json) (index : Nat) (specs : List FileSpec) :
    (p.allNodeJobs view index specs).TellsOnly Report.IsOffHierarchy := by
  induction specs generalizing index with
  | nil => exact .pure _
  | cons spec rest ih =>
      rw [allNodeJobs]
      split
      · exact .bind (.tell rfl) (ih _)
      · exact .bind (ih _) (.pure _)

theorem isOffHierarchy_fileJobs (view : Json) (kind : String) (specs : List (String × FileSpec)) :
    (p.fileJobs view kind specs).TellsOnly Report.IsOffHierarchy := by
  induction specs with
  | nil => exact .pure _
  | cons spec rest ih =>
      rw [fileJobs]
      split
      · exact .bind ih (.pure _)
      · exact .bind (.tell rfl) ih

theorem isOffHierarchy_enabledVisitors (visitors : Index FileSpec) :
    (enabledVisitors visitors).TellsOnly Report.IsOffHierarchy := by
  induction visitors with
  | nil => exact .pure _
  | cons visitor rest ih =>
      rw [enabledVisitors]
      split
      · exact .bind ih (.pure _)
      · exact .bind (.tell rfl) ih

theorem isOffHierarchy_generateNodes (view : Json) :
    (p.generateNodes view).TellsOnly Report.IsOffHierarchy := by
  unfold generateNodes
  split
  · exact .bind (.report rfl) fun _ => .done _
  · exact .bind (.ofReported (p.isOffHierarchy_allNodeJobs view 0 _)) fun jobs =>
      Generation.isOffHierarchy_runAll p.place jobs

theorem isOffHierarchy_generateVisitors (view : Json) :
    (p.generateVisitors view).TellsOnly Report.IsOffHierarchy :=
  .bind (.ofReported (isOffHierarchy_enabledVisitors _)) fun visitors =>
    .bind (.ofReported (p.isOffHierarchy_fileJobs view "visitor" visitors)) fun jobs =>
      Generation.isOffHierarchy_runAll p.place jobs

theorem isOffHierarchy_generateSupport (view : Json) :
    (p.generateSupport view).TellsOnly Report.IsOffHierarchy := by
  unfold generateSupport
  split
  · exact .done _
  · exact .bind (.ofReported (p.isOffHierarchy_fileJobs view "support file" _)) fun jobs =>
      .bind (Generation.isOffHierarchy_runAll p.place jobs) fun _ => .done _

/-! ### What a task may do -/

/-- Between two states, the hierarchy was resolved, or the view stays as it is. Resolving is said
at once. -/
inductive Resolving (before after : RunState) : List Report → Prop where
  | needless : after.view = before.view → Resolving before after []
  | first : before.view = none → after.view = some p.view.value →
      Resolving before after p.view.reports

/-- A task keeps the tasks that failed before it, and resolves where nothing is remembered. -/
structure Performs (before after : RunState) (reports : List Report) : Prop where
  failed : after.failed = before.failed
  resolving : ∃ said own, reports = said ++ own ∧ p.Resolving before after said ∧
    (p.compiler.IsQuiet → ∀ report ∈ own, report.IsOffHierarchy)

variable {p}

theorem comes_needView {before after : RunState} {view : Json} {reports : List Report}
    (comes : (p.needView before).Comes (after, view) reports) :
    after.failed = before.failed ∧ p.Resolving before after reports := by
  unfold needView at comes
  split at comes
  · next remembered =>
      obtain ⟨same, rfl⟩ := comes_done.mp comes
      cases same
      exact ⟨rfl, .needless rfl⟩
  · next unknown =>
      obtain ⟨later, last, rfl⟩ := comes_tell.mp comes
      obtain ⟨same, rfl⟩ := comes_done.mp last
      cases same
      rw [List.append_nil]
      exact ⟨rfl, .first unknown rfl⟩

/-- A task that resolves first and then works with the view. -/
theorem performs_of_needView {before after : RunState} {result : Except Fault Unit}
    {reports : List Report} {next : RunState × Json → Work (RunState × Except Fault Unit)}
    (comes : (p.needView before >>= next).Comes (after, result) reports)
    (off : ∀ found, (next found).TellsOnly Report.IsOffHierarchy)
    (keeps : ∀ {found : RunState × Json} {reports : List Report},
      (next found).Comes (after, result) reports →
        after.failed = found.1.failed ∧ after.view = found.1.view) :
    p.Performs before after reports := by
  obtain ⟨⟨between, view⟩, said, own, resolves, works, rfl⟩ := comes_bind.mp comes
  obtain ⟨failed, resolving⟩ := comes_needView resolves
  obtain ⟨failedAfter, viewAfter⟩ := keeps works
  refine ⟨failedAfter.trans failed, said, own, rfl, ?_, fun _ => (off _).of_comes works⟩
  cases resolving with
  | needless same => exact .needless (viewAfter.trans same)
  | first unknown known => exact .first unknown (viewAfter.trans known)

theorem performs_of_isOffHierarchy {before after : RunState} {result : Except Fault Unit}
    {work : Work (RunState × Except Fault Unit)} {reports : List Report}
    (comes : work.Comes (after, result) reports)
    (off : p.compiler.IsQuiet → work.TellsOnly Report.IsOffHierarchy)
    (failed : after.failed = before.failed) (view : after.view = before.view) :
    p.Performs before after reports :=
  ⟨failed, [], reports, rfl, .needless view, fun quiet => (off quiet).of_comes comes⟩

/-- The value of work that ends with a value made from what it came to. -/
theorem comes_bind_done {α β : Type} {work : Work α} {make : α → β} {value : β}
    {reports : List Report}
    (comes : (work >>= fun found => pure (make found)).Comes value reports) :
    ∃ found, value = make found := by
  obtain ⟨found, _, _, _, last, _⟩ := comes_bind.mp comes
  exact ⟨found, (comes_done.mp last).1⟩

theorem comes_perform {task : Task} {before after : RunState} {result : Except Fault Unit}
    {reports : List Report} (comes : (p.perform task before).Comes (after, result) reports) :
    p.Performs before after reports := by
  cases task with
  | settings =>
      have same := (comes_done.mp comes).1
      cases same
      exact performs_of_isOffHierarchy comes (fun _ => .done _) rfl rfl
  | grammar =>
      obtain ⟨found, same⟩ := comes_bind_done comes
      cases same
      exact performs_of_isOffHierarchy comes
        (fun _ => .bind p.isOffHierarchy_writeWoven fun _ => .done _) rfl rfl
  | parser =>
      obtain ⟨found, same⟩ := comes_bind_done comes
      cases same
      exact performs_of_isOffHierarchy comes
        (fun quiet => .bind (quiet.isOffHierarchy_run _ _ _) fun _ => .done _) rfl rfl
  | nodes =>
      refine performs_of_needView comes (fun found => ?_) fun {found} _ works => ?_
      · exact .bind (p.isOffHierarchy_generateNodes found.2) fun _ => .done _
      · obtain ⟨count, same⟩ := comes_bind_done works
        cases same
        exact ⟨rfl, rfl⟩
  | visitors =>
      refine performs_of_needView comes (fun found => ?_) fun {found} _ works => ?_
      · exact .bind (p.isOffHierarchy_generateVisitors found.2) fun _ => .done _
      · obtain ⟨count, same⟩ := comes_bind_done works
        cases same
        exact ⟨rfl, rfl⟩
  | support =>
      refine performs_of_needView comes (fun found => ?_) fun {found} _ works => ?_
      · refine .bind (p.isOffHierarchy_generateSupport found.2) fun result => ?_
        cases result <;> exact .done _
      · obtain ⟨result, _, _, _, last, _⟩ := comes_bind.mp works
        cases result with
        | ok count =>
            cases (comes_done.mp last).1
            exact ⟨rfl, rfl⟩
        | error fault =>
            cases (comes_done.mp last).1
            exact ⟨rfl, rfl⟩

end Project

end NodeWeave
