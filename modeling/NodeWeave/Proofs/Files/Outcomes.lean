import NodeWeave.Files.Work

/-!
What work can come to where its requests are answered in any way. A run on files answers each of
them in one way.
-/

namespace NodeWeave

variable {α β : Type} {condition : Report → Prop}

namespace Work

/-- Work can come to a value, with these reports on the way. -/
inductive Comes : Work α → α → List Report → Prop where
  | done (value : α) : Comes (done value) value []
  | tell (told : List Report) {next : Work α} {value : α} {reports : List Report} :
      Comes next value reports → Comes (tell told next) value (told ++ reports)
  | read (path : String) {next : Except FileProblem String → Work α} {value : α}
      {reports : List Report} (answer : Except FileProblem String) :
      Comes (next answer) value reports → Comes (read path next) value reports
  | write (path text : String) {next : Except FileProblem Unit → Work α} {value : α}
      {reports : List Report} (answer : Except FileProblem Unit) :
      Comes (next answer) value reports → Comes (write path text next) value reports
  | makeDirectories (path : String) {next : Except FileProblem Unit → Work α} {value : α}
      {reports : List Report} (answer : Except FileProblem Unit) :
      Comes (next answer) value reports → Comes (makeDirectories path next) value reports
  | inspect (path : String) {next : Option FileKind → Work α} {value : α}
      {reports : List Report} (answer : Option FileKind) :
      Comes (next answer) value reports → Comes (inspect path next) value reports
  | runTool (program grammar : String) {next : Except FileProblem ToolRun → Work α} {value : α}
      {reports : List Report} (answer : Except FileProblem ToolRun) :
      Comes (next answer) value reports → Comes (runTool program grammar next) value reports

@[simp] theorem comes_done {value found : α} {reports : List Report} :
    (done value).Comes found reports ↔ found = value ∧ reports = [] := by
  constructor
  · rintro ⟨⟩
    exact ⟨rfl, rfl⟩
  · rintro ⟨rfl, rfl⟩
    exact .done _

@[simp] theorem comes_tell {told : List Report} {next : Work α} {value : α}
    {reports : List Report} :
    (tell told next).Comes value reports ↔
      ∃ later, next.Comes value later ∧ reports = told ++ later := by
  constructor
  · rintro (_ | ⟨_, later⟩)
    exact ⟨_, later, rfl⟩
  · rintro ⟨later, comes, rfl⟩
    exact .tell told comes

theorem comes_bind {work : Work α} {f : α → Work β} {value : β} {reports : List Report} :
    (work >>= f).Comes value reports ↔
      ∃ between first second, work.Comes between first ∧ (f between).Comes value second ∧
        reports = first ++ second := by
  rw [bind_eq]
  constructor
  · intro comes
    induction work generalizing reports with
    | done found => exact ⟨found, [], reports, .done found, comes, rfl⟩
    | tell told next ih =>
        obtain ⟨later, rest, rfl⟩ := comes_tell.mp comes
        obtain ⟨between, first, second, before, after, rfl⟩ := ih rest
        exact ⟨between, told ++ first, second, .tell told before, after,
          (List.append_assoc ..).symm⟩
    | read path next ih =>
        obtain _ | _ | ⟨_, answer, comes⟩ := comes
        obtain ⟨between, first, second, before, after, rfl⟩ := ih answer comes
        exact ⟨between, first, second, .read path answer before, after, rfl⟩
    | write path text next ih =>
        obtain _ | _ | _ | ⟨_, _, answer, comes⟩ := comes
        obtain ⟨between, first, second, before, after, rfl⟩ := ih answer comes
        exact ⟨between, first, second, .write path text answer before, after, rfl⟩
    | makeDirectories path next ih =>
        obtain _ | _ | _ | _ | ⟨_, answer, comes⟩ := comes
        obtain ⟨between, first, second, before, after, rfl⟩ := ih answer comes
        exact ⟨between, first, second, .makeDirectories path answer before, after, rfl⟩
    | inspect path next ih =>
        obtain _ | _ | _ | _ | _ | ⟨_, answer, comes⟩ := comes
        obtain ⟨between, first, second, before, after, rfl⟩ := ih answer comes
        exact ⟨between, first, second, .inspect path answer before, after, rfl⟩
    | runTool program grammar next ih =>
        obtain _ | _ | _ | _ | _ | _ | ⟨_, _, answer, comes⟩ := comes
        obtain ⟨between, first, second, before, after, rfl⟩ := ih answer comes
        exact ⟨between, first, second, .runTool program grammar answer before, after, rfl⟩
  · rintro ⟨between, first, second, before, after, rfl⟩
    induction before with
    | done => exact after
    | tell told _ ih =>
        rw [List.append_assoc]
        exact .tell told (ih after)
    | read path answer _ ih => exact .read path answer (ih after)
    | write path text answer _ ih => exact .write path text answer (ih after)
    | makeDirectories path answer _ ih => exact .makeDirectories path answer (ih after)
    | inspect path answer _ ih => exact .inspect path answer (ih after)
    | runTool program grammar answer _ ih => exact .runTool program grammar answer (ih after)

theorem comes_report_bind {told : List Report} {f : Unit → Work β} {value : β}
    {reports : List Report} :
    (report told >>= f).Comes value reports ↔
      ∃ later, (f ()).Comes value later ∧ reports = told ++ later :=
  comes_tell

/-- Every run on files is one of the ways in which requests can be answered. -/
theorem comes_run (work : Work α) (tools : Toolbox) (files : Files) :
    work.Comes (work.run tools files).value (work.run tools files).reports := by
  induction work generalizing files with
  | done value => exact .done value
  | tell told next ih => exact .tell told (ih files)
  | read path next ih => exact .read path _ (ih _ files)
  | write path text next ih =>
      rw [run]
      split
      · exact .write path text _ (ih _ _)
      · exact .write path text _ (ih _ _)
  | makeDirectories path next ih => exact .makeDirectories path _ (ih _ _)
  | inspect path next ih => exact .inspect path _ (ih _ files)
  | runTool program grammar next ih => exact .runTool program grammar _ (ih _ _)

end Work

/-! ### Conditions on all reports -/

namespace Reported

def TellsOnly (condition : Report → Prop) (result : Reported α) : Prop :=
  ∀ report ∈ result.reports, condition report

namespace TellsOnly

theorem pure (value : α) : (Pure.pure value : Reported α).TellsOnly condition :=
  List.forall_mem_nil _

theorem bind {result : Reported α} {f : α → Reported β} (first : result.TellsOnly condition)
    (next : (f result.value).TellsOnly condition) : (result >>= f).TellsOnly condition :=
  List.forall_mem_append.mpr ⟨first, next⟩

theorem tell {report : Report} (fits : condition report) :
    (Reported.tell [report]).TellsOnly condition :=
  List.forall_mem_singleton.mpr fits

end TellsOnly

end Reported

namespace Work

/-- However requests are answered, only reports with a condition are made. -/
inductive TellsOnly (condition : Report → Prop) : Work α → Prop where
  | done (value : α) : TellsOnly condition (done value)
  | tell {told : List Report} {next : Work α} (all : ∀ report ∈ told, condition report) :
      TellsOnly condition next → TellsOnly condition (tell told next)
  | read {path : String} {next : Except FileProblem String → Work α} :
      (∀ answer, TellsOnly condition (next answer)) → TellsOnly condition (read path next)
  | write {path text : String} {next : Except FileProblem Unit → Work α} :
      (∀ answer, TellsOnly condition (next answer)) → TellsOnly condition (write path text next)
  | makeDirectories {path : String} {next : Except FileProblem Unit → Work α} :
      (∀ answer, TellsOnly condition (next answer)) →
        TellsOnly condition (makeDirectories path next)
  | inspect {path : String} {next : Option FileKind → Work α} :
      (∀ answer, TellsOnly condition (next answer)) → TellsOnly condition (inspect path next)
  | runTool {program grammar : String} {next : Except FileProblem ToolRun → Work α} :
      (∀ answer, TellsOnly condition (next answer)) →
        TellsOnly condition (runTool program grammar next)

namespace TellsOnly

theorem of_comes {work : Work α} (only : work.TellsOnly condition) {value : α}
    {reports : List Report} (comes : work.Comes value reports) :
    ∀ report ∈ reports, condition report := by
  induction comes with
  | done => exact List.forall_mem_nil _
  | tell told _ ih =>
      obtain _ | ⟨all, rest⟩ := only
      exact List.forall_mem_append.mpr ⟨all, ih rest⟩
  | read _ answer _ ih =>
      obtain _ | _ | rest := only
      exact ih (rest answer)
  | write _ _ answer _ ih =>
      obtain _ | _ | _ | rest := only
      exact ih (rest answer)
  | makeDirectories _ answer _ ih =>
      obtain _ | _ | _ | _ | rest := only
      exact ih (rest answer)
  | inspect _ answer _ ih =>
      obtain _ | _ | _ | _ | _ | rest := only
      exact ih (rest answer)
  | runTool _ _ answer _ ih =>
      obtain _ | _ | _ | _ | _ | _ | rest := only
      exact ih (rest answer)

theorem bind {work : Work α} {f : α → Work β} (first : work.TellsOnly condition)
    (next : ∀ value, (f value).TellsOnly condition) : (work >>= f).TellsOnly condition := by
  induction first with
  | done value => exact next value
  | tell all _ ih => exact .tell all ih
  | read _ ih => exact .read ih
  | write _ ih => exact .write ih
  | makeDirectories _ ih => exact .makeDirectories ih
  | inspect _ ih => exact .inspect ih
  | runTool _ ih => exact .runTool ih

theorem mono {work : Work α} {weaker : Report → Prop} (only : work.TellsOnly condition)
    (implies : ∀ report, condition report → weaker report) : work.TellsOnly weaker := by
  induction only with
  | done value => exact .done value
  | tell all _ ih => exact .tell (fun report mem => implies report (all report mem)) ih
  | read _ ih => exact .read ih
  | write _ ih => exact .write ih
  | makeDirectories _ ih => exact .makeDirectories ih
  | inspect _ ih => exact .inspect ih
  | runTool _ ih => exact .runTool ih

theorem report {told : Report} (fits : condition told) :
    (Work.report [told]).TellsOnly condition :=
  .tell (List.forall_mem_singleton.mpr fits) (.done ())

theorem ofReported {result : Reported α} (all : result.TellsOnly condition) :
    (Work.ofReported result).TellsOnly condition :=
  .tell all (.done _)

theorem isFile (path : String) : (Work.isFile path).TellsOnly condition :=
  .inspect fun _ => .done _

theorem isThere (path : String) : (Work.isThere path).TellsOnly condition :=
  .inspect fun _ => .done _

theorem readFile (path : String) : (Work.readFile path).TellsOnly condition := by
  refine .read fun answer => ?_
  cases answer <;> exact .done _

theorem writeFile (path text : String) : (Work.writeFile path text).TellsOnly condition := by
  refine .write fun answer => ?_
  cases answer <;> exact .done _

theorem makeParents (path : String) : (Work.makeParents path).TellsOnly condition := by
  unfold Work.makeParents
  split
  · exact .done _
  · refine .makeDirectories fun answer => ?_
    cases answer <;> exact .done _

theorem writeWithParents (path text : String) :
    (Work.writeWithParents path text).TellsOnly condition := by
  refine bind (makeParents path) fun made => ?_
  cases made with
  | error fault => exact .done _
  | ok _ => exact writeFile path text

theorem findFirst? {found : String → Work Bool} (each : ∀ path, (found path).TellsOnly condition)
    (paths : List String) : (Work.findFirst? found paths).TellsOnly condition := by
  induction paths with
  | nil => exact .done _
  | cons path rest ih =>
      refine bind (each path) fun isFound => ?_
      split
      · exact .done _
      · exact ih

end TellsOnly

end Work

end NodeWeave
