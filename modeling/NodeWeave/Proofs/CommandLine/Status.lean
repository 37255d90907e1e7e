import NodeWeave.CommandLine.Run

/-!
The status of a run. A fault makes a run fail, and so does an error among the reports that are not
hidden; a task that fails always reports an error. Flags that hide no errors do not change the
status.
-/

namespace NodeWeave

namespace Report

def HasError (reports : List Report) : Prop :=
  ∃ report ∈ reports, report.severity.isError = true

theorem hasError_append {first second : List Report} :
    HasError (first ++ second) ↔ HasError first ∨ HasError second := by
  constructor
  · rintro ⟨report, mem, error⟩
    cases List.mem_append.mp mem with
    | inl mem => exact .inl ⟨report, mem, error⟩
    | inr mem => exact .inr ⟨report, mem, error⟩
  · rintro (⟨report, mem, error⟩ | ⟨report, mem, error⟩)
    · exact ⟨report, List.mem_append_left _ mem, error⟩
    · exact ⟨report, List.mem_append_right _ mem, error⟩

theorem hasError_ofFault (context : String) (fault : Fault) : HasError [ofFault context fault] :=
  ⟨_, List.mem_singleton_self _, rfl⟩

end Report

open Report

/-! ### Work that reports its failures -/

namespace Work

variable {α β : Type}

/-- Every run that comes to a bad value has reported an error. -/
def Confesses (bad : α → Prop) (work : Work α) : Prop :=
  ∀ tools files, bad (work.run tools files).value → HasError (work.run tools files).reports

theorem confesses_done {bad : α → Prop} {value : α} (good : ¬ bad value) :
    (done value).Confesses bad := by
  intro tools files found
  exact absurd found good

theorem confesses_nothing (work : Work α) : work.Confesses fun _ => False := by
  intro tools files found
  exact found.elim

theorem Confesses.bind {badFirst : α → Prop} {bad : β → Prop} {work : Work α} {f : α → Work β}
    (first : work.Confesses badFirst)
    (next : ∀ value, ¬ badFirst value → (f value).Confesses bad) : (work.bind f).Confesses bad := by
  intro tools files found
  rw [run_bind] at found ⊢
  apply hasError_append.mpr
  by_cases known : badFirst (work.run tools files).value
  · exact .inl (first tools files known)
  · exact .inr (next _ known tools _ found)

theorem confesses_bind {bad : β → Prop} (work : Work α) {f : α → Work β}
    (next : ∀ value, (f value).Confesses bad) : (work.bind f).Confesses bad :=
  (confesses_nothing work).bind fun value _ => next value

theorem confesses_report_bind {bad : β → Prop} {reports : List Report} (error : HasError reports)
    (f : Unit → Work β) : ((report reports).bind f).Confesses bad := by
  intro tools files _
  rw [run_bind]
  refine hasError_append.mpr (.inl ?_)
  simpa [report, run] using error

end Work

open Work

/-! ### Tasks -/

theorem Generation.confesses_runAll (place : GenerationPlace) (jobs : List ClassJob) :
    (runAll place jobs).Confesses fun count => count.failed ≠ 0 := by
  apply confesses_bind
  intro results
  by_cases failed : (GenerationCount.ofResults (results.map (·.2))).failed = 0
  · exact confesses_bind _ fun _ => confesses_done fun bad => bad failed
  · apply confesses_report_bind
    obtain ⟨result, mem, isError⟩ := List.countP_pos_iff.mp (Nat.pos_of_ne_zero failed)
    obtain ⟨⟨job, result⟩, listed, rfl⟩ := List.mem_map.mp mem
    cases result with
    | ok _ => cases isError
    | error fault =>
        refine ⟨.ofFault ("Could not generate " ++ job.description) fault, ?_, rfl⟩
        exact List.mem_append_left _ (List.mem_filterMap.mpr ⟨_, listed, rfl⟩)

namespace RunState

theorem succeeded_iff {state : RunState} :
    state.succeeded = true ↔ state.failed = [] ∧ state.count.failed = 0 := by
  simp [succeeded]

theorem succeeded_addCount {state : RunState} {count : GenerationCount}
    (before : state.succeeded = true) (none : count.failed = 0) :
    (state.addCount count).succeeded = true := by
  rw [succeeded_iff] at before ⊢
  exact ⟨before.1, by simp [addCount, GenerationCount.add, before.2, none]⟩

end RunState

namespace Project

variable (p : Project)

theorem confesses_generateNodes (view : Json) :
    (p.generateNodes view).Confesses fun count => count.failed ≠ 0 := by
  unfold generateNodes
  split
  · exact confesses_bind _ fun _ => confesses_done fun bad => bad rfl
  · exact confesses_bind _ fun jobs => Generation.confesses_runAll p.place jobs

theorem confesses_generateVisitors (view : Json) :
    (p.generateVisitors view).Confesses fun count => count.failed ≠ 0 := by
  apply confesses_bind
  intro visitors
  exact confesses_bind _ fun jobs => Generation.confesses_runAll p.place jobs

theorem confesses_generateSupport (view : Json) :
    (p.generateSupport view).Confesses fun result => ∃ count, result = .ok count ∧
      count.failed ≠ 0 := by
  unfold generateSupport
  split
  · exact confesses_done nofun
  · apply confesses_bind
    intro jobs
    refine (Generation.confesses_runAll p.place jobs).bind fun count good => confesses_done ?_
    rintro ⟨other, same, bad⟩
    cases same
    exact good bad

theorem confesses_needView {state : RunState} (before : state.succeeded = true) :
    (p.needView state).Confesses fun found => found.1.succeeded ≠ true := by
  unfold needView
  split
  · exact confesses_done fun bad => bad before
  · exact confesses_bind _ fun view => confesses_done fun bad => bad before

/-- A task that fails only returns its fault; classes that fail are reported at once. -/
theorem confesses_perform {state : RunState} (before : state.succeeded = true) (task : Task) :
    (p.perform task state).Confesses fun done => done.1.succeeded ≠ true := by
  cases task with
  | settings => exact confesses_done fun bad => bad before
  | grammar => exact confesses_bind _ fun _ => confesses_done fun bad => bad before
  | parser => exact confesses_bind _ fun _ => confesses_done fun bad => bad before
  | support =>
      refine (p.confesses_needView before).bind fun found good => ?_
      refine (p.confesses_generateSupport found.2).bind fun result fine => ?_
      cases result with
      | error fault => exact confesses_done good
      | ok count =>
          have none : count.failed = 0 := Classical.not_not.mp fun bad => fine ⟨count, rfl, bad⟩
          exact confesses_done fun bad =>
            bad (RunState.succeeded_addCount (Classical.not_not.mp good) none)
  | nodes =>
      refine (p.confesses_needView before).bind fun found good => ?_
      refine (p.confesses_generateNodes found.2).bind fun count fine => confesses_done fun bad => ?_
      exact bad (RunState.succeeded_addCount (Classical.not_not.mp good)
        (Classical.not_not.mp fine))
  | visitors =>
      refine (p.confesses_needView before).bind fun found good => ?_
      refine (p.confesses_generateVisitors found.2).bind fun count fine =>
        confesses_done fun bad => ?_
      exact bad (RunState.succeeded_addCount (Classical.not_not.mp good)
        (Classical.not_not.mp fine))

theorem confesses_step {state : RunState} (before : state.succeeded = true) (task : Task) :
    (p.step state task).Confesses fun after => after.succeeded ≠ true := by
  unfold step
  split
  · exact confesses_report_bind ⟨_, List.mem_singleton_self _, rfl⟩ _
  · apply confesses_bind
    intro _
    refine (p.confesses_perform before task).bind fun done good => ?_
    obtain ⟨state, result⟩ := done
    cases result with
    | ok _ => exact confesses_done good
    | error fault => exact confesses_report_bind (hasError_ofFault _ fault) _

theorem confesses_runFrom {state : RunState} (before : state.succeeded = true)
    (tasks : List Task) :
    (p.runFrom state tasks).Confesses fun after => after.succeeded ≠ true := by
  induction tasks generalizing state with
  | nil => exact confesses_done fun bad => bad before
  | cons task rest ih =>
      exact (p.confesses_step before task).bind fun next good => ih (Classical.not_not.mp good)

end Project

/-! ### The status -/

namespace Severity

theorem isError_max (a b : Severity) : (max a b).isError = (a.isError || b.isError) := by
  cases a <;> cases b <;> rfl

end Severity

namespace Collector

theorem isError_take {c : Collector} {mode : PrintMode} (prints : c.kind = .printing mode)
    (report : Report) :
    (c.take report).1.kind = c.kind ∧ (c.take report).1.least = c.least ∧
      ((c.take report).1.max.isError = true ↔
        c.max.isError = true ∨ report.severity.isError = true ∧ c.least ≤ report.severity) := by
  rw [take, prints]
  by_cases hidden : c.hides report = true
  · have below : ¬ (report.severity.isError = true ∧ c.least ≤ report.severity) := by
      rintro ⟨error, shown⟩
      simp only [hides, Bool.or_eq_true, decide_eq_true_eq] at hidden
      cases hidden with
      | inl less => exact Nat.not_lt.mpr shown less
      | inr same =>
          rw [same] at error
          cases error
    simp only [hidden, if_true]
    exact ⟨prints, trivial, (or_iff_left below).symm⟩
  · have shown : c.least ≤ report.severity := by
      simp only [hides, Bool.or_eq_true, decide_eq_true_eq, not_or] at hidden
      exact Nat.not_lt.mp hidden.1
    simp only [hidden, Bool.false_eq_true, if_false, Severity.isError_max, Bool.or_eq_true]
    exact ⟨trivial, trivial, by rw [and_iff_left shown]⟩

theorem isError_takeAll {c : Collector} {mode : PrintMode} (prints : c.kind = .printing mode)
    (reports : List Report) :
    (c.takeAll reports).max.isError = true ↔ c.max.isError = true ∨
      ∃ report ∈ reports, report.severity.isError = true ∧ c.least ≤ report.severity := by
  induction reports generalizing c with
  | nil => simp
  | cons report rest ih =>
      obtain ⟨kind, least, taken⟩ := isError_take prints report
      have step := ih (kind.trans prints)
      rw [least] at step
      change ((c.take report).1.takeAll rest).max.isError = true ↔ _
      rw [step, taken, or_assoc]
      simp only [List.mem_cons, exists_eq_or_imp]

theorem max_conclude (c : Collector) : c.conclude.max = c.max := by
  unfold conclude
  split
  · split <;> rfl
  · rfl

end Collector

namespace CommandLine

def Invocation.statusOn (invocation : Invocation) (tools : Toolbox) (files : Files) : Nat :=
  let ran := invocation.work.run tools files
  (invocation.finish ran.value ran.reports).status

theorem status_finish_ne_zero_iff (invocation : Invocation) (outcome : Outcome)
    (reports : List Report) :
    (invocation.finish outcome reports).status ≠ 0 ↔ outcome.fault.isSome = true ∨
      ∃ report ∈ reports,
        report.severity.isError = true ∧ invocation.shared.least ≤ report.severity := by
  have counted := Collector.isError_takeAll (c := invocation.shared.collector) rfl reports
  have start : invocation.shared.collector.max.isError = false := rfl
  rw [start] at counted
  simp only [Bool.false_eq_true, false_or] at counted
  change (if _ then 1 else 0) ≠ 0 ↔ _
  rw [Collector.max_conclude]
  cases outcome.fault with
  | some fault => simp
  | none =>
      change _ ↔ false = true ∨ ∃ report ∈ reports,
        report.severity.isError = true ∧ invocation.shared.collector.least ≤ report.severity
      rw [← counted]
      split
      · next error => simpa using error
      · next noError => simpa using noError

/-- Where nothing less than fatal is shown, errors are hidden and do not make a run fail. -/
theorem status_finish_eq_zero_of_hidden {invocation : Invocation} {outcome : Outcome}
    {reports : List Report} (hidden : invocation.shared.least = .fail)
    (noFault : outcome.fault = none) (noFatal : ∀ report ∈ reports, report.severity ≠ .fail) :
    (invocation.finish outcome reports).status = 0 := by
  apply Classical.not_not.mp
  intro failed
  rw [← ne_eq, status_finish_ne_zero_iff, noFault, hidden] at failed
  rcases failed with fault | ⟨report, mem, error, shown⟩
  · cases fault
  · rcases (Severity.isError_iff _).mp error with same | same
    · rw [same] at shown
      exact absurd shown (by decide)
    · exact noFatal report mem same

theorem status_finish_le_one (invocation : Invocation) (outcome : Outcome)
    (reports : List Report) : (invocation.finish outcome reports).status ≤ 1 := by
  change (if _ then 1 else 0) ≤ 1
  split <;> omega

theorem le_of_isError {least severity : Severity} (low : least ≤ .error)
    (error : severity.isError = true) : least ≤ severity :=
  Nat.le_trans low (of_decide_eq_true error)

/-- As long as errors are shown, a run fails if a fault ends it or an error was reported. -/
theorem status_finish_iff_of_shown {invocation : Invocation}
    (shown : invocation.shared.least ≤ .error) (outcome : Outcome) (reports : List Report) :
    (invocation.finish outcome reports).status ≠ 0 ↔
      outcome.fault.isSome = true ∨ HasError reports := by
  rw [status_finish_ne_zero_iff]
  constructor
  · rintro (fault | ⟨report, mem, error, _⟩)
    · exact .inl fault
    · exact .inr ⟨report, mem, error⟩
  · rintro (fault | ⟨report, mem, error⟩)
    · exact .inl fault
    · exact .inr ⟨report, mem, error, le_of_isError shown error⟩

/-- What a command does depends on the option files alone, not on what is shown. -/
theorem Command.work_eq_of_chain_eq {shared other : Shared} (same : shared.chain = other.chain)
    (command : Command) : command.work shared = command.work other := by
  have chain : shared.chainFor = other.chainFor := by
    funext grammar
    rw [Shared.chainFor, Shared.chainFor, same]
  have load : shared.load = other.load := by
    funext grammar base output
    rw [Shared.load, Shared.load, chain]
  have tasks : Command.runTasks shared = Command.runTasks other := by
    funext project tasks
    rw [Command.runTasks, Command.runTasks, chain]
  cases command with
  | weave grammar output base showsChanges =>
      change Command.runWeave shared _ _ _ _ = Command.runWeave other _ _ _ _
      rw [Command.runWeave, Command.runWeave, load]
  | hierarchy grammar =>
      change Command.runHierarchy shared _ = Command.runHierarchy other _
      rw [Command.runHierarchy, Command.runHierarchy, load]
  | generate grammar names output sourceRoots base compiler =>
      change Command.runGenerate shared _ _ _ _ _ _ = Command.runGenerate other _ _ _ _ _ _
      rw [Command.runGenerate, Command.runGenerate, load, tasks]

theorem Command.confesses_runTasks (shared : Shared) (project : Project) (tasks : List Task)
    (tools : Toolbox) (files : Files)
    (failed : ((project.run tasks).run tools files).value.succeeded ≠ true) :
    HasError ((Command.runTasks shared project tasks).run tools files).reports := by
  have start : RunState.succeeded {} = true := rfl
  have told := project.confesses_runFrom start tasks tools files failed
  unfold Command.runTasks
  rw [bind_eq, run_bind]
  exact hasError_append.mpr (.inl told)

/-- Two runs that differ in what they show only, and both show errors, end with the same status,
which tells faults and errors; no run with a failed task or class ends with zero. -/
theorem statusOn_of_shown {invocation other : Invocation}
    (shown : invocation.shared.least ≤ .error) (otherShown : other.shared.least ≤ .error)
    (command : other.command = invocation.command)
    (chain : other.shared.chain = invocation.shared.chain) (tools : Toolbox) (files : Files) :
    (invocation.statusOn tools files ≠ 0 ↔
      (invocation.work.run tools files).value.fault.isSome = true ∨
        HasError (invocation.work.run tools files).reports) ∧
    other.statusOn tools files = invocation.statusOn tools files ∧
    ∀ (project : Project) (tasks : List Task) (left : Files),
      ((project.run tasks).run tools left).value.succeeded ≠ true →
        let ran := (Command.runTasks invocation.shared project tasks).run tools left
        (invocation.finish ran.value ran.reports).status ≠ 0 := by
  have tells := status_finish_iff_of_shown shown (invocation.work.run tools files).value
    (invocation.work.run tools files).reports
  refine ⟨tells, ?_, fun project tasks left failed => ?_⟩
  · have work : other.work = invocation.work := by
      rw [Invocation.work, Invocation.work, command]
      exact Command.work_eq_of_chain_eq chain _
    have otherTells := status_finish_iff_of_shown otherShown
      (invocation.work.run tools files).value (invocation.work.run tools files).reports
    have bound := status_finish_le_one invocation (invocation.work.run tools files).value
      (invocation.work.run tools files).reports
    have otherBound := status_finish_le_one other (invocation.work.run tools files).value
      (invocation.work.run tools files).reports
    rw [Invocation.statusOn, Invocation.statusOn, work]
    have same := otherTells.trans tells.symm
    omega
  · apply (status_finish_iff_of_shown shown _ _).mpr
    exact .inr (Command.confesses_runTasks invocation.shared project tasks tools left failed)

/-- A run that makes a parser and shows reports in some way. -/
def parsing (printsAll : Bool) (least : Severity) : Invocation where
  shared := { printsAll, least }
  command := .generate "G.jjt" ["gen:parser"] "out" [] {} "javacc"

def grammarFiles : Files :=
  (Files.startingAt ["work"]).add "G.jjt"
    "PARSER_BEGIN(P)\nclass P \x7b\x7d\nPARSER_END(P)\n\nvoid A() : \x7b\x7d \x7b <X> \x7d\n"
    false

theorem statusOn_of_shown_parsing :
    (parsing true .debug).shared.least ≤ .error ∧ (parsing false .error).shared.least ≤ .error ∧
      (parsing true .debug).statusOn .nothing grammarFiles = 1 ∧
      (parsing false .error).statusOn .nothing grammarFiles = 1 := by
  have shown : (parsing true .debug).shared.least ≤ .error := by decide
  have otherShown : (parsing false .error).shared.least ≤ .error := by decide
  have fails : (parsing true .debug).statusOn .nothing grammarFiles = 1 := by decide +kernel
  obtain ⟨-, same, -⟩ := statusOn_of_shown shown otherShown rfl rfl .nothing grammarFiles
  exact ⟨shown, otherShown, fails, same.trans fails⟩

/-- A failed task that is not shown does not make a run fail. -/
theorem statusOn_parsing_hidden :
    (parsing false .error).statusOn .nothing grammarFiles = 1 ∧
      (parsing false .fail).statusOn .nothing grammarFiles = 0 := by
  decide +kernel

end CommandLine

end NodeWeave
