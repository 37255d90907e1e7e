import NodeWeave.Proofs.Project.Performing
import NodeWeave.Proofs.Project.Plan

/-!
Runs as turns: each entry of a list of tasks has one turn, in which its task is done, fails or is
skipped.
-/

namespace NodeWeave

/-- What became of one entry of a list of tasks. -/
inductive Fate where
  | done
  | failed
  | skipped
  deriving DecidableEq, Repr

/-- One entry of a list of tasks, with the states of the run around it. -/
structure Turn where
  task : Task
  fate : Fate
  before : RunState
  after : RunState
  reports : List Report

namespace Turn

def isLost (turn : Turn) : Bool :=
  turn.fate != .done

def resolves (turn : Turn) : Bool :=
  turn.before.view.isNone && turn.after.view.isSome

/-- Each turn starts with what the one before it left. -/
inductive Linked : RunState → List Turn → RunState → Prop where
  | nil (state : RunState) : Linked state [] state
  | cons (turn : Turn) {rest : List Turn} {final : RunState} :
      Linked turn.after rest final → Linked turn.before (turn :: rest) final

theorem Linked.split {state final : RunState} {front back : List Turn} {turn : Turn}
    (linked : Linked state (front ++ turn :: back) final) :
    Linked state front turn.before ∧ Linked turn.after back final := by
  induction front generalizing state with
  | nil =>
      obtain _ | ⟨_, later⟩ := linked
      exact ⟨.nil _, later⟩
  | cons first front ih =>
      obtain _ | ⟨_, later⟩ := linked
      obtain ⟨before, after⟩ := ih later
      exact ⟨.cons first before, after⟩

/-- The tasks that failed or were skipped, in order. -/
def lost (turns : List Turn) : List Task :=
  (turns.filter isLost).map task

theorem mem_lost {turns : List Turn} {task : Task} :
    task ∈ lost turns ↔ ∃ turn ∈ turns, turn.task = task ∧ turn.fate ≠ .done := by
  simp only [lost, List.mem_map, List.mem_filter, isLost, bne_iff_ne, and_assoc]
  exact exists_congr fun turn => and_congr_right fun _ => and_comm

end Turn

namespace Project

variable (p : Project)

/-- A turn of a project. A task that is not skipped is performed, once. -/
inductive Takes : Turn → Prop where
  | done {task : Task} {before after : RunState} {own : List Report} :
      (p.perform task before).Comes (after, .ok ()) own →
      Takes ⟨task, .done, before, after, .debug ("Running task " ++ task.name) :: own⟩
  | failed {task : Task} {before after : RunState} {own : List Report} (fault : Fault) :
      (p.perform task before).Comes (after, .error fault) own →
      Takes ⟨task, .failed, before, { after with failed := after.failed ++ [task] },
        .debug ("Running task " ++ task.name) ::
          (own ++ [.ofFault ("Task " ++ task.name ++ " failed") fault])⟩
  | skipped (task : Task) (before : RunState) :
      Takes ⟨task, .skipped, before, { before with failed := before.failed ++ [task] },
        [.nonFatal ("Task " ++ task.name ++ " skipped because a task it depends on failed")]⟩

/-- The turns of a run over a list of tasks. -/
structure HasTurns (tasks : List Task) (final : RunState) (reports : List Report)
    (turns : List Turn) : Prop where
  tasks : turns.map Turn.task = tasks
  linked : Turn.Linked {} turns final
  taken : ∀ turn ∈ turns, p.Takes turn
  said : reports = turns.flatMap Turn.reports
  /-- A task is skipped where one that it depends on came before and failed or was skipped. In
  all other cases, it is performed. -/
  skipped : ∀ {front back turn}, turns = front ++ turn :: back →
    (turn.fate = .skipped ↔
      ∃ earlier ∈ front, earlier.task ∈ turn.task.dependencies ∧ earlier.fate ≠ .done)
  failed : final.failed = Turn.lost turns
  /-- The hierarchy is resolved in one turn at most. -/
  resolved : (turns.filter Turn.resolves).length ≤ 1
  /-- What a turn that resolves leaves is what the project shows. -/
  view : ∀ turn ∈ turns, turn.resolves = true → turn.after.view = some p.view.value
  /-- What is said on the hierarchy is said where it is resolved. -/
  diagnostics : p.compiler.IsQuiet →
    reports.filter Report.isOfHierarchy =
      (turns.filter Turn.resolves).flatMap fun _ => p.view.reports

variable {p}

open Work (comes_done comes_bind comes_report_bind)

theorem comes_step {state after : RunState} {task : Task} {reports : List Report}
    (comes : (p.step state task).Comes after reports) :
    ∃ turn, p.Takes turn ∧ turn.task = task ∧ turn.before = state ∧ turn.after = after ∧
      turn.reports = reports ∧ (turn.fate = .skipped ↔ state.blocks task = true) := by
  unfold step at comes
  split at comes
  · next blocked =>
      obtain ⟨later, last, rfl⟩ := comes_report_bind.mp comes
      obtain ⟨rfl, rfl⟩ := comes_done.mp last
      exact ⟨_, .skipped task state, rfl, rfl, rfl, rfl, iff_of_true rfl blocked⟩
  · next free =>
      obtain ⟨later, performed, rfl⟩ := comes_report_bind.mp comes
      obtain ⟨⟨between, result⟩, own, rest, works, ends, rfl⟩ := comes_bind.mp performed
      cases result with
      | ok _ =>
          obtain ⟨rfl, rfl⟩ := comes_done.mp ends
          rw [List.append_nil]
          exact ⟨_, .done works, rfl, rfl, rfl, rfl, iff_of_false nofun free⟩
      | error fault =>
          obtain ⟨last, nothing, rfl⟩ := comes_report_bind.mp ends
          obtain ⟨rfl, rfl⟩ := comes_done.mp nothing
          exact ⟨_, .failed fault works, rfl, rfl, rfl, rfl, iff_of_false nofun free⟩

theorem comes_runFrom {state final : RunState} {tasks : List Task} {reports : List Report}
    (comes : (p.runFrom state tasks).Comes final reports) :
    ∃ turns : List Turn, turns.map Turn.task = tasks ∧ Turn.Linked state turns final ∧
      (∀ turn ∈ turns, p.Takes turn) ∧ reports = turns.flatMap Turn.reports ∧
      ∀ turn ∈ turns, turn.fate = .skipped ↔ turn.before.blocks turn.task = true := by
  induction tasks generalizing state reports with
  | nil =>
      obtain ⟨rfl, rfl⟩ := comes_done.mp comes
      exact ⟨[], rfl, .nil _, List.forall_mem_nil _, rfl, List.forall_mem_nil _⟩
  | cons task rest ih =>
      obtain ⟨between, first, second, step, later, rfl⟩ := comes_bind.mp comes
      obtain ⟨turn, takes, rfl, rfl, rfl, rfl, blocked⟩ := comes_step step
      obtain ⟨turns, rfl, linked, taken, rfl, skipped⟩ := ih later
      exact ⟨turn :: turns, rfl, .cons turn linked, List.forall_mem_cons.mpr ⟨takes, taken⟩, rfl,
        List.forall_mem_cons.mpr ⟨blocked, skipped⟩⟩

/-! ### What turns keep -/

theorem Takes.failed_after {turn : Turn} (takes : p.Takes turn) :
    turn.after.failed = turn.before.failed ++ Turn.lost [turn] := by
  cases takes with
  | done performed => exact (comes_perform performed).failed.trans (List.append_nil _).symm
  | failed fault performed => exact congrArg (· ++ _) (comes_perform performed).failed
  | skipped => rfl

theorem failed_of_linked {state final : RunState} {turns : List Turn}
    (linked : Turn.Linked state turns final) (taken : ∀ turn ∈ turns, p.Takes turn) :
    final.failed = state.failed ++ Turn.lost turns := by
  induction linked with
  | nil state => exact (List.append_nil _).symm
  | cons turn _ ih =>
      obtain ⟨takes, rest⟩ := List.forall_mem_cons.mp taken
      rw [ih rest, takes.failed_after, List.append_assoc, Turn.lost, Turn.lost, Turn.lost,
        ← List.map_append, ← List.filter_append, List.singleton_append]

theorem blocks_iff {state : RunState} {task : Task} :
    state.blocks task = true ↔ ∃ dependency ∈ task.dependencies, dependency ∈ state.failed := by
  simp [RunState.blocks]

/-- A task is blocked by the earlier turns in which what it depends on was lost. -/
theorem blocks_iff_of_linked {before : RunState} {front : List Turn} {task : Task}
    (linked : Turn.Linked {} front before) (taken : ∀ turn ∈ front, p.Takes turn) :
    before.blocks task = true ↔
      ∃ earlier ∈ front, earlier.task ∈ task.dependencies ∧ earlier.fate ≠ .done := by
  rw [blocks_iff, failed_of_linked linked taken]
  change (∃ dependency ∈ task.dependencies, dependency ∈ [] ++ Turn.lost front) ↔ _
  rw [List.nil_append]
  constructor
  · rintro ⟨dependency, depends, isLost⟩
    obtain ⟨earlier, mem, rfl, bad⟩ := Turn.mem_lost.mp isLost
    exact ⟨earlier, mem, depends, bad⟩
  · rintro ⟨earlier, mem, depends, bad⟩
    exact ⟨earlier.task, depends, Turn.mem_lost.mpr ⟨earlier, mem, rfl, bad⟩⟩

/-- What a turn does to the view, and what it says on the hierarchy. -/
structure Views (p : Project) (turn : Turn) : Prop where
  kept : turn.before.view.isSome = true → turn.after.view.isSome = true
  found : turn.resolves = true → turn.after.view = some p.view.value
  said : p.compiler.IsQuiet → turn.reports.filter Report.isOfHierarchy =
    if turn.resolves then p.view.reports else []

theorem filter_of_off {reports : List Report} (off : ∀ report ∈ reports, report.IsOffHierarchy) :
    reports.filter Report.isOfHierarchy = [] :=
  List.filter_eq_nil_iff.mpr fun report mem => Bool.not_eq_true _ ▸ off report mem

theorem filter_view : p.view.reports.filter Report.isOfHierarchy = p.view.reports :=
  List.filter_eq_self.mpr p.isOnHierarchy_view

/-- A turn that reports what a task does between reports that are not on the hierarchy. -/
theorem views_of_performs {turn : Turn} {after : RunState} {own back : List Report}
    {start : Report} (performs : p.Performs turn.before after own)
    (same : turn.after.view = after.view) (reports : turn.reports = start :: own ++ back)
    (startOff : start.isOfHierarchy = false) (backOff : ∀ report ∈ back, report.IsOffHierarchy) :
    Views p turn := by
  obtain ⟨said, own, rfl, resolving, off⟩ := performs.resolving
  have told (quiet : p.compiler.IsQuiet) : turn.reports.filter Report.isOfHierarchy =
      said.filter Report.isOfHierarchy := by
    simp [reports, startOff, filter_of_off backOff, filter_of_off (off quiet)]
  cases resolving with
  | needless kept =>
      have none : turn.resolves = false := by
        rw [Turn.resolves, same, kept]
        cases turn.before.view <;> rfl
      refine ⟨fun known => ?_, fun resolves => ?_, fun quiet => ?_⟩
      · rw [same, kept]
        exact known
      · rw [none] at resolves
        cases resolves
      · rw [told quiet, none]
        rfl
  | first unknown known =>
      have now : turn.resolves = true := by
        rw [Turn.resolves, same, unknown, known]
        rfl
      refine ⟨fun _ => ?_, fun _ => ?_, fun quiet => ?_⟩
      · rw [same, known]
        rfl
      · rw [same, known]
      · rw [told quiet, now, filter_view]
        rfl

theorem Takes.views {turn : Turn} (takes : p.Takes turn) : Views p turn := by
  cases takes with
  | done performed =>
      refine views_of_performs (comes_perform performed) rfl (List.append_nil _).symm ?_
        (List.forall_mem_nil _)
      rfl
  | failed fault performed =>
      refine views_of_performs (comes_perform performed) rfl rfl ?_ ?_
      · rfl
      · exact List.forall_mem_singleton.mpr rfl
  | skipped task before =>
      have nothing : p.Performs before before [] :=
        ⟨rfl, [], [], rfl, .needless rfl, fun _ => List.forall_mem_nil _⟩
      refine views_of_performs nothing rfl (List.append_nil _).symm ?_ (List.forall_mem_nil _)
      rfl

/-! ### Runs -/

/-- Once the view is there, no turn resolves the hierarchy again. -/
theorem resolves_nil_of_linked {state final : RunState} {turns : List Turn}
    (linked : Turn.Linked state turns final) (taken : ∀ turn ∈ turns, p.Takes turn)
    (known : state.view.isSome = true) : turns.filter Turn.resolves = [] := by
  induction linked with
  | nil state => rfl
  | cons turn _ ih =>
      obtain ⟨takes, rest⟩ := List.forall_mem_cons.mp taken
      have needless : turn.resolves = false := by
        rw [Turn.resolves, Option.isNone_eq_false_iff.mpr known, Bool.false_and]
      rw [List.filter_cons, needless]
      exact ih rest (takes.views.kept known)

theorem length_resolves_le_one {state final : RunState} {turns : List Turn}
    (linked : Turn.Linked state turns final) (taken : ∀ turn ∈ turns, p.Takes turn) :
    (turns.filter Turn.resolves).length ≤ 1 := by
  induction linked with
  | nil state => exact Nat.zero_le 1
  | @cons turn rest final later ih =>
      obtain ⟨_, others⟩ := List.forall_mem_cons.mp taken
      rw [List.filter_cons]
      split
      · next resolves =>
          have known : turn.after.view.isSome = true := (Bool.and_eq_true_iff.mp resolves).2
          rw [resolves_nil_of_linked later others known]
          exact Nat.le_refl 1
      · exact ih others

theorem filter_flatMap_reports (quiet : p.compiler.IsQuiet) {turns : List Turn}
    (taken : ∀ turn ∈ turns, p.Takes turn) :
    (turns.flatMap Turn.reports).filter Report.isOfHierarchy =
      (turns.filter Turn.resolves).flatMap fun _ => p.view.reports := by
  induction turns with
  | nil => rfl
  | cons turn rest ih =>
      obtain ⟨takes, others⟩ := List.forall_mem_cons.mp taken
      rw [List.flatMap_cons, List.filter_append, takes.views.said quiet, ih others,
        List.filter_cons]
      split <;> rfl

theorem hasTurns_of_comes {tasks : List Task} {final : RunState} {reports : List Report}
    (comes : (p.run tasks).Comes final reports) :
    ∃ turns, p.HasTurns tasks final reports turns := by
  obtain ⟨turns, same, linked, taken, said, blocked⟩ := comes_runFrom comes
  refine ⟨turns, same, linked, taken, said, ?_, ?_, length_resolves_le_one linked taken,
    fun turn mem => (taken turn mem).views.found, fun quiet => ?_⟩
  · rintro front back turn rfl
    rw [blocked turn (List.mem_append_right _ List.mem_cons_self)]
    exact blocks_iff_of_linked linked.split.1 fun earlier mem =>
      taken earlier (List.mem_append_left _ mem)
  · rw [failed_of_linked linked taken]
    rfl
  · rw [said]
    exact filter_flatMap_reports quiet taken

/-- Names are planned to the tasks they ask for, unless one of them is not known. A run does each
task of a list, whatever comes of it, but for those that depend on a task that failed or was
skipped. -/
theorem planned_and_run :
    (∀ names, ((∃ tasks, Task.plan names = .ok tasks) ↔
        ∀ name ∈ names, ∃ parsed, Task.ofName name = .ok parsed) ∧
      ∀ tasks, Task.plan names = .ok tasks → Task.IsPlanOf tasks names) ∧
    ∀ (p : Project) (tasks : List Task) (final : RunState) (reports : List Report),
      (p.run tasks).Comes final reports → ∃ turns, p.HasTurns tasks final reports turns :=
  ⟨fun _ => ⟨Task.plan_isOk_iff, fun _ => Task.isPlanOf_plan⟩, fun _ _ _ _ => hasTurns_of_comes⟩

/-- A project whose output cannot be made, since a file has its name. -/
def blocked : Project where
  grammar := { name := "G", items := [] }
  grammarPath := "G.jjt"
  text := ""
  settings := { hierarchy := some (.map []), nodeFiles := some [] }
  options := {}
  switches := {}
  output := "out"

def blockedFiles : Files :=
  (Files.startingAt ["work"]).add "out" "" false

/-- The parser is skipped, as its grammar could not be written. The rest of the list is done. -/
theorem planned_and_run_blocked :
    let ran := (blocked.run [.grammar, .parser, .nodes, .visitors]).run .nothing blockedFiles
    Task.plan ["gen:parser", "nodes"] = .ok [.grammar, .nodes, .parser] ∧
      Task.IsPlanOf [.grammar, .nodes, .parser] ["gen:parser", "nodes"] ∧
      (∃ turns, blocked.HasTurns [.grammar, .parser, .nodes, .visitors] ran.value ran.reports
        turns) ∧
      blocked.compiler.IsQuiet ∧ ran.value.failed = [.grammar, .parser] ∧
      ran.value.view.isSome = true := by
  have planned : Task.plan ["gen:parser", "nodes"] = .ok [.grammar, .nodes, .parser] := by decide
  refine ⟨planned, (planned_and_run.1 _).2 _ planned, planned_and_run.2 _ _ _ _ ?_, ?_, ?_, ?_⟩
  · exact Work.comes_run _ _ _
  · exact Compiler.isQuiet_ofProgram "javacc"
  · decide +kernel
  · decide +kernel

end Project

end NodeWeave
