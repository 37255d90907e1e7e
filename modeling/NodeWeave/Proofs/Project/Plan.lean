import Mathlib.Data.List.Forall2
import NodeWeave.Task.Basic

/-! What names of tasks are planned to. -/

namespace NodeWeave.Task

variable {names : List String}

/-- A name among these stands for the task, or for one that depends on it. -/
def Asked (names : List String) (task : Task) : Prop :=
  ∃ name ∈ names, ∃ parsed, ofName name = .ok parsed ∧
    ∃ wanted ∈ parsed, task = wanted ∨ task ∈ wanted.dependencies

/-- What is planned for names: the tasks that are asked for, each once and after those it depends
on, the same for all lists of these names. -/
structure IsPlanOf (tasks : List Task) (names : List String) : Prop where
  nodup : tasks.Nodup
  mem_iff : ∀ task, task ∈ tasks ↔ Asked names task
  ordered : ∀ {front back task}, tasks = front ++ task :: back →
    ∀ dependency ∈ task.dependencies, dependency ∈ front
  same : ∀ {others}, (∀ name, name ∈ others ↔ name ∈ names) → plan others = .ok tasks

theorem mapM_ofName_eq_ok {parsed : List (List Task)} :
    names.mapM ofName = .ok parsed ↔
      List.Forall₂ (fun name tasks => ofName name = .ok tasks) names parsed := by
  induction names generalizing parsed with
  | nil => cases parsed <;> simp [pure, Except.pure]
  | cons name rest ih =>
      rw [List.mapM_cons]
      cases first : ofName name with
      | error problem => cases parsed <;> simp [bind, Except.bind, first]
      | ok tasks =>
          cases others : rest.mapM ofName with
          | error problem => cases parsed <;> simp [bind, Except.bind, ← ih, others]
          | ok more =>
              cases parsed <;> simp [bind, Except.bind, pure, Except.pure, ← ih, others, first]

theorem exists_parsed_iff :
    (∃ parsed, List.Forall₂ (fun name tasks => ofName name = .ok tasks) names parsed) ↔
      ∀ name ∈ names, ∃ tasks, ofName name = .ok tasks := by
  induction names with
  | nil => exact ⟨fun _ => List.forall_mem_nil _, fun _ => ⟨[], .nil⟩⟩
  | cons name rest ih =>
      rw [List.forall_mem_cons, ← ih]
      constructor
      · rintro ⟨_, _ | ⟨first, others⟩⟩
        exact ⟨⟨_, first⟩, _, others⟩
      · rintro ⟨⟨tasks, first⟩, parsed, others⟩
        exact ⟨tasks :: parsed, .cons first others⟩

section

variable {parsed : List (List Task)}
  (parses : List.Forall₂ (fun name tasks => ofName name = .ok tasks) names parsed)

include parses

theorem mem_flatten_iff {wanted : Task} :
    wanted ∈ parsed.flatten ↔
      ∃ name ∈ names, ∃ tasks, ofName name = .ok tasks ∧ wanted ∈ tasks := by
  induction parses with
  | nil => simp
  | cons first _ ih => simp [ih, first]

theorem plan_of_parsed :
    plan names = .ok (all.filter fun t =>
      t ∈ parsed.flatten ∨ ∃ u ∈ parsed.flatten, t ∈ u.dependencies) := by
  rw [plan, mapM_ofName_eq_ok.mpr parses]
  rfl

theorem asked_iff {task : Task} :
    Asked names task ↔
      task ∈ parsed.flatten ∨ ∃ wanted ∈ parsed.flatten, task ∈ wanted.dependencies := by
  constructor
  · rintro ⟨name, mem, tasks, parsedAs, wanted, among, rfl | depends⟩
    · exact .inl ((mem_flatten_iff parses).mpr ⟨name, mem, tasks, parsedAs, among⟩)
    · exact .inr ⟨wanted, (mem_flatten_iff parses).mpr ⟨name, mem, tasks, parsedAs, among⟩, depends⟩
  · rintro (wanted | ⟨wanted, among, depends⟩)
    · obtain ⟨name, mem, tasks, parsedAs, among⟩ := (mem_flatten_iff parses).mp wanted
      exact ⟨name, mem, tasks, parsedAs, task, among, .inl rfl⟩
    · obtain ⟨name, mem, tasks, parsedAs, among⟩ := (mem_flatten_iff parses).mp among
      exact ⟨name, mem, tasks, parsedAs, wanted, among, .inr depends⟩

end

theorem plan_isOk_iff :
    (∃ tasks, plan names = .ok tasks) ↔ ∀ name ∈ names, ∃ parsed, ofName name = .ok parsed := by
  rw [← exists_parsed_iff]
  constructor
  · rintro ⟨tasks, planned⟩
    cases found : names.mapM ofName with
    | error problem =>
        rw [plan, found] at planned
        cases planned
    | ok parsed => exact ⟨parsed, mapM_ofName_eq_ok.mp found⟩
  · rintro ⟨parsed, parses⟩
    exact ⟨_, plan_of_parsed parses⟩

theorem nodup_all : all.Nodup := by
  decide

theorem pairwise_all : all.Pairwise fun earlier later => later ∉ earlier.dependencies := by
  decide

theorem not_mem_dependencies {task dependency wanted : Task}
    (first : dependency ∈ task.dependencies) : task ∉ wanted.dependencies := by
  cases task <;> cases wanted <;> simp [dependencies] at first ⊢

theorem Asked.of_mem_dependencies {task dependency : Task} (asked : Asked names task)
    (depends : dependency ∈ task.dependencies) : Asked names dependency := by
  obtain ⟨name, mem, parsed, parsedAs, wanted, among, rfl | further⟩ := asked
  · exact ⟨name, mem, parsed, parsedAs, task, among, .inr depends⟩
  · exact absurd further (not_mem_dependencies depends)

theorem ne_of_mem_dependencies {task dependency : Task}
    (depends : dependency ∈ task.dependencies) : dependency ≠ task := by
  rintro rfl
  exact not_mem_dependencies depends depends

theorem isPlanOf_plan {tasks : List Task} (planned : plan names = .ok tasks) :
    IsPlanOf tasks names := by
  obtain ⟨parsed, parses⟩ := exists_parsed_iff.mpr (plan_isOk_iff.mp ⟨tasks, planned⟩)
  have listed := Except.ok.inj (planned.symm.trans (plan_of_parsed parses))
  have within : tasks.Sublist all := listed ▸ List.filter_sublist
  have mem_iff : ∀ task, task ∈ tasks ↔ Asked names task := by
    intro task
    rw [listed, List.mem_filter, decide_eq_true_eq, asked_iff parses]
    exact and_iff_right (mem_all task)
  refine ⟨nodup_all.sublist within, mem_iff, ?_, ?_⟩
  · rintro front back task rfl dependency depends
    have asked := (mem_iff task).mp (List.mem_append_right _ List.mem_cons_self)
    have found := (mem_iff dependency).mpr (asked.of_mem_dependencies depends)
    rcases List.mem_append.mp found with before | later
    · exact before
    · have after : dependency ∈ back := (List.mem_cons.mp later).resolve_left
        (ne_of_mem_dependencies depends)
      -- The dependency would stand behind the task in the list of all tasks, too.
      have apart := (pairwise_all.sublist within).sublist (List.sublist_append_right front _)
      exact absurd depends (List.rel_of_pairwise_cons apart after)
  · intro others same
    have othersParse : ∀ name ∈ others, ∃ parsed, ofName name = .ok parsed := fun name mem =>
      plan_isOk_iff.mp ⟨tasks, planned⟩ name ((same name).mp mem)
    obtain ⟨otherParsed, otherParses⟩ := exists_parsed_iff.mpr othersParse
    rw [plan_of_parsed otherParses, listed]
    refine congrArg _ (List.filter_congr fun task _ => ?_)
    rw [decide_eq_decide, ← asked_iff parses, ← asked_iff otherParses]
    simp only [Asked, same]

end NodeWeave.Task
