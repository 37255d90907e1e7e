import NodeWeave.Fault
import NodeWeave.Text.Blank
import NodeWeave.Text.Basic

/-!
Tasks and their names. A task is named in full, by its name inside of its group, or together with
all of its group by an asterisk. A plan has the tasks that are asked for and those they depend on.
-/

namespace NodeWeave

/-- What can be generated, in the order in which it is done. -/
inductive Task where
  | settings
  | grammar
  | support
  | nodes
  | visitors
  | parser
  deriving DecidableEq, Repr

inductive TaskProblem where
  | unknownGroup (name : String)
  | unknownTask (name : String)
  deriving DecidableEq, Repr

namespace Task

def all : List Task :=
  [settings, grammar, support, nodes, visitors, parser]

def group : Task → String
  | settings => "help"
  | _ => "gen"

def localName : Task → String
  | settings => "dump-config"
  | grammar => "javacc"
  | support => "javacc-support"
  | nodes => "nodes"
  | visitors => "visitors"
  | parser => "parser"

def name (task : Task) : String :=
  task.group ++ ":" ++ task.localName

def dependencies : Task → List Task
  | parser => [grammar]
  | _ => []

@[simp] theorem mem_all (task : Task) : task ∈ all := by
  cases task <;> decide

def named (name : String) : Except TaskProblem (List Task) :=
  match all.find? fun t => t.name = name with
  | some task => .ok [task]
  | none =>
      match Text.splitFirst? [':'] name.toList with
      | none =>
          match all.find? fun t => t.localName = name with
          | some task => .ok [task]
          | none => .error (.unknownTask name)
      | some (group, rest) =>
          if rest = ['*'] ∧ group ≠ [] then
            match all.filter fun t => t.group.toList = group with
            | [] => .error (.unknownGroup (String.ofList group))
            | tasks => .ok tasks
          else .error (.unknownTask name)

/-- The tasks of a name. Blanks around it do not count. -/
def ofName (name : String) : Except TaskProblem (List Task) :=
  named (Text.trim name)

def single (name : String) : Except TaskProblem Task := do
  match ← ofName name with
  | [task] => return task
  | _ => throw (.unknownTask name)

/-- The tasks of names, with the tasks they depend on, each once and in order. -/
def plan (names : List String) : Except TaskProblem (List Task) := do
  let wanted := (← names.mapM ofName).flatten
  return all.filter fun t => t ∈ wanted ∨ ∃ u ∈ wanted, t ∈ u.dependencies

end Task

namespace TaskProblem

def name : TaskProblem → String
  | unknownGroup name | unknownTask name => name

def available : String :=
  Text.join ", " (Task.all.map Task.name)

def message : TaskProblem → String
  | unknownGroup name =>
      "task group '" ++ name ++ "' is not known, available tasks: " ++ available
  | unknownTask name => "task '" ++ name ++ "' is not known, available tasks: " ++ available

def fault (problem : TaskProblem) : Fault :=
  { cause := .unknownTask problem.name, phase := "tasks", help := some problem.message }

end TaskProblem

end NodeWeave
