/-! Faults: what ends an operation at once, where it points to, and its wording. -/

namespace NodeWeave

/-- A part of a source text, in bytes. -/
structure Span where
  offset : Nat
  length : Nat
  deriving DecidableEq, Repr

namespace Span

def none : Span := ⟨0, 0⟩

def between (start stop : Nat) : Span := ⟨start, stop - start⟩

end Span

inductive Cause where
  | malformed (message : String)
  | missingElement (element : String)
  | unsupported (construct : String)
  | invalidConfig (file message : String)
  | unknownTask (name : String)
  | io (path reason : String)
  | toolNotRun (tool reason : String)
  /-- Without a status, a signal ended the tool. -/
  | toolExit (tool : String) (status : Option Int)
  | template (name reason : String)
  deriving DecidableEq, Repr

/-- The part of the work that a cause belongs to. -/
inductive Area where
  | grammar
  | config
  | generation
  deriving DecidableEq, Repr

namespace Cause

def area : Cause → Area
  | malformed _ | missingElement _ | unsupported _ => .grammar
  | invalidConfig .. | unknownTask _ => .config
  | io .. | toolNotRun .. | toolExit .. | template .. => .generation

def suffix : Cause → String
  | malformed _ => "syntax"
  | missingElement _ => "missing_element"
  | unsupported _ => "unsupported_construct"
  | invalidConfig .. => "invalid_config"
  | unknownTask _ => "unknown_task"
  | io .. => "io"
  | toolNotRun .. => "tool_invocation"
  | toolExit .. => "tool_exit"
  | template .. => "template"

def message : Cause → String
  | malformed message => "Grammar error: " ++ message
  | missingElement element => "Grammar error: missing " ++ element
  | unsupported construct => "Grammar error: unsupported " ++ construct
  | invalidConfig file message => "Configuration error in " ++ file ++ ": " ++ message
  | unknownTask name => "Configuration error: unknown task '" ++ name ++ "'"
  | io path reason => "I/O error on " ++ path ++ ": " ++ reason
  | toolNotRun tool reason => "Could not run " ++ tool ++ ": " ++ reason
  | toolExit tool (some status) => tool ++ " exited with status " ++ toString status
  | toolExit tool none => tool ++ " was terminated by a signal"
  | template name reason => "Template error in " ++ name ++ ": " ++ reason

end Cause

/-- A cause with the phase in which it arose, its place and a hint. -/
structure Fault where
  cause : Cause
  phase : String
  span : Span := .none
  help : Option String := none
  deriving DecidableEq, Repr

namespace Fault

def message (fault : Fault) : String :=
  fault.cause.message

def code (fault : Fault) : String :=
  "jjtx::" ++ fault.phase ++ "::" ++ fault.cause.suffix

def withHelp (fault : Fault) (help : String) : Fault :=
  { fault with help := some help }

def io (path reason : String) : Fault :=
  { cause := .io path reason, phase := "io" }

def config (file message : String) : Fault :=
  { cause := .invalidConfig file message, phase := "config" }

@[simp] theorem message_io (path reason : String) :
    (io path reason).message = "I/O error on " ++ path ++ ": " ++ reason := rfl

@[simp] theorem message_config (file message : String) :
    (config file message).message = "Configuration error in " ++ file ++ ": " ++ message := rfl

end Fault

theorem exists_of_bind_eq_ok {ε α β : Type} {first : Except ε α} {next : α → Except ε β} {b : β}
    (same : first >>= next = .ok b) : ∃ a, first = .ok a ∧ next a = .ok b := by
  cases first with
  | error problem => cases same
  | ok a => exact ⟨a, rfl, same⟩

end NodeWeave
