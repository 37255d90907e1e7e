import NodeWeave.Woven.Basic

/-!
Runs of woven code. A run takes one alternative of every choice, takes an optional part or skips it,
and repeats a repeated group any number of times. Elements, actions and clauses are steps of their
own, and each of them may throw. Flags are variables: the innermost one of a name is meant.
-/

namespace NodeWeave

open Grammar

/-- How a piece of code ends. -/
inductive Ending where
  | completed
  | thrown
  deriving DecidableEq, Repr

inductive Event where
  /-- A lookahead, a reference, a terminal, or the whole code of a production. -/
  | element (text : String)
  | action (code : String)
  /-- The code of a catch or finally clause. -/
  | clause (code : String)
  | opened (var : String)
  | closed (var : String)
  | cleared (var : String)
  | popped
  /-- The innermost scope is left, after its guard has run. -/
  | left (ending : Ending)
  deriving DecidableEq, Repr

/-- The flags that are declared, innermost first, and whether they are up. -/
abbrev Flags := List (String × Bool)

namespace Flags

def isUp (flag : String) : Flags → Bool
  | [] => false
  | (name, up) :: outer => if name = flag then up else isUp flag outer

def lower (flag : String) : Flags → Flags
  | [] => []
  | (name, up) :: outer =>
      if name = flag then (name, false) :: outer else (name, up) :: lower flag outer

@[simp] theorem isUp_cons_self (flag : String) (up : Bool) (outer : Flags) :
    isUp flag ((flag, up) :: outer) = up := by
  simp [isUp]

@[simp] theorem lower_cons_self (flag : String) (up : Bool) (outer : Flags) :
    lower flag ((flag, up) :: outer) = (flag, false) :: outer := by
  simp [lower]

end Flags

/-- What runs of a piece of code do: the flags before and the events, the flags after and the
ending of each run. -/
abbrev Behaviour := Flags → List Event → Flags → Ending → Prop

namespace Statement

/-- The statement neither changes a flag nor does anything with the scope. -/
def isSilent : Statement → Bool
  | makeNode .. | openHook _ | closeHook _ | firstToken _ | lastToken _ => true
  | _ => false

/-- The runs of generated statements. Whether an exception is of a class is left open. -/
inductive Runs : Flags → List Statement → List Event → Flags → Ending → Prop where
  | done {flags} : Runs flags [] [] flags .completed
  | silent {flags statement rest events after ending} (quiet : statement.isSilent = true)
      (next : Runs flags rest events after ending) :
      Runs flags (statement :: rest) events after ending
  | raiseFlag {flags flag rest events after ending}
      (next : Runs ((flag, true) :: flags) rest events after ending) :
      Runs flags (raiseFlag flag :: rest) events after ending
  | lowerFlag {flags flag rest events after ending}
      (next : Runs (flags.lower flag) rest events after ending) :
      Runs flags (lowerFlag flag :: rest) events after ending
  | openScope {flags var rest events after ending} (next : Runs flags rest events after ending) :
      Runs flags (openScope var :: rest) (.opened var :: events) after ending
  | closeScope {flags var condition rest events after ending}
      (next : Runs flags rest events after ending) :
      Runs flags (closeScope var condition :: rest) (.closed var :: events) after ending
  | clearScope {flags var rest events after ending} (next : Runs flags rest events after ending) :
      Runs flags (clearScope var :: rest) (.cleared var :: events) after ending
  | popNode {flags rest events after ending} (next : Runs flags rest events after ending) :
      Runs flags (popNode :: rest) (.popped :: events) after ending
  | ifFlag {flags flag body rest events after ending}
      (next : Runs flags ((if flags.isUp flag then body else []) ++ rest) events after ending) :
      Runs flags (ifFlag flag body :: rest) events after ending
  | ifFlagElse {flags flag body otherwise rest events after ending}
      (next :
        Runs flags ((if flags.isUp flag then body else otherwise) ++ rest) events after ending) :
      Runs flags (ifFlagElse flag body otherwise :: rest) events after ending
  | rethrown {flags exception type rest} :
      Runs flags (rethrow exception type :: rest) [] flags .thrown
  | notRethrown {flags exception type rest events after ending}
      (next : Runs flags rest events after ending) :
      Runs flags (rethrow exception type :: rest) events after ending
  | throwAsError {flags exception rest} :
      Runs flags (throwAsError exception :: rest) [] flags .thrown

end Statement

namespace Behaviour

def ofStatements (statements : List Statement) : Behaviour :=
  fun flags events after ending => Statement.Runs flags statements events after ending

def step (event : Event) : Behaviour :=
  fun flags events after _ => events = [event] ∧ after = flags

def skip : Behaviour :=
  fun flags events after ending => events = [] ∧ after = flags ∧ ending = .completed

def either (first second : Behaviour) : Behaviour :=
  fun flags events after ending =>
    first flags events after ending ∨ second flags events after ending

inductive AndThen (first second : Behaviour) : Behaviour where
  | cut {flags events after} (run : first flags events after .thrown) :
      AndThen first second flags events after .thrown
  | both {flags events between following after ending}
      (run : first flags events between .completed)
      (next : second between following after ending) :
      AndThen first second flags (events ++ following) after ending

/-- Any number of runs, one after the other. -/
inductive Repeated (body : Behaviour) : Behaviour where
  | stop {flags} : Repeated body flags [] flags .completed
  | cut {flags events after} (run : body flags events after .thrown) :
      Repeated body flags events after .thrown
  | again {flags events between following after ending}
      (run : body flags events between .completed)
      (next : Repeated body between following after ending) :
      Repeated body flags (events ++ following) after ending

/-- Where the body throws, the handler runs after it. -/
inductive Handled (body handler : Behaviour) : Behaviour where
  | unneeded {flags events after} (run : body flags events after .completed) :
      Handled body handler flags events after .completed
  | needed {flags events between following after ending}
      (run : body flags events between .thrown)
      (next : handler between following after ending) :
      Handled body handler flags (events ++ following) after ending

/-- The cleanup runs after the body in any case. If it throws, that counts. -/
inductive CleanedUp (body cleanup : Behaviour) : Behaviour where
  | quiet {flags events between following after ending}
      (run : body flags events between ending)
      (next : cleanup between following after .completed) :
      CleanedUp body cleanup flags (events ++ following) after ending
  | loud {flags events between following after ending}
      (run : body flags events between ending)
      (next : cleanup between following after .thrown) :
      CleanedUp body cleanup flags (events ++ following) after .thrown

/-- An exception meets one of the clauses, or passes all of them. -/
def caught (catches : List CatchClause) : Behaviour :=
  fun flags events after ending =>
    (events = [] ∧ after = flags ∧ ending = .thrown) ∨
      ∃ clause ∈ catches, step (.clause clause.body) flags events after ending

def finallyClause : Option String → Behaviour
  | some code => step (.clause code)
  | none => skip

/-- A scope is opened, its body runs under its guard, and it is left; its flag goes with it. -/
inductive Scoped (opening : List Statement) (body : Behaviour) (guard : Guard) : Behaviour where
  | intro {flags begun opened events flag up after ending}
      (open_ : ofStatements opening flags begun opened .completed)
      (run :
        CleanedUp (Handled body (ofStatements guard.handler)) (ofStatements guard.cleanup)
          opened events ((flag, up) :: after) ending) :
      Scoped opening body guard flags (begun ++ events ++ [.left ending]) after ending

end Behaviour

namespace Woven

open Behaviour

mutual
def behaviour : Woven → Behaviour
  | element text => step (.element text)
  | action code => step (.action code)
  | earlyClose statements => ofStatements statements
  | sequence units => sequenceBehaviour units
  | choice alternatives => choiceBehaviour alternatives
  | group inner none => inner.behaviour
  | group inner (some .optional) => either skip inner.behaviour
  | group inner (some .many) => Repeated inner.behaviour
  | group inner (some .some) => AndThen inner.behaviour (Repeated inner.behaviour)
  | optional inner => either skip inner.behaviour
  | guarded inner catches finallyCode =>
      CleanedUp (Handled inner.behaviour (caught catches)) (finallyClause finallyCode)
  | scope _ opening body guard => Scoped opening body.behaviour guard

def sequenceBehaviour : List Woven → Behaviour
  | [] => skip
  | unit :: rest => AndThen unit.behaviour (sequenceBehaviour rest)

def choiceBehaviour : List Woven → Behaviour
  | [] => fun _ _ _ _ => False
  | alternative :: rest => either alternative.behaviour (choiceBehaviour rest)
end

end Woven

namespace WovenProduction

open Behaviour

def behaviour : WovenProduction → Behaviour
  | rules _ _ body => body.behaviour
  | scopedRules _ _ opening _ body guard => Scoped opening body.behaviour guard
  | code _ text => step (.element text)
  | scopedCode _ _ opening text guard => Scoped opening (step (.element text)) guard

/-- A production does this from its start to its end. -/
def Runs (p : WovenProduction) (events : List Event) (ending : Ending) : Prop :=
  ∃ after, p.behaviour [] events after ending

end WovenProduction

end NodeWeave
