import NodeWeave.Proofs.Scope.Run

/-!
Every scope that a run opens ends once, and inner scopes end before outer ones. A ledger follows a
run event by event and refuses what must not happen; the main statement is that it accepts every run
of a woven production and that no scope is open at the end.
-/

namespace NodeWeave

open Grammar

/-- How far a scope has come. -/
inductive Phase where
  /-- The code of the scope runs, and the scope is not closed. -/
  | running
  | closed
  /-- The scope was closed early, and its last action has begun. -/
  | finished
  /-- An exception came before the scope was closed. -/
  | cleared
  /-- An exception came after the scope was closed. -/
  | popped
  deriving DecidableEq, Repr

/-- The scopes that are open, innermost first: the node variable and the phase of each. -/
abbrev Ledger := List (String × Phase)

namespace Ledger

def isRunning : Ledger → Bool
  | [] => true
  | (_, phase) :: _ => phase == .running

/-- The ledger after an event, unless the event must not happen. Elements, actions and inner scopes
belong in a running scope, except for one action behind an early close. A scope is closed or
cleared once, and its node is popped only where its last action has begun. It is left in the end:
closed if its code completed, cleared or popped if an exception leaves it. -/
def record : Ledger → Event → Option Ledger
  | ledger, .element _ => if ledger.isRunning then some ledger else none
  | (var, .closed) :: outer, .action _ => some ((var, .finished) :: outer)
  | ledger, .action _ => if ledger.isRunning then some ledger else none
  | (var, .finished) :: outer, .clause _ => some ((var, .finished) :: outer)
  | ledger, .clause _ => if ledger.isRunning then some ledger else none
  | ledger, .opened var => if ledger.isRunning then some ((var, .running) :: ledger) else none
  | (var, .running) :: outer, .closed name =>
      if name = var then some ((var, .closed) :: outer) else none
  | (var, .running) :: outer, .cleared name =>
      if name = var then some ((var, .cleared) :: outer) else none
  | (var, .finished) :: outer, .popped => some ((var, .popped) :: outer)
  | (_, .closed) :: outer, .left .completed => some outer
  | (_, .finished) :: outer, .left .completed => some outer
  | (_, .cleared) :: outer, .left .thrown => some outer
  | (_, .popped) :: outer, .left .thrown => some outer
  | _, _ => none

def recordAll : Ledger → List Event → Option Ledger
  | ledger, [] => some ledger
  | ledger, event :: rest => (ledger.record event).bind fun next => recordAll next rest

@[simp] theorem recordAll_nil (ledger : Ledger) : ledger.recordAll [] = some ledger := rfl

@[simp] theorem recordAll_cons (ledger : Ledger) (event : Event) (rest : List Event) :
    ledger.recordAll (event :: rest) =
      (ledger.record event).bind fun next => next.recordAll rest := rfl

theorem recordAll_append {ledger between after : Ledger} {events following : List Event}
    (first : ledger.recordAll events = some between)
    (second : between.recordAll following = some after) :
    ledger.recordAll (events ++ following) = some after := by
  induction events generalizing ledger with
  | nil =>
      cases first
      exact second
  | cons event rest ih =>
      simp only [recordAll_cons, Option.bind_eq_some_iff] at first
      obtain ⟨next, recorded, first⟩ := first
      simp [recorded, ih first]

end Ledger

/-! ### Statements of a scope -/

namespace Statement

variable {flags after : Flags} {events : List Event} {ending : Ending}

theorem runs_silent_iff {statement : Statement} {rest : List Statement}
    (quiet : statement.isSilent = true) :
    Runs flags (statement :: rest) events after ending ↔ Runs flags rest events after ending := by
  constructor
  · intro run
    cases run <;> first | assumption | simp [isSilent] at quiet
  · exact .silent quiet

theorem runs_append_of_silent {quiet rest : List Statement}
    (silent : ∀ statement ∈ quiet, statement.isSilent = true) :
    Runs flags (quiet ++ rest) events after ending ↔ Runs flags rest events after ending := by
  induction quiet with
  | nil => rfl
  | cons statement others ih =>
      rw [List.cons_append, runs_silent_iff (silent statement List.mem_cons_self)]
      exact ih fun other mem => silent other (List.mem_cons_of_mem _ mem)

theorem runs_iff_of_silent {quiet : List Statement}
    (silent : ∀ statement ∈ quiet, statement.isSilent = true) :
    Runs flags quiet events after ending ↔ events = [] ∧ after = flags ∧ ending = .completed := by
  rw [← List.append_nil quiet, runs_append_of_silent silent]
  constructor
  · intro run
    cases run
    exact ⟨rfl, rfl, rfl⟩
  · rintro ⟨rfl, rfl, rfl⟩
    exact .done

end Statement

namespace ScopeStyle

variable (style : ScopeStyle) (scope : Scope)

theorem silent_openHook? : ∀ s ∈ (style.openHook? scope).toList, s.isSilent = true := by
  unfold openHook?
  split <;> simp [Statement.isSilent]

theorem silent_closeHook? : ∀ s ∈ (style.closeHook? scope).toList, s.isSilent = true := by
  unfold closeHook?
  split <;> simp [Statement.isSilent]

theorem silent_firstToken? : ∀ s ∈ (style.firstToken? scope).toList, s.isSilent = true := by
  unfold firstToken?
  split <;> simp [Statement.isSilent]

theorem silent_lastToken? : ∀ s ∈ (style.lastToken? scope).toList, s.isSilent = true := by
  unfold lastToken?
  split <;> simp [Statement.isSilent]

/-- The opening declares the flag, raised, and opens the scope; the rest is silent. -/
theorem opening_eq : ∃ before after : List Statement,
    (∀ s ∈ before, s.isSilent = true) ∧ (∀ s ∈ after, s.isSilent = true) ∧
      style.opening scope =
        style.makeNode scope :: .raiseFlag scope.names.flag ::
          (before ++ scope.openCall :: after) := by
  refine ⟨(if style.switches.tokensBeforeHooks then (style.firstToken? scope).toList else []) ++
      (style.openHook? scope).toList,
    if style.switches.tokensBeforeHooks then [] else (style.firstToken? scope).toList,
    ?_, ?_, by simp [opening]⟩
  · intro s mem
    rcases List.mem_append.mp mem with token | hook
    · split at token
      · exact style.silent_firstToken? scope s token
      · cases token
    · exact style.silent_openHook? scope s hook
  · intro s mem
    split at mem
    · cases mem
    · exact style.silent_firstToken? scope s mem

/-- The closing closes the scope and lowers the flag where code follows; the rest is silent. -/
theorem closing_eq (final : Bool) : ∃ before after : List Statement,
    (∀ s ∈ before, s.isSilent = true) ∧ (∀ s ∈ after, s.isSilent = true) ∧
      style.closing scope final =
        before ++ style.closeScope scope ::
          ((if final then [] else [.lowerFlag scope.names.flag]) ++ after) := by
  refine ⟨if style.switches.tokensBeforeHooks then (style.lastToken? scope).toList else [],
    (style.closeHook? scope).toList ++
      if style.switches.tokensBeforeHooks then [] else (style.lastToken? scope).toList,
    ?_, ?_, by simp [closing]⟩
  · intro s mem
    split at mem
    · exact style.silent_lastToken? scope s mem
    · cases mem
  · intro s mem
    rcases List.mem_append.mp mem with hook | token
    · exact style.silent_closeHook? scope s hook
    · split at token
      · cases token
      · exact style.silent_lastToken? scope s token

variable {style scope} {flags outer after : Flags} {events : List Event} {ending : Ending}

theorem runs_opening_iff :
    Statement.Runs flags (style.opening scope) events after ending ↔
      events = [.opened scope.names.node] ∧ after = (scope.names.flag, true) :: flags ∧
        ending = .completed := by
  obtain ⟨before, behind, silentBefore, silentBehind, same⟩ := style.opening_eq scope
  rw [same, Statement.runs_silent_iff rfl]
  constructor
  · intro run
    cases run with
    | silent quiet _ => cases quiet
    | raiseFlag next =>
        cases (Statement.runs_append_of_silent silentBefore).mp next with
        | silent quiet _ => cases quiet
        | openScope last =>
            obtain ⟨rfl, rfl, rfl⟩ := (Statement.runs_iff_of_silent silentBehind).mp last
            exact ⟨rfl, rfl, rfl⟩
  · rintro ⟨rfl, rfl, rfl⟩
    apply Statement.Runs.raiseFlag
    rw [Statement.runs_append_of_silent silentBefore]
    apply Statement.Runs.openScope
    exact (Statement.runs_iff_of_silent silentBehind).mpr ⟨rfl, rfl, rfl⟩

theorem runs_closing_iff {final : Bool} {up : Bool} :
    Statement.Runs ((scope.names.flag, up) :: outer) (style.closing scope final) events after
        ending ↔
      events = [.closed scope.names.node] ∧
        after = (scope.names.flag, up && final) :: outer ∧ ending = .completed := by
  obtain ⟨before, behind, silentBefore, silentBehind, same⟩ := style.closing_eq scope final
  rw [same, Statement.runs_append_of_silent silentBefore]
  constructor
  · intro run
    cases run with
    | silent quiet _ => cases quiet
    | closeScope next =>
        cases final with
        | true =>
            obtain ⟨rfl, rfl, rfl⟩ := (Statement.runs_iff_of_silent silentBehind).mp next
            simp
        | false =>
            cases next with
            | silent quiet _ => cases quiet
            | lowerFlag last =>
                obtain ⟨rfl, rfl, rfl⟩ := (Statement.runs_iff_of_silent silentBehind).mp last
                simp
  · rintro ⟨rfl, rfl, rfl⟩
    apply Statement.Runs.closeScope
    cases final with
    | true => exact (Statement.runs_iff_of_silent silentBehind).mpr (by simp)
    | false =>
        apply Statement.Runs.lowerFlag
        exact (Statement.runs_iff_of_silent silentBehind).mpr (by simp)

/-- The cleanup closes a scope whose flag is up, and does nothing else. -/
theorem runs_cleanup_iff {up : Bool} :
    Statement.Runs ((scope.names.flag, up) :: outer) (style.cleanup scope) events after ending ↔
      events = (if up then [.closed scope.names.node] else []) ∧
        after = (scope.names.flag, up) :: outer ∧ ending = .completed := by
  have body : (if Flags.isUp scope.names.flag ((scope.names.flag, up) :: outer) then
      style.closing scope true else []) ++ [] = if up then style.closing scope true else [] := by
    simp
  have split : Statement.Runs ((scope.names.flag, up) :: outer) (style.cleanup scope) events after
        ending ↔
      Statement.Runs ((scope.names.flag, up) :: outer)
        (if up then style.closing scope true else []) events after ending := by
    rw [← body]
    constructor
    · intro run
      cases run with
      | silent quiet _ => cases quiet
      | ifFlag next => exact next
    · exact .ifFlag
  rw [split]
  cases up with
  | true =>
      rw [if_pos rfl, if_pos rfl]
      exact runs_closing_iff
  | false => exact Statement.runs_iff_of_silent (by simp)

end ScopeStyle

namespace Scope

variable {scope : Scope} {outer after : Flags} {events : List Event} {ending : Ending}

theorem runs_rethrows_iff {flags : Flags} {exceptions : List String} :
    Statement.Runs flags
        (exceptions.map (.rethrow scope.names.exception) ++ [.throwAsError scope.names.exception])
        events after ending ↔
      events = [] ∧ after = flags ∧ ending = .thrown := by
  constructor
  · intro run
    induction exceptions with
    | nil =>
        cases run with
        | silent quiet _ => cases quiet
        | throwAsError => exact ⟨rfl, rfl, rfl⟩
    | cons exception rest ih =>
        cases run with
        | silent quiet _ => cases quiet
        | rethrown => exact ⟨rfl, rfl, rfl⟩
        | notRethrown next => exact ih next
  · rintro ⟨rfl, rfl, rfl⟩
    cases exceptions with
    | nil => exact .throwAsError
    | cons exception rest => exact .rethrown

/-- The handler clears a scope whose flag is up and pops the node of any other, and throws on. -/
theorem runs_handler_iff {exceptions : List String} {up : Bool} :
    Statement.Runs ((scope.names.flag, up) :: outer) (scope.handler exceptions) events after
        ending ↔
      events = [if up then .cleared scope.names.node else .popped] ∧
        after = (scope.names.flag, false) :: outer ∧ ending = .thrown := by
  constructor
  · intro run
    cases run with
    | silent quiet _ => cases quiet
    | ifFlagElse next =>
        rw [Flags.isUp_cons_self] at next
        cases up with
        | true =>
            cases next with
            | silent quiet _ => cases quiet
            | clearScope next =>
                cases next with
                | silent quiet _ => cases quiet
                | lowerFlag next =>
                    obtain ⟨rfl, rfl, rfl⟩ := runs_rethrows_iff.mp next
                    simp
        | false =>
            cases next with
            | silent quiet _ => cases quiet
            | popNode next =>
                obtain ⟨rfl, rfl, rfl⟩ := runs_rethrows_iff.mp next
                simp
  · rintro ⟨rfl, rfl, rfl⟩
    apply Statement.Runs.ifFlagElse
    rw [Flags.isUp_cons_self]
    cases up with
    | true =>
        refine .clearScope (.lowerFlag ?_)
        rw [Flags.lower_cons_self]
        exact runs_rethrows_iff.mpr ⟨rfl, rfl, rfl⟩
    | false => exact .popNode (runs_rethrows_iff.mpr ⟨rfl, rfl, rfl⟩)

end Scope

/-! ### Code inside a scope -/

/-- The flags in the code of a scope whose flag is up or down. Outside all scopes there is no such
flag. -/
def Flags.inside (outer : Flags) (up : Bool) : Option Scope → Flags
  | none => outer
  | some scope => (scope.names.flag, up) :: outer

/-- The ledger in the code of a scope: while its flag is up it runs, and then it is finished. -/
def Ledger.inside (outer : Ledger) (up : Bool) : Option Scope → Ledger
  | none => outer
  | some scope => (scope.names.node, if up then .running else .finished) :: outer

namespace Behaviour

/-- Code of a running scope keeps the ledger of that scope. Only code in the last place may lower
the flag, and the scope is then finished. -/
def Keeps (behaviour : Behaviour) (scope : Option Scope) (last : Bool) : Prop :=
  ∀ ⦃flags : Flags⦄ ⦃ledger : Ledger⦄ ⦃events : List Event⦄ ⦃after : Flags⦄ ⦃ending : Ending⦄,
    (ledger.inside true scope).isRunning = true →
      behaviour (flags.inside true scope) events after ending →
        ∃ up, (last = false → up = true) ∧ after = flags.inside up scope ∧
          (ledger.inside true scope).recordAll events = some (ledger.inside up scope)

/-- Code that changes nothing, whether or not the scope is finished. -/
def IsNeutral (behaviour : Behaviour) (scope : Option Scope) : Prop :=
  ∀ ⦃flags : Flags⦄ ⦃ledger : Ledger⦄ ⦃up : Bool⦄ ⦃events : List Event⦄ ⦃after : Flags⦄
    ⦃ending : Ending⦄, (ledger.inside true scope).isRunning = true →
      behaviour (flags.inside up scope) events after ending →
        after = flags.inside up scope ∧
          (ledger.inside up scope).recordAll events = some (ledger.inside up scope)

variable {scope : Option Scope} {last : Bool}

theorem Keeps.weaken {behaviour : Behaviour} (keeps : behaviour.Keeps scope false) :
    behaviour.Keeps scope last := by
  intro flags ledger events after ending running run
  obtain ⟨up, high, kept⟩ := keeps running run
  exact ⟨up, fun _ => high rfl, kept⟩

theorem keeps_skip : skip.Keeps scope last := by
  intro flags ledger events after ending running run
  obtain ⟨rfl, rfl, rfl⟩ := run
  exact ⟨true, fun _ => rfl, rfl, rfl⟩

theorem keeps_element (text : String) : (step (.element text)).Keeps scope last := by
  intro flags ledger events after ending running run
  obtain ⟨rfl, rfl⟩ := run
  exact ⟨true, fun _ => rfl, rfl, by simp [Ledger.record, running]⟩

theorem record_action {ledger : Ledger} (code : String) (running : ledger.isRunning = true) :
    ledger.record (.action code) = some ledger := by
  match ledger, running with
  | [], _ => rfl
  | (_, .running) :: _, _ => rfl

theorem keeps_action (code : String) : (step (.action code)).Keeps scope last := by
  intro flags ledger events after ending running run
  obtain ⟨rfl, rfl⟩ := run
  exact ⟨true, fun _ => rfl, rfl, by simp [record_action code running]⟩

theorem isNeutral_clause (code : String) : (step (.clause code)).IsNeutral scope := by
  intro flags ledger up events after ending running run
  obtain ⟨rfl, rfl⟩ := run
  refine ⟨rfl, ?_⟩
  cases scope with
  | none =>
      match ledger, running with
      | [], _ => rfl
      | (_, .running) :: _, _ => rfl
  | some scope => cases up <;> rfl

theorem isNeutral_caught (catches : List CatchClause) : (caught catches).IsNeutral scope := by
  intro flags ledger up events after ending running run
  rcases run with ⟨rfl, rfl, rfl⟩ | ⟨clause, _, run⟩
  · exact ⟨rfl, rfl⟩
  · exact isNeutral_clause clause.body running run

theorem isNeutral_finallyClause (code : Option String) : (finallyClause code).IsNeutral scope := by
  cases code with
  | none =>
      intro flags ledger up events after ending running run
      obtain ⟨rfl, rfl, rfl⟩ := run
      exact ⟨rfl, rfl⟩
  | some code => exact isNeutral_clause code

theorem Keeps.either {first second : Behaviour} (keepsFirst : first.Keeps scope last)
    (keepsSecond : second.Keeps scope last) : (first.either second).Keeps scope last := by
  intro flags ledger events after ending running run
  rcases run with run | run
  · exact keepsFirst running run
  · exact keepsSecond running run

theorem Keeps.andThen {first second : Behaviour} (keepsFirst : first.Keeps scope false)
    (keepsSecond : second.Keeps scope last) : (first.AndThen second).Keeps scope last := by
  intro flags ledger events after ending running run
  cases run with
  | cut run => exact keepsFirst.weaken running run
  | both run next =>
      obtain ⟨up, high, rfl, recorded⟩ := keepsFirst running run
      cases high rfl
      obtain ⟨up, high, same, following⟩ := keepsSecond running next
      exact ⟨up, high, same, Ledger.recordAll_append recorded following⟩

theorem Keeps.andThen_skip {body : Behaviour} (keeps : body.Keeps scope last) :
    (body.AndThen skip).Keeps scope last := by
  intro flags ledger events after ending running run
  cases run with
  | cut run => exact keeps running run
  | both run next =>
      obtain ⟨rfl, rfl, rfl⟩ := next
      rw [List.append_nil]
      exact keeps running run

theorem Keeps.repeated {body : Behaviour} (keeps : body.Keeps scope false) :
    body.Repeated.Keeps scope false := by
  intro flags ledger events after ending running run
  generalize before : flags.inside true scope = start at run
  induction run with
  | stop => exact ⟨true, fun _ => rfl, before.symm, rfl⟩
  | cut run =>
      subst before
      exact keeps running run
  | again run _ ih =>
      subst before
      obtain ⟨up, high, rfl, recorded⟩ := keeps running run
      cases high rfl
      obtain ⟨up, high, same, following⟩ := ih rfl
      exact ⟨up, high, same, Ledger.recordAll_append recorded following⟩

theorem Keeps.handled {body handler : Behaviour} (keeps : body.Keeps scope last)
    (neutral : handler.IsNeutral scope) : (body.Handled handler).Keeps scope last := by
  intro flags ledger events after ending running run
  cases run with
  | unneeded run => exact keeps running run
  | needed run next =>
      obtain ⟨up, high, rfl, recorded⟩ := keeps running run
      obtain ⟨rfl, following⟩ := neutral running next
      exact ⟨up, high, rfl, Ledger.recordAll_append recorded following⟩

theorem Keeps.cleanedUp {body cleanup : Behaviour} (keeps : body.Keeps scope last)
    (neutral : cleanup.IsNeutral scope) : (body.CleanedUp cleanup).Keeps scope last := by
  intro flags ledger events after ending running run
  cases run with
  | quiet run next | loud run next =>
      obtain ⟨up, high, rfl, recorded⟩ := keeps running run
      obtain ⟨rfl, following⟩ := neutral running next
      exact ⟨up, high, rfl, Ledger.recordAll_append recorded following⟩

/-- An early close and the action behind it finish the scope. -/
theorem keeps_closing_action (style : ScopeStyle) (scope : Scope) (code : String) :
    ((ofStatements (style.closing scope false)).AndThen ((step (.action code)).AndThen skip)).Keeps
      (some scope) true := by
  intro flags ledger events after ending running run
  cases run with
  | cut run => cases (ScopeStyle.runs_closing_iff.mp run).2.2
  | both run next =>
      obtain ⟨rfl, rfl, _⟩ := ScopeStyle.runs_closing_iff.mp run
      refine ⟨false, nofun, ?_⟩
      cases next with
      | cut step =>
          obtain ⟨rfl, rfl⟩ := step
          simp [Flags.inside, Ledger.inside, Ledger.record]
      | both step done =>
          obtain ⟨rfl, rfl⟩ := step
          obtain ⟨rfl, rfl, _⟩ := done
          simp [Flags.inside, Ledger.inside, Ledger.record]

/-- When the body of a guarded scope and its handler have run, the scope still runs and its flag is
up, or the flag is down and the scope can be left. -/
theorem Keeps.handled_by_guard {inner : Scope} {body : Behaviour} {exceptions : List String}
    (keeps : body.Keeps (some inner) true) (ledger : Ledger) {flags : Flags} {events : List Event}
    {after : Flags} {ending : Ending}
    (run : body.Handled (ofStatements (inner.handler exceptions)) (flags.inside true (some inner))
      events after ending) :
    ∃ up phase, after = (inner.names.flag, up) :: flags ∧
      (ledger.inside true (some inner)).recordAll events =
        some ((inner.names.node, phase) :: ledger) ∧
      (up = true ∧ phase = .running ∧ ending = .completed ∨
        up = false ∧ Ledger.record ((inner.names.node, phase) :: ledger) (.left ending) =
          some ledger) := by
  cases run with
  | unneeded run =>
      obtain ⟨up, _, rfl, recorded⟩ := keeps rfl run
      refine ⟨up, _, rfl, recorded, ?_⟩
      cases up with
      | true => exact .inl ⟨rfl, rfl, rfl⟩
      | false => exact .inr ⟨rfl, rfl⟩
  | needed run handling =>
      obtain ⟨up, _, rfl, recorded⟩ := keeps rfl run
      obtain ⟨rfl, rfl, rfl⟩ := Scope.runs_handler_iff.mp handling
      refine ⟨false, if up then .cleared else .popped, rfl,
        Ledger.recordAll_append recorded ?_, .inr ⟨rfl, ?_⟩⟩
      · cases up <;> simp [Ledger.inside, Ledger.record]
      · cases up <;> rfl

/-- A guarded scope leaves everything outside as it was, if its body keeps the ledger of the
scope. -/
theorem Keeps.scoped {style : ScopeStyle} {inner : Scope} {body : Behaviour}
    {exceptions : List String} (keeps : body.Keeps (some inner) true) :
    (body.Scoped (style.opening inner) (style.guard inner exceptions)).Keeps scope last := by
  intro flags ledger events after ending running run
  cases run with
  | intro opens run =>
      obtain ⟨rfl, rfl, _⟩ := ScopeStyle.runs_opening_iff.mp opens
      have entered : (ledger.inside true scope).recordAll [.opened inner.names.node] =
          some ((ledger.inside true scope).inside true (some inner)) := by
        rw [Ledger.recordAll_cons, Ledger.record, if_pos running]
        rfl
      cases run with
      | loud run cleaning =>
          obtain ⟨up, phase, rfl, _, _⟩ := keeps.handled_by_guard ledger run
          cases (ScopeStyle.runs_cleanup_iff.mp cleaning).2.2
      | quiet run cleaning =>
          obtain ⟨up, phase, rfl, recorded, state⟩ :=
            keeps.handled_by_guard (ledger.inside true scope) run
          obtain ⟨rfl, same, _⟩ := ScopeStyle.runs_cleanup_iff.mp cleaning
          cases same
          refine ⟨true, fun _ => rfl, rfl, ?_⟩
          rw [List.append_assoc, List.append_assoc]
          refine Ledger.recordAll_append entered (Ledger.recordAll_append recorded ?_)
          rcases state with ⟨rfl, rfl, rfl⟩ | ⟨rfl, left⟩
          · simp [Ledger.record]
          · simp [left]

end Behaviour

/-! ### Woven code -/

namespace Grammar

open Behaviour

theorem keeps_weaveAction (style : ScopeStyle) (scope : Option Scope) (atEnd : Bool)
    (code : String) : (weaveAction style scope atEnd code).behaviour.Keeps scope atEnd := by
  unfold weaveAction
  cases scope with
  | none => exact keeps_action _
  | some scope =>
      cases closes : style.closesBeforeAction scope atEnd with
      | false =>
          simp only [closes]
          exact keeps_action _
      | true =>
          have final : atEnd = true := by
            simp only [ScopeStyle.closesBeforeAction, Bool.and_eq_true] at closes
            exact closes.1
          subst final
          simp only [closes, if_true]
          rw [Woven.behaviour, Woven.sequenceBehaviour, Woven.sequenceBehaviour,
            Woven.sequenceBehaviour, Woven.behaviour, Woven.behaviour]
          exact keeps_closing_action style scope _

variable (g : Grammar) (style : ScopeStyle) (p : Production)

mutual
theorem keeps_weaveExpansion (scope : Option Scope) (atEnd : Bool) (e : Expansion) :
    (g.weaveExpansion style p scope atEnd e).behaviour.Keeps scope atEnd := by
  cases e with
  | sequence units =>
      rw [weaveExpansion, Woven.behaviour]
      exact keeps_weaveSequence scope atEnd units
  | choice alternatives =>
      rw [weaveExpansion, Woven.behaviour]
      exact keeps_weaveChoices scope atEnd alternatives
  | lookahead text => exact keeps_element text
  | action code => exact keeps_weaveAction style scope atEnd code
  | reference target name arguments => exact keeps_element _
  | terminal target text => exact keeps_element _
  | group inner occurrence =>
      rw [weaveExpansion]
      have inside := keeps_weaveExpansion scope (atEnd && occurrence.isNone) inner
      cases occurrence with
      | none => simpa [Woven.behaviour] using inside
      | some occurrence =>
          rw [Option.isNone_some, Bool.and_false] at inside ⊢
          cases occurrence with
          | optional => exact keeps_skip.either inside.weaken
          | many => exact inside.repeated.weaken
          | some => exact inside.andThen inside.repeated.weaken
  | optional inner =>
      rw [weaveExpansion, Woven.behaviour]
      exact keeps_skip.either (keeps_weaveExpansion scope false inner).weaken
  | annotated inner node =>
      rw [weaveExpansion]
      split
      · exact keeps_weaveExpansion scope atEnd inner
      · next opened _ => exact (keeps_weaveExpansion (some opened) true inner).scoped
  | guarded inner catches finallyCode =>
      rw [weaveExpansion, Woven.behaviour]
      exact ((keeps_weaveExpansion scope atEnd inner).handled (isNeutral_caught _)).cleanedUp
        (isNeutral_finallyClause _)

theorem keeps_weaveSequence (scope : Option Scope) (atEnd : Bool) (units : List Expansion) :
    (Woven.sequenceBehaviour (g.weaveSequence style p scope atEnd units)).Keeps scope atEnd := by
  match units with
  | [] => exact keeps_skip
  | [last] =>
      rw [weaveSequence, Woven.sequenceBehaviour, Woven.sequenceBehaviour]
      exact (keeps_weaveExpansion scope atEnd last).andThen_skip
  | unit :: second :: rest =>
      rw [weaveSequence, Woven.sequenceBehaviour]
      · exact (keeps_weaveExpansion scope false unit).andThen
          (keeps_weaveSequence scope atEnd (second :: rest))
      · nofun

theorem keeps_weaveChoices (scope : Option Scope) (atEnd : Bool)
    (alternatives : List Expansion) :
    (Woven.choiceBehaviour (g.weaveChoices style p scope atEnd alternatives)).Keeps scope
      atEnd := by
  match alternatives with
  | [] => exact fun _ _ _ _ _ _ run => run.elim
  | alternative :: rest =>
      rw [weaveChoices, Woven.choiceBehaviour]
      exact (keeps_weaveExpansion scope atEnd alternative).either
        (keeps_weaveChoices scope atEnd rest)
end

/-- Every run of a woven production keeps the ledger, and all scopes it opened are left at its
end. -/
theorem recordAll_weaveProduction {events : List Event} {ending : Ending}
    (run : (g.weaveProduction style p).Runs events ending) :
    Ledger.recordAll [] events = some [] := by
  obtain ⟨after, run⟩ := run
  have closed {behaviour : Behaviour} (keeps : behaviour.Keeps none false)
      (run : behaviour [] events after ending) : Ledger.recordAll [] events = some [] := by
    obtain ⟨_, _, _, recorded⟩ := @keeps [] [] _ _ _ rfl run
    exact recorded
  unfold weaveProduction at run
  split at run
  · exact closed (g.keeps_weaveExpansion style p none false _) run
  · exact closed (g.keeps_weaveExpansion style p _ true _).scoped run
  · exact closed (keeps_element _) run
  · exact closed (keeps_element _).scoped run

def nestedProduction : Production :=
  { name := "A"
    header := "void A()"
    throws := []
    descriptor := none
    body := .rules "" (.sequence [.reference none "B" "",
      .annotated (.group (.sequence [.terminal none "<X>", .action "b();"]) none) ⟨"N", none⟩])
    offset := 0 }

/-- The last action of the inner scope throws, so that scope loses its node and the outer one is
cleared. -/
theorem recordAll_weaveProduction_nested :
    let events : List Event :=
      [.opened "jjtn000", .element "B()", .opened "jjtn001", .element "<X>", .closed "jjtn001",
        .action "b();", .popped, .left .thrown, .cleared "jjtn000", .left .thrown]
    let g : Grammar := ⟨"g", [.production nestedProduction]⟩
    (g.weaveProduction ⟨{}, {}⟩ nestedProduction).Runs events .thrown ∧
      Ledger.recordAll [] events = some [] := by
  intro events g
  have reads (event : Event) (flags : Flags) : step event flags [event] flags .completed :=
    ⟨rfl, rfl⟩
  have guarded {body : Behaviour} {scope : Scope} {exceptions : List String} {flags : Flags}
      (up : Bool) (before : List Event)
      (run : body ((scope.names.flag, true) :: flags) before ((scope.names.flag, up) :: flags)
        .thrown) :
      body.Scoped (ScopeStyle.opening ⟨{}, {}⟩ scope) (ScopeStyle.guard ⟨{}, {}⟩ scope exceptions)
        flags ([.opened scope.names.node] ++ ((before ++
          [if up then .cleared scope.names.node else .popped]) ++ []) ++ [.left .thrown]) flags
        .thrown :=
    .intro (ScopeStyle.runs_opening_iff.mpr ⟨rfl, rfl, rfl⟩)
      (.quiet (.needed run (Scope.runs_handler_iff.mpr ⟨rfl, rfl, rfl⟩))
        (ScopeStyle.runs_cleanup_iff.mpr ⟨rfl, rfl, rfl⟩))
  have run : (g.weaveProduction ⟨{}, {}⟩ nestedProduction).Runs events .thrown := by
    refine ⟨[], ?_⟩
    change Scoped _ _ _ _ _ _ _
    refine guarded true [.element "B()", .opened "jjtn001", .element "<X>", .closed "jjtn001",
      .action "b();", .popped, .left .thrown] ?_
    change AndThen _ _ _ _ _ _
    refine .both (reads (.element "B()") _) (.cut ?_)
    change Scoped _ _ _ _ _ _ _
    refine guarded false [.element "<X>", .closed "jjtn001", .action "b();"] ?_
    change AndThen _ _ _ _ _ _
    refine .both (reads (.element "<X>") _) (.cut ?_)
    change AndThen _ _ _ _ _ _
    exact @AndThen.both _ _ _ [.closed "jjtn001"] _ _ _ _
      (ScopeStyle.runs_closing_iff.mpr ⟨rfl, rfl, rfl⟩) (.cut ⟨rfl, rfl⟩)
  exact ⟨run, recordAll_weaveProduction _ _ _ run⟩

end Grammar

end NodeWeave
