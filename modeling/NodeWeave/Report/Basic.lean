import NodeWeave.Fault
import NodeWeave.Report.Place
import NodeWeave.Text.Casing

/-!
Reports: what is found on the way and does not end the work. A function that reports gives its
reports beside its result, in order.
-/

namespace NodeWeave

/-- How serious a report is, from least to most. Progress ranks above warnings, so that it still
shows where warnings do. -/
inductive Severity where
  | ignore
  | debug
  | fine
  | warning
  | normal
  | error
  | fail
  deriving DecidableEq, Repr

namespace Severity

def rank : Severity → Nat
  | ignore => 0
  | debug => 1
  | fine => 2
  | warning => 3
  | normal => 4
  | error => 5
  | fail => 6

instance : LE Severity := ⟨fun a b => a.rank ≤ b.rank⟩

instance : LT Severity := ⟨fun a b => a.rank < b.rank⟩

instance (a b : Severity) : Decidable (a ≤ b) := inferInstanceAs (Decidable (a.rank ≤ b.rank))

instance (a b : Severity) : Decidable (a < b) := inferInstanceAs (Decidable (a.rank < b.rank))

instance : Max Severity := ⟨fun a b => if a ≤ b then b else a⟩

def name : Severity → String
  | ignore => "ignore"
  | debug => "debug"
  | fine => "fine"
  | warning => "warning"
  | normal => "info"
  | error => "error"
  | fail => "fatal"

/-- The severity with a name. The case of ASCII letters does not matter. -/
def ofName? (text : String) : Option Severity :=
  match Text.upperAscii text with
  | "IGNORE" => some ignore
  | "DEBUG" => some debug
  | "FINE" => some fine
  | "WARNING" | "WARN" => some warning
  | "NORMAL" | "INFO" => some normal
  | "ERROR" => some error
  | "FAIL" | "FATAL" => some fail
  | _ => none

def isError (s : Severity) : Bool :=
  decide (error ≤ s)

@[simp] theorem isError_iff (s : Severity) : s.isError = true ↔ s = error ∨ s = fail := by
  cases s <;> decide

end Severity

inductive Category where
  | unmatchedHierarchyRegex
  | exactNodeNotInGrammar
  | regexShouldBeLeaf
  | uncoveredNode
  | multipleHierarchyRoots
  | noHierarchyRoots
  | wrongType
  | invalidRegex
  | duplicateMatch
  | classNotGenerated
  | classGenerated
  | incompleteVisitorSpec
  | normalExecMessage
  | debug
  | nonFatal
  | fatalError
  deriving DecidableEq, Repr

namespace Category

def name : Category → String
  | unmatchedHierarchyRegex => "UnmatchedHierarchyRegex"
  | exactNodeNotInGrammar => "ExactNodeNotInGrammar"
  | regexShouldBeLeaf => "RegexShouldBeLeaf"
  | uncoveredNode => "UncoveredNode"
  | multipleHierarchyRoots => "MultipleHierarchyRoots"
  | noHierarchyRoots => "NoHierarchyRoots"
  | wrongType => "WrongType"
  | invalidRegex => "InvalidRegex"
  | duplicateMatch => "DuplicateMatch"
  | classNotGenerated => "ClassNotGenerated"
  | classGenerated => "ClassGenerated"
  | incompleteVisitorSpec => "IncompleteVisitorSpec"
  | normalExecMessage => "NormalExecMessage"
  | debug => "Debug"
  | nonFatal => "NonFatal"
  | fatalError => "FatalError"

def all : List Category :=
  [unmatchedHierarchyRegex, exactNodeNotInGrammar, regexShouldBeLeaf, uncoveredNode,
    multipleHierarchyRoots, noHierarchyRoots, wrongType, invalidRegex, duplicateMatch,
    classNotGenerated, classGenerated, incompleteVisitorSpec, normalExecMessage, debug, nonFatal,
    fatalError]

def ofName? (name : String) : Option Category :=
  all.find? fun c => c.name == name

@[simp] theorem mem_all (c : Category) : c ∈ all := by
  cases c <;> decide

@[simp] theorem ofName?_name (c : Category) : ofName? c.name = some c := by
  cases c <;> decide

/-- The severity of a report of this category, unless it states another one. -/
def severity : Category → Severity
  | unmatchedHierarchyRegex | regexShouldBeLeaf | uncoveredNode | duplicateMatch
  | incompleteVisitorSpec => .warning
  | multipleHierarchyRoots | noHierarchyRoots | wrongType | invalidRegex | nonFatal => .error
  | exactNodeNotInGrammar | classNotGenerated | classGenerated => .fine
  | normalExecMessage => .normal
  | debug => .debug
  | fatalError => .fail

end Category

structure Report where
  category : Category
  severity : Severity
  message : String
  places : List Place
  deriving DecidableEq, Repr

namespace Report

def make (category : Category) (message : String) (places : List Place := []) : Report :=
  { category, severity := category.severity, message, places }

def normal (message : String) : Report :=
  make .normalExecMessage message

def debug (message : String) : Report :=
  make .debug message

def nonFatal (message : String) (place : Option Place := none) : Report :=
  make .nonFatal message place.toList

def ofFault (context : String) (fault : Fault) : Report :=
  make .nonFatal (context ++ ": " ++ fault.message)

@[simp] theorem make_severity (category : Category) (message : String) (places : List Place) :
    (make category message places).severity = category.severity := rfl

end Report

structure Reported (α : Type) where
  value : α
  reports : List Report := []

namespace Reported

variable {α β : Type}

instance : Monad Reported where
  pure value := { value }
  bind first next :=
    let second := next first.value
    { value := second.value, reports := first.reports ++ second.reports }

def tell (reports : List Report) : Reported Unit :=
  { value := (), reports }

@[simp] theorem pure_value (a : α) : (pure a : Reported α).value = a := rfl

@[simp] theorem pure_reports (a : α) : (pure a : Reported α).reports = [] := rfl

@[simp] theorem bind_value (x : Reported α) (f : α → Reported β) :
    (x >>= f).value = (f x.value).value := rfl

@[simp] theorem bind_reports (x : Reported α) (f : α → Reported β) :
    (x >>= f).reports = x.reports ++ (f x.value).reports := rfl

@[simp] theorem tell_reports (reports : List Report) : (tell reports).reports = reports := rfl

end Reported

end NodeWeave
