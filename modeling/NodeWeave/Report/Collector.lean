import NodeWeave.Report.Basic

/-! Collectors take reports: one keeps them, one prints them, one drops them. -/

namespace NodeWeave

inductive PrintMode where
  /-- Every report with its places. -/
  | full
  /-- Progress and errors only; warnings are counted and summed up at the end. -/
  | aggregate
  deriving DecidableEq, Repr

inductive CollectorKind where
  | recording
  | printing (mode : PrintMode)
  | dropping
  deriving DecidableEq, Repr

structure Collector where
  kind : CollectorKind
  least : Severity
  kept : List Report := []
  printed : List String := []
  max : Severity := .ignore
  warnings : Nat := 0
  errors : Nat := 0
  deriving Repr

namespace Collector

def hides (c : Collector) (report : Report) : Bool :=
  report.severity < c.least || report.severity = .ignore

def padding : Nat := 12

def padRight (width : Nat) (text : String) : String :=
  text ++ String.ofList (List.replicate (width - text.length) ' ')

def fullLines (report : Report) : List String :=
  (padRight padding ("[" ++ report.severity.name ++ "]") ++ report.message) ::
    report.places.map fun place => padRight padding "" ++ place.text

def printedLines (mode : PrintMode) (report : Report) : List String :=
  match mode with
  | .full => fullLines report
  | .aggregate =>
      if report.severity = .normal then [report.message]
      else if report.severity.isError then fullLines report
      else []

/-- Takes a report. The severity is the one surfaced, or that of nothing where the report is
hidden. -/
def take (c : Collector) (report : Report) : Collector × Severity :=
  match c.kind with
  | .dropping => (c, report.severity)
  | .recording =>
      if c.hides report then (c, .ignore)
      else
        ({ c with kept := c.kept ++ [report], max := Max.max c.max report.severity },
          report.severity)
  | .printing mode =>
      if c.hides report then (c, .ignore)
      else
        ({ c with
            printed := c.printed ++ printedLines mode report
            max := Max.max c.max report.severity
            warnings := c.warnings + if report.severity = .warning then 1 else 0
            errors := c.errors + if report.severity.isError then 1 else 0 },
          report.severity)

def takeAll (c : Collector) (reports : List Report) : Collector :=
  reports.foldl (fun c report => (c.take report).1) c

def counted (n : Nat) (word : String) : String :=
  if n = 1 then toString n ++ " " ++ word else toString n ++ " " ++ word ++ "s"

/-- The line that sums up warnings and errors, unless there are none. -/
def summary? (errors warnings : Nat) : Option String :=
  match errors, warnings with
  | 0, 0 => none
  | errors, 0 => some ("jjtx finished with " ++ counted errors "error")
  | 0, warnings => some ("jjtx finished with " ++ counted warnings "warning")
  | errors, warnings =>
      some ("jjtx finished with " ++ counted errors "error" ++ ", and " ++
        counted warnings "warning")

/-- Ends the work: a collector that has only counted warnings sums up. -/
def conclude (c : Collector) : Collector :=
  match c.kind with
  | .printing .aggregate =>
      match summary? c.errors c.warnings with
      | some line =>
          { c with printed := c.printed ++ [line, "Rerun with --warn for more details"] }
      | none => c
  | _ => c

@[simp] theorem takeAll_nil (c : Collector) : c.takeAll [] = c := rfl

@[simp] theorem takeAll_append (c : Collector) (a b : List Report) :
    c.takeAll (a ++ b) = (c.takeAll a).takeAll b := by
  simp [takeAll]

end Collector

end NodeWeave
