import NodeWeave.Files.Basic
import NodeWeave.Shell.Reader
import NodeWeave.Text.Blank

/-! Running scripts on files. Every command changes the state and writes output and errors. -/

namespace NodeWeave.Shell

inductive Sink where
  | output
  | errors
  | file (path : String)
  /-- Nowhere. -/
  | closed
  deriving DecidableEq, Repr

structure State where
  /-- The name of the script, and the words it was called with. -/
  arguments : List String
  bindings : List (String × String) := []
  files : Files
  output : String := ""
  errors : String := ""
  status : Nat := 0
  /-- Set once the script has ended; without a status by a signal. -/
  ended : Option (Option Nat) := none

namespace State

def processNumber : String := "2"

def value (s : State) (name : String) : String :=
  match name with
  | "?" => toString s.status
  | "#" => toString (s.arguments.length - 1)
  | "$" => processNumber
  | "@" | "*" => Text.join " " (s.arguments.drop 1)
  | name =>
      match name.toList.all Char.isDigit && name != "", name.toNat? with
      | true, some n => s.arguments[n]?.getD ""
      | _, _ => (s.bindings.lookup name).getD ""

/-- The rests of a text behind what a pattern matches, shortest match first. -/
def rests : (pattern text : List Char) → List (List Char)
  | [], text => [text]
  | '*' :: pattern, [] => rests pattern []
  | '*' :: pattern, c :: text => rests pattern (c :: text) ++ rests ('*' :: pattern) text
  | _ :: _, [] => []
  | p :: pattern, c :: text => if p = '?' || p = c then rests pattern text else []
termination_by pattern text => (pattern.length, text.length)

def cutFront (longest : Bool) (pattern text : String) : String :=
  let found := (rests pattern.toList text.toList).mergeSort fun a b => b.length ≤ a.length
  match if longest then found.getLast? else found.head? with
  | some rest => String.ofList rest
  | none => text

def reversed (text : String) : String :=
  String.ofList text.toList.reverse

def cutBack (longest : Bool) (pattern text : String) : String :=
  reversed (cutFront longest (reversed pattern) (reversed text))

def applyCut (text : String) : Cut → String
  | .nothing => text
  | .shortestFront pattern => cutFront false pattern text
  | .longestFront pattern => cutFront true pattern text
  | .shortestBack pattern => cutBack false pattern text
  | .longestBack pattern => cutBack true pattern text
  | .orElse other => if text.isEmpty then other else text

def expand (s : State) (w : Word) : String :=
  String.join (w.map fun
    | .char c _ => c.toString
    | .value name cut _ => applyCut (s.value name) cut
    | .quotes => "")

/-- Adds text that is split at blanks to fields, the last of which may be open. -/
def addSplit (fields : List String × Option String) (text : String) :
    List String × Option String :=
  text.toList.foldl (fun (done, current) c =>
    if c = ' ' || c = '\t' || c = '\n' then (done ++ current.toList, none)
    else (done, some (current.getD "" ++ c.toString))) fields

def fields (s : State) (w : Word) : List String :=
  let (done, current) := w.foldl (fun (done, current) part =>
    match part with
    | .char c _ => (done, some (current.getD "" ++ c.toString))
    | .quotes => (done, some (current.getD ""))
    | .value name cut quoted =>
        let text := applyCut (s.value name) cut
        if quoted then (done, some (current.getD "" ++ text))
        else addSplit (done, current) text) ([], none)
  done ++ current.toList

end State

/-! ### Commands -/

structure Outcome where
  files : Files
  output : String := ""
  errors : String := ""
  status : Nat := 0
  ended : Option (Option Nat) := none

def isOctal (c : Char) : Bool :=
  '0' ≤ c && c ≤ '7'

/-- The character behind a backslash, if it is one of the known ones. -/
def escape? : Char → Option Char
  | 'n' => some '\n'
  | 't' => some '\t'
  | 'r' => some '\r'
  | 'a' => some '\x07'
  | 'b' => some '\x08'
  | 'f' => some '\x0c'
  | 'v' => some '\x0b'
  | '\\' => some '\\'
  | _ => none

/-- What stands for a character behind a backslash here, and how long it is: a letter, or up to
three octal digits. -/
def escapeAt? (text : List Char) : Option (Char × Nat) :=
  let digits := (text.take 3).takeWhile isOctal
  match text.head?.bind escape?, digits with
  | some c, _ => some (c, 1)
  | none, [] => none
  | none, digits =>
      some (Char.ofNat (digits.foldl (fun value c => value * 8 + (c.toNat - '0'.toNat)) 0),
        digits.length)

/-- Replaces what backslashes stand for, behind characters that are passed over. -/
def unescapeFrom : (passed : Nat) → List Char → List Char
  | _, [] => []
  | passed + 1, _ :: rest => unescapeFrom passed rest
  | 0, '\\' :: rest =>
      match escapeAt? rest with
      | some (c, length) => c :: unescapeFrom length rest
      | none => '\\' :: unescapeFrom 0 rest
  | 0, c :: rest => c :: unescapeFrom 0 rest

def unescape (text : List Char) : List Char :=
  unescapeFrom 0 text

/-- One round through a format. What is left of the arguments is given, too. -/
def formatOnce : List Char → List String → List Char × List String
  | [], args => ([], args)
  | '%' :: '%' :: rest, args =>
      let (text, left) := formatOnce rest args
      ('%' :: text, left)
  | '%' :: c :: rest, args =>
      if c = 's' || c = 'd' || c = 'b' then
        let (text, left) := formatOnce rest (args.drop 1)
        let shown := args.headD (if c = 'd' then "0" else "")
        (shown.toList ++ text, left)
      else
        let (text, left) := formatOnce rest args
        ('%' :: c :: text, left)
  | c :: rest, args =>
      let (text, left) := formatOnce rest args
      (c :: text, left)

/-- Formats are used again as long as they take arguments. -/
def format : Nat → List Char → List String → List Char
  | 0, _, _ => []
  | rounds + 1, text, args =>
      let (shown, left) := formatOnce text args
      if left.isEmpty || left.length = args.length then shown else shown ++ format rounds text left

def echo (args : List String) : String :=
  match args with
  | "-n" :: rest => String.ofList (unescape (Text.join " " rest).toList)
  | args => String.ofList (unescape (Text.join " " args).toList) ++ "\n"

def copyTarget (files : Files) (source target : String) : String :=
  if files.isDirectory target then Path.join target ((Path.fileName? source).getD source)
  else target

def problemText (problem : FileProblem) : String :=
  ((problem.message.splitOn " (os error").head?).getD problem.message

def copy (files : Files) (source target : String) : Outcome :=
  match files.read source with
  | .error .isADirectory =>
      { files, status := 1,
        errors := "cp: -r not specified; omitting directory '" ++ source ++ "'\n" }
  | .error problem =>
      { files, status := 1
        errors := "cp: cannot stat '" ++ source ++ "': " ++ problemText problem ++ "\n" }
  | .ok text =>
      match files.write (copyTarget files source target) text with
      | .ok files => { files }
      | .error problem =>
          { files, status := 1
            errors := "cp: cannot create regular file '" ++ target ++ "': " ++
              problemText problem ++ "\n" }

def makeOne (withParents : Bool) (files : Files) (path : String) : Files × String :=
  let (files, result) :=
    if withParents then files.makeDirectories path
    else
      match files.makeDirectory path with
      | .ok files => (files, .ok ())
      | .error problem => (files, .error problem)
  match result with
  | .ok () => (files, "")
  | .error problem =>
      (files, "mkdir: cannot create directory '" ++ path ++ "': " ++ problemText problem ++ "\n")

def makeDirectories (files : Files) (args : List String) : Outcome :=
  let (withParents, paths) :=
    match args with
    | "-p" :: rest => (true, rest)
    | args => (false, args)
  let (files, errors) := paths.foldl (fun (files, errors) path =>
    let (files, error) := makeOne withParents files path
    (files, errors ++ error)) (files, "")
  { files, errors, status := if errors.isEmpty then 0 else 1 }

/-- The texts of files one after the other; without files, what is put in. -/
def cat (files : Files) (input : String) (args : List String) : Outcome :=
  if args.isEmpty then { files, output := input }
  else
    args.foldl (fun outcome path =>
      match files.read path with
      | .ok text => { outcome with output := outcome.output ++ text }
      | .error problem =>
          { outcome with status := 1, errors :=
              outcome.errors ++ "cat: " ++ path ++ ": " ++ problemText problem ++ "\n" }) { files }

def touch (files : Files) (args : List String) : Outcome :=
  args.foldl (fun outcome path =>
    match outcome.files.find? path with
    | some _ => outcome
    | none =>
        match outcome.files.write path "" with
        | .ok files => { outcome with files }
        | .error problem =>
            { outcome with status := 1, errors := outcome.errors ++
                "touch: cannot touch '" ++ path ++ "': " ++ problemText problem ++ "\n" })
    { files }

def holds (files : Files) : List String → Bool
  | ["-e", path] => (files.find? path).isSome
  | ["-f", path] => files.isFile path
  | ["-d", path] => files.isDirectory path
  | ["-n", text] => text != ""
  | ["-z", text] => text == ""
  | ["!", text] => text == ""
  | [text] => text != ""
  | [a, "=", b] => a == b
  | [a, "!=", b] => a != b
  | [a, "-eq", b] => a.toNat? == b.toNat?
  | _ => false

def ofBool (files : Files) (b : Bool) : Outcome :=
  { files, status := if b then 0 else 1 }

def runCommand? (s : State) (input name : String) (args : List String) : Option Outcome :=
  let files := s.files
  match name with
  | "true" | ":" | "set" | "umask" => some { files }
  | "false" => some { files, status := 1 }
  | "echo" => some { files, output := echo args }
  | "printf" =>
      let text := (args.head?.getD "").toList
      some { files
             output := String.ofList (format (args.length + 1) (unescape text) (args.drop 1)) }
  | "exit" =>
      let status := ((args.head?.bind fun text => text.toNat?).getD s.status) % 256
      some { files, status, ended := some (some status) }
  | "kill" =>
      if args.contains State.processNumber then some { files, ended := some none }
      else some { files, status := 1 }
  | "cat" => some (cat files input args)
  | "cp" =>
      match args with
      | [source, target] => some (copy files source target)
      | _ => some { files, status := 1 }
  | "mkdir" => some (makeDirectories files args)
  | "touch" => some (touch files args)
  | "test" => some (ofBool files (holds files args))
  | "[" => some (ofBool files (args.getLast? == some "]" && holds files args.dropLast))
  | _ => none

/-! ### Scripts -/

def deliver (s : State) (sink : Sink) (text : String) : State :=
  match sink with
  | .output => { s with output := s.output ++ text }
  | .errors => { s with errors := s.errors ++ text }
  | .closed => s
  | .file path =>
      match s.files.write path (((s.files.read path).toOption.getD "") ++ text) with
      | .ok files => { s with files }
      | .error _ => s

/-- The descriptors of a command, and what is put into it. -/
structure Streams where
  sinks : List (Nat × Sink) := [(1, .output), (2, .errors)]
  input : String := ""

def scriptName (s : State) : String :=
  s.arguments.head?.getD ""

/-- Opens one redirection. The message of a file that cannot be opened is given instead. -/
def redirect (s : State) (line : Nat) (streams : Streams) (r : Redirection) :
    Except String (State × Streams) :=
  let failed := fun (what path reason : String) =>
    .error (scriptName s ++ ": " ++ toString line ++ ": cannot " ++ what ++ " " ++ path ++ ": " ++
      reason ++ "\n")
  match r.target with
  | .descriptor w =>
      let sink := ((s.expand w).toNat?.bind fun n => streams.sinks.lookup n).getD .closed
      .ok (s, { streams with sinks := (r.descriptor, sink) :: streams.sinks })
  | .input w =>
      match s.files.read (s.expand w) with
      | .ok input => .ok (s, { streams with input })
      | .error problem => failed "open" (s.expand w) (problemText problem)
  | .file w append =>
      let path := s.expand w
      if path = "/dev/null" then
        .ok (s, { streams with sinks := (r.descriptor, .closed) :: streams.sinks })
      else
        let start := if append then (s.files.read path).toOption.getD "" else ""
        match s.files.write path start with
        | .ok files =>
            .ok ({ s with files },
              { streams with sinks := (r.descriptor, .file path) :: streams.sinks })
        | .error .notFound => failed "create" path "Directory nonexistent"
        | .error problem => failed "create" path (problemText problem)

def runOne (s : State) (c : Command) : State :=
  match c.redirections.foldlM (fun (s, streams) r => redirect s c.line streams r) (s, {}) with
  | .error message => { s with errors := s.errors ++ message, status := 2 }
  | .ok (s, streams) =>
      match c.words.flatMap s.fields with
      | [] =>
          let bindings := c.assignments.foldl
            (fun bindings (name, w) => (name, { s with bindings }.expand w) :: bindings)
            s.bindings
          { s with bindings, status := 0 }
      | name :: args =>
          let sinkOf := fun n => (streams.sinks.lookup n).getD .closed
          match runCommand? s streams.input name args with
          | none =>
              let message := scriptName s ++ ": " ++ toString c.line ++ ": " ++ name ++
                ": not found\n"
              { deliver s (sinkOf 2) message with status := 127 }
          | some outcome =>
              let s := { s with files := outcome.files }
              let s := deliver (deliver s (sinkOf 1) outcome.output) (sinkOf 2) outcome.errors
              { s with status := outcome.status, ended := outcome.ended }

/-- Runs one command, unless the script has ended or the command is passed over. -/
def runLinked (s : State) (c : Command) : State :=
  if s.ended.isSome then s
  else
    match c.link with
    | .always => runOne s c
    | .afterSuccess => if s.status = 0 then runOne s c else s
    | .afterFailure => if s.status = 0 then s else runOne s c

/-- Runs a script. One that this shell cannot read fails at once. -/
def runScript (text : String) (arguments : List String) (files : Files) : State :=
  let start : State := { arguments, files }
  match commands? text with
  | none => { start with errors := scriptName start ++ ": Syntax error\n", status := 2 }
  | some commands => commands.foldl runLinked start

/-- How a script ended: by its last command, by itself, or by a signal. -/
def State.result (s : State) : Option Nat :=
  s.ended.getD (some s.status)

end NodeWeave.Shell
