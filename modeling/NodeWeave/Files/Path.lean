import NodeWeave.Text.Basic

/-!
Paths of files as they are written: names between slashes. Taking paths apart passes over empty
names and over single dots, except in front; what stays is kept as it is written.
-/

namespace NodeWeave.Path

def segments (path : String) : List String :=
  Text.splitChar '/' path

def isAbsolute (path : String) : Bool :=
  path.toList.head? == some '/'

def isFiller (name : String) : Bool :=
  name == "" || name == "."

/-- The segments without the fillers at the end. The first segment stays. -/
def core : List String → List String
  | [] => []
  | first :: rest => first :: (rest.reverse.dropWhile isFiller).reverse

/-- The text of segments. Alone, the empty segment in front of an absolute path is the root. -/
def ofSegments (names : List String) : String :=
  if names = [""] then "/" else Text.join "/" names

def parent? (path : String) : Option String :=
  match core (segments path) with
  | [] => none
  | [first] => if first = "" then none else some ""
  | names => some (ofSegments (core names.dropLast))

def fileName? (path : String) : Option String :=
  match (core (segments path)).getLast? with
  | some name => if isFiller name || name = ".." then none else some name
  | none => none

/-- What stands before the last dot of a name, and what stands after it. A dot in front of a name
is part of the name. -/
def splitName (name : String) : String × Option String :=
  let after := name.toList.reverse.takeWhile (· != '.')
  let before := (name.toList.reverse.drop (after.length + 1)).reverse
  if before.isEmpty then (name, none)
  else (String.ofList before, some (String.ofList after.reverse))

def stem? (path : String) : Option String :=
  (fileName? path).map fun name => (splitName name).1

def extension? (path : String) : Option String :=
  (fileName? path).bind fun name => (splitName name).2

/-- The path with the extension of its last name replaced. A path without a last name stays. -/
def withExtension (path extension : String) : String :=
  match stem? path with
  | none => path
  | some stem => Text.join "/" ((core (segments path)).dropLast ++ [stem ++ "." ++ extension])

/-- The path that begins where the first one ends. An absolute path stands for itself. -/
def join (base path : String) : String :=
  if isAbsolute path || base.isEmpty then path
  else if base.toList.getLast? == some '/' then base ++ path
  else base ++ "/" ++ path

def ofNames (names : List String) : String :=
  names.foldl join ""

def around : Nat → String → List String
  | 0, path => [path]
  | count + 1, path =>
      path ::
        match parent? path with
        | none => []
        | some parent => around count parent

def selfAndParents (path : String) : List String :=
  around path.length path

@[simp] theorem join_empty (path : String) : join "" path = path := by
  simp [join]

@[simp] theorem ofNames_nil : ofNames [] = "" := rfl

end NodeWeave.Path
