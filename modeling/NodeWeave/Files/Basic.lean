import NodeWeave.Files.Path

/-! Files and directories by their routes, and what reading and writing them does. -/

namespace NodeWeave

inductive FileProblem where
  | notFound
  | notRunnable
  | denied
  | alreadyThere
  | notADirectory
  | isADirectory
  | nameTooLong
  /-- What the file holds is no text. -/
  | notText
  | nulCharacter
  /-- Any other cause, in the words of the system. -/
  | other (reason : String)
  deriving DecidableEq, Repr

def FileProblem.message : FileProblem → String
  | notFound => "No such file or directory (os error 2)"
  | notRunnable => "Exec format error (os error 8)"
  | denied => "Permission denied (os error 13)"
  | alreadyThere => "File exists (os error 17)"
  | notADirectory => "Not a directory (os error 20)"
  | isADirectory => "Is a directory (os error 21)"
  | nameTooLong => "File name too long (os error 36)"
  | notText => "stream did not contain valid UTF-8"
  | nulCharacter => "file name contained an unexpected NUL byte"
  | other reason => reason

abbrev Route := List String

inductive FileEntry where
  | file (text : String) (executable : Bool)
  | directory
  deriving DecidableEq, Repr

/-- All files, and the directory that relative paths start from. -/
structure Files where
  entries : List (Route × FileEntry) := []
  here : Route := []
  deriving Repr

namespace Files

def entryAt? (files : Files) : Route → Option FileEntry
  | [] => some .directory
  | route => files.entries.lookup route

/-- The entries with one put at a route, instead of the one there or at the end. -/
def putIn (route : Route) (entry : FileEntry) :
    List (Route × FileEntry) → List (Route × FileEntry)
  | [] => [(route, entry)]
  | (other, old) :: rest =>
      if other = route then (route, entry) :: rest else (other, old) :: putIn route entry rest

def put (files : Files) (route : Route) (entry : FileEntry) : Files :=
  { files with entries := putIn route entry files.entries }

/-! ### Finding -/

def enter (files : Files) (route : Route) : Except FileProblem Unit :=
  match files.entryAt? route with
  | some .directory => .ok ()
  | some (.file ..) => .error .notADirectory
  | none => .error .notFound

def maxNameLength : Nat := 255

def maxPathLength : Nat := 4095

def follow (files : Files) (route : Route) (name : String) : Except FileProblem Route := do
  files.enter route
  if Path.isFiller name then return route
  else if name = ".." then return route.dropLast
  else if maxNameLength < name.utf8ByteSize then throw .nameTooLong
  else return route ++ [name]

def followAll (files : Files) (path : String) (names : List String) : Except FileProblem Route :=
  if path.toList.contains '\x00' then .error .nulCharacter
  else if path.isEmpty then .error .notFound
  else if maxPathLength < path.utf8ByteSize then .error .nameTooLong
  else names.foldlM files.follow (if Path.isAbsolute path then [] else files.here)

def route (files : Files) (path : String) : Except FileProblem Route :=
  files.followAll path (Path.segments path)

def find? (files : Files) (path : String) : Option FileEntry :=
  match files.route path with
  | .ok route => files.entryAt? route
  | .error _ => none

def isFile (files : Files) (path : String) : Bool :=
  match files.find? path with
  | some (.file ..) => true
  | _ => false

def isDirectory (files : Files) (path : String) : Bool :=
  files.find? path == some .directory

/-- The directory and the last name of a path without slashes at its end. -/
def parentRoute (files : Files) (path : String) : Except FileProblem (Route × String) := do
  let names := ((Path.segments path).reverse.dropWhile (· == "")).reverse
  let parent ← files.followAll path names.dropLast
  files.enter parent
  return (parent, names.getLast?.getD "")

/-! ### Reading and writing -/

def read (files : Files) (path : String) : Except FileProblem String := do
  match files.entryAt? (← files.route path) with
  | none => throw .notFound
  | some .directory => throw .isADirectory
  | some (.file text _) => return text

def makeDirectory (files : Files) (path : String) : Except FileProblem Files := do
  let (parent, name) ← files.parentRoute path
  let route ← files.follow parent name
  match files.entryAt? route with
  | some _ => throw .alreadyThere
  | none => return files.put route .directory

/-- Makes the first path a directory, and before that as many of the others as it takes. -/
def makeAll (files : Files) : List String → Files × Except FileProblem Unit
  | [] => (files, .ok ())
  | path :: parents =>
      if path.isEmpty then (files, .ok ())
      else
        match files.makeDirectory path with
        | .ok files => (files, .ok ())
        | .error .notFound =>
            match files.makeAll parents with
            | (files, .error problem) => (files, .error problem)
            | (files, .ok ()) =>
                match files.makeDirectory path with
                | .ok files => (files, .ok ())
                | .error problem =>
                    (files, if files.isDirectory path then .ok () else .error problem)
        | .error problem => (files, if files.isDirectory path then .ok () else .error problem)

/-- Makes a directory and those around it, as far as they are missing. -/
def makeDirectories (files : Files) (path : String) : Files × Except FileProblem Unit :=
  files.makeAll (Path.selfAndParents path)

/-- Writes a file. Its directory must be there, and no slash may stand at the end of its path. -/
def write (files : Files) (path text : String) : Except FileProblem Files := do
  let (parent, name) ← files.parentRoute path
  let route ← files.follow parent name
  if path.toList.getLast? = some '/' then throw .isADirectory
  else
    match files.entryAt? route with
    | some .directory => throw .isADirectory
    | some (.file _ executable) => return files.put route (.file text executable)
    | none => return files.put route (.file text false)

def routesTo (route : Route) : List Route :=
  (List.range route.length).map fun n => route.take (n + 1)

/-- The route of names from where relative paths start. Fillers are passed over. -/
def routeOfNames (files : Files) (path : String) : Route :=
  files.here ++ (Path.segments path).filter fun name => !Path.isFiller name

def addDirectory (files : Files) (path : String) : Files :=
  (routesTo (files.routeOfNames path)).foldl (fun files route => files.put route .directory) files

/-- Files with one more file, in directories that are made for it. -/
def add (files : Files) (path text : String) (executable : Bool) : Files :=
  let route := files.routeOfNames path
  let made := (routesTo route.dropLast).foldl (fun files r => files.put r .directory) files
  made.put route (.file text executable)

/-- No files yet but the directory where relative paths start. -/
def startingAt (here : Route) : Files :=
  ({ here } : Files).addDirectory ""

/-! ### Looking around -/

def beyond? : (outer route : Route) → Option Route
  | [], route => some route
  | _ :: _, [] => none
  | name :: outer, other :: route => if name = other then beyond? outer route else none

def textsBelow (files : Files) (outer : Route) : List (Route × String) :=
  files.entries.filterMap fun (route, entry) =>
    match beyond? outer route, entry with
    | some (name :: rest), .file text _ => some (name :: rest, text)
    | _, _ => none

def removeBelow (files : Files) (outer : Route) : Files :=
  { files with entries := files.entries.filter fun (route, _) => (beyond? outer route).isNone }

/-- A way comes before another one if its first name that differs comes first. -/
def comesBefore : Route → Route → Bool
  | [], _ => true
  | _ :: _, [] => false
  | name :: rest, other :: others =>
      if name = other then comesBefore rest others else name < other

/-- Ways in the order in which a walk through sorted directories meets them. -/
def inWalkOrder {α : Type} (found : List (Route × α)) : List (Route × α) :=
  found.mergeSort fun a b => comesBefore a.1 b.1

/-- The texts of the files below the starting point that the earlier files do not have. -/
def changes (before after : Files) : List (String × String) :=
  (after.textsBelow after.here).filterMap fun (route, text) =>
    if (before.textsBelow before.here).lookup route = some text then none
    else some (Text.join "/" route, text)

@[simp] theorem entryAt?_nil (files : Files) : files.entryAt? [] = some .directory := rfl

theorem lookup_putIn_self (route : Route) (entry : FileEntry)
    (entries : List (Route × FileEntry)) :
    (putIn route entry entries).lookup route = some entry := by
  induction entries with
  | nil => simp [putIn]
  | cons head rest ih =>
      obtain ⟨other, old⟩ := head
      by_cases same : other = route
      · simp [putIn, same]
      · rw [putIn, if_neg same, List.lookup_cons]
        have differs : (route == other) = false := by simpa using Ne.symm same
        rw [differs]
        exact ih

theorem lookup_putIn_of_ne {route query : Route} (ne : query ≠ route) (entry : FileEntry)
    (entries : List (Route × FileEntry)) :
    (putIn route entry entries).lookup query = entries.lookup query := by
  induction entries with
  | nil =>
      have differs : (query == route) = false := by simpa using ne
      rw [putIn, List.lookup_cons, differs]
  | cons head rest ih =>
      obtain ⟨other, old⟩ := head
      by_cases same : other = route
      · have differs : (query == route) = false := by simpa using ne
        rw [putIn, if_pos same, List.lookup_cons, differs, List.lookup_cons, same, differs]
      · rw [putIn, if_neg same, List.lookup_cons, List.lookup_cons, ih]

end Files

end NodeWeave
