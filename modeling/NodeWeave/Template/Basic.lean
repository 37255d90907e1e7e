import NodeWeave.Text.Basic

/-! Templates: texts with places for values, and blocks that depend on a value. -/

namespace NodeWeave.Template

inductive BlockKind where
  /-- The body is repeated for the items of a list. -/
  | each
  /-- The body stands where the value counts as true. -/
  | whenTrue
  /-- The body stands where the value counts as false. -/
  | whenFalse
  deriving DecidableEq, Repr

namespace BlockKind

def name : BlockKind → String
  | each => "each"
  | whenTrue => "if"
  | whenFalse => "unless"

def ofName? : String → Option BlockKind
  | "each" => some each
  | "if" => some whenTrue
  | "unless" => some whenFalse
  | _ => none

@[simp] theorem ofName?_name (kind : BlockKind) : ofName? kind.name = some kind := by
  cases kind <;> rfl

theorem ofName?_eq_some_iff {name : String} {kind : BlockKind} :
    ofName? name = some kind ↔ name = kind.name := by
  constructor
  · intro found
    unfold ofName? at found
    split at found <;> first | (cases found; rfl) | cases found
  · rintro rfl
    exact ofName?_name kind

end BlockKind

inductive Part where
  | text (text : String)
  | value (path : String)
  | block (kind : BlockKind) (path : String) (body : List Part)
  deriving Repr, Inhabited

/-- Why a template cannot be rendered. Offsets count bytes. -/
inductive Problem where
  | unclosedTag (offset : Nat)
  | unclosedBlock (kind : BlockKind)
  | unexpectedClose (name : String) (offset : Nat)
  | unknownBlock (name : String)
  | unknownValue (path : String)
  | notAList (path : String)
  deriving DecidableEq, Repr

def Problem.message : Problem → String
  | unclosedTag offset => "unclosed tag at offset " ++ toString offset
  | unclosedBlock kind => "block '" ++ kind.name ++ "' is never closed"
  | unexpectedClose name offset =>
      "unexpected closing tag '" ++ name ++ "' at offset " ++ toString offset
  | unknownBlock name => "unknown block kind '" ++ name ++ "'"
  | unknownValue path => "no value for '" ++ path ++ "'"
  | notAList path => "'" ++ path ++ "' is not a list"

def opening : List Char := ['\x7b', '\x7b']

def closing : List Char := ['\x7d', '\x7d']

end NodeWeave.Template
