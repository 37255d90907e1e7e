import NodeWeave.Text.Line

/-! Pieces of output: indented lines, text as it is, and the marks around generated regions. -/

namespace NodeWeave

inductive Piece where
  /-- A line at a level of indentation. A line without text is not indented. -/
  | line (level : Nat) (text : String)
  /-- Text as it is. -/
  | raw (text : String)
  /-- The mark at which a generated region begins. -/
  | regionStart (level : Nat) (label : Option String)
  /-- The mark at which a generated region ends. -/
  | regionStop (level : Nat)
  deriving DecidableEq, Repr

namespace Piece

def startMark : Option String → String
  | none => "/*@bgen(jjtree)*/"
  | some label => "/*@bgen(jjtree) " ++ label ++ " */"

def stopMark : String := "/*@egen*/"

def indentation (level : Nat) : String :=
  String.ofList (List.replicate (2 * level) ' ')

def lineText (level : Nat) (text : String) : String :=
  if text.isEmpty then "\n" else indentation level ++ text ++ "\n"

def text : Piece → String
  | line level text => lineText level text
  | raw text => text
  | regionStart level label => lineText level (startMark label)
  | regionStop level => lineText level stopMark

def concat (pieces : List Piece) : String :=
  String.join (pieces.map text)

/-- The text of the pieces without blanks at the ends of lines. -/
def render (pieces : List Piece) : String :=
  Text.tidyLines (concat pieces)

/-- A line with an opening brace after its head, the body one level deeper, and the closing
brace. -/
def block (level : Nat) (head : String) (body : List Piece) : List Piece :=
  line level (if head.isEmpty then "\x7b" else head ++ " \x7b") :: body ++ [line level "\x7d"]

def outside : List Piece → List Piece
  | [] => []
  | regionStart _ _ :: rest => skipRegion rest
  | piece :: rest => piece :: outside rest
where
  skipRegion : List Piece → List Piece
    | [] => []
    | regionStop _ :: rest => outside rest
    | _ :: rest => skipRegion rest

@[simp] theorem outside_line (level : Nat) (text : String) (rest : List Piece) :
    outside (line level text :: rest) = line level text :: outside rest := by
  simp [outside]

@[simp] theorem outside_raw (text : String) (rest : List Piece) :
    outside (raw text :: rest) = raw text :: outside rest := by
  simp [outside]

end Piece

/-- Output under construction: the level of indentation, and the pieces so far, last one first. -/
structure Output where
  level : Nat := 0
  pieces : List Piece := []
  deriving Repr

namespace Output

def add (out : Output) (piece : Piece) : Output :=
  { out with pieces := piece :: out.pieces }

def line (out : Output) (text : String) : Output :=
  out.add (.line out.level text)

def raw (out : Output) (text : String) : Output :=
  out.add (.raw text)

/-- Begins a generated region. An empty label is none. -/
def regionStart (out : Output) (label : String) : Output :=
  out.add (.regionStart out.level (if label.isEmpty then none else some label))

def regionStop (out : Output) : Output :=
  out.add (.regionStop out.level)

def indent (out : Output) : Output :=
  { out with level := out.level + 1 }

/-- One level less; there is none below the first. -/
def dedent (out : Output) : Output :=
  { out with level := out.level - 1 }

def indented (out : Output) (body : Output → Output) : Output :=
  (body out.indent).dedent

/-- A line with an opening brace after its head, an indented body and a closing brace. -/
def block (out : Output) (head : String) (body : Output → Output) : Output :=
  ((out.line (if head.isEmpty then "\x7b" else head ++ " \x7b")).indented body).line "\x7d"

def render (out : Output) : String :=
  Piece.render out.pieces.reverse

@[simp] theorem dedent_indent (out : Output) : out.indent.dedent = out := rfl

end Output

end NodeWeave
