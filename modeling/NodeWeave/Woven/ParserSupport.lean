import NodeWeave.Scope.Statement

/-! What the parser class needs for its nodes: imports, an interface, and the node stack. -/

namespace NodeWeave

namespace ParserSupport

/-- The texts around the header of a class: before it, its first part up to the name, what stands
between the name and the brace, and the text after the brace. -/
structure ClassHeader where
  before : List Char
  opening : List Char
  clauses : List Char
  following : List Char

/-- The name and the rest of a class header behind so many blanks, if it begins here. -/
def afterName? (name text : List Char) (blanks : Nat) : Option (List Char × List Char) :=
  match Text.after? name (text.drop blanks) with
  | none => none
  | some rest =>
      let last := name.getLast?.or (text.take blanks).getLast?
      if Text.isBoundary last rest.head? then Text.splitFirst? ['\x7b'] rest else none

/-- The header of the named class, if it begins here. Of the ways to divide the blanks between the
keyword and the name, that with the most blanks in front of the name is taken. -/
def headerHere? (name : List Char) (before : Option Char) (text : List Char) :
    Option (List Char × List Char × List Char) :=
  let keyword := "class".toList
  match Text.after? keyword text with
  | none => none
  | some rest =>
      if Text.isWordAt before then none
      else
        let blanks := (rest.takeWhile Text.isBlank).length
        (List.range blanks).findSome? fun k =>
          (afterName? name rest (blanks - k)).map fun (clauses, following) =>
            (keyword ++ rest.take (blanks - k) ++ name, clauses, following)

/-- The first header of the named class in a text; `passed` is what stands before the text, last
character first. -/
def findHeader? (name : List Char) (passed : List Char) : List Char → Option ClassHeader
  | [] => none
  | c :: rest =>
      match headerHere? name passed.head? (c :: rest) with
      | some (opening, clauses, following) =>
          some { before := passed.reverse, opening, clauses, following }
      | none => findHeader? name (c :: passed) rest

/-- The text behind a package statement that begins here, with the blanks and the line end after
it. -/
def afterPackage? (text : List Char) : Option (List Char) :=
  let isGap := fun c => c == ' ' || c == '\t'
  match Text.after? "package".toList (text.dropWhile isGap) with
  | none => none
  | some rest =>
      let isPart := fun c => Text.isWord c || c == '.'
      let named := Text.dropBlanks rest
      if (rest.head?.map Text.isBlank).getD false && (named.head?.map isPart).getD false then
        match Text.dropBlanks (named.dropWhile isPart) with
        | ';' :: more =>
            match more.dropWhile isGap with
            | '\n' :: following => some following
            | following => some following
        | _ => none
      else none

/-- The text up to the end of the first package statement that begins a line, and the text after
it. `passed` is what stands before the text, last character first. -/
def splitPackage? (atLine : Bool) (passed : List Char) :
    List Char → Option (List Char × List Char)
  | [] => none
  | c :: rest =>
      let here := if atLine then afterPackage? (c :: rest) else none
      match here with
      | some following =>
          some (passed.reverse ++ (c :: rest).take (rest.length + 1 - following.length), following)
      | none => splitPackage? (c == '\n') (c :: passed) rest

/-- A class header that implements the interfaces too, and the declarations behind its brace. -/
def editHeader (interfaces : List String) (declarations : String) (header : ClassHeader) :
    String :=
  let clauses := Text.dropBlanksEnd header.clauses
  let listed := Text.join ", " interfaces
  let implemented :=
    if interfaces.isEmpty then ""
    else if Text.contains "implements".toList header.clauses then ", " ++ listed
    else " implements " ++ listed
  String.ofList header.before ++ String.ofList (header.opening ++ clauses) ++ implemented ++
    " \x7b" ++ Piece.startMark none ++ "\n  " ++ declarations ++ "\n\n" ++ Piece.stopMark ++
    String.ofList header.following

def importBlock (imports : List String) : String :=
  Piece.startMark none ++ "\n" ++
    String.join (imports.map fun name => "import " ++ name ++ ";\n") ++ Piece.stopMark ++ "\n"

/-- The compilation unit with the imports behind its package statement, or at its start without
one. -/
def addImports (imports : List String) (body : String) : String :=
  if imports.isEmpty then body
  else
    match splitPackage? true [] body.toList with
    | some (before, following) =>
        String.ofList before ++ importBlock imports ++ String.ofList following
    | none => importBlock imports ++ body

/-- The compilation unit with all that the named parser class needs. -/
def add (body parserName : String) (imports interfaces : List String) (declarations : String) :
    String :=
  let edited :=
    match findHeader? parserName.toList [] body.toList with
    | some header => editHeader interfaces declarations header
    | none => body
  addImports imports edited

end ParserSupport

namespace ScopeStyle

variable (style : ScopeStyle)

def parserInterfaces : List String :=
  if style.switches.implementsConstants then [style.options.constantsName] else []

def parserImports : List String :=
  let o := style.options
  let nodes := if !o.nodePackage.isEmpty && o.nodePackage != o.parserPackage
    then [o.nodePackage ++ ".*"] else []
  let constants := if style.switches.implementsConstants then []
    else ["static " ++ o.parserClass ++ "TreeConstants.*"]
  (nodes ++ constants).mergeSort fun a b => decide (a ≤ b)

def parserDeclarations : String :=
  let state := style.options.stateName
  "protected " ++ state ++ " jjtree = new " ++ state ++ "();"

end ScopeStyle

end NodeWeave
