import NodeWeave.Grammar.Basic
import NodeWeave.JavaName
import NodeWeave.Text.Blank
import NodeWeave.Text.Casing
import NodeWeave.Text.Word

/-! The options of a grammar that say how its nodes are named and made. -/

namespace NodeWeave.Grammar

/-- The options that concern nodes only. They are not written to the woven grammar. -/
def nodeOptionNames : List String :=
  ["MULTI", "NODE_DEFAULT_VOID", "NODE_CLASS", "NODE_FACTORY", "NODE_PACKAGE", "NODE_EXTENDS",
    "NODE_PREFIX", "NODE_SCOPE_HOOK", "NODE_USES_PARSER", "BUILD_NODE_FILES", "TRACK_TOKENS",
    "VISITOR", "VISITOR_DATA_TYPE", "VISITOR_RETURN_TYPE", "VISITOR_EXCEPTION",
    "VISITOR_METHOD_NAME_INCLUDES_TYPE_NAME", "JJTREE_OUTPUT_DIRECTORY"]

/-- The option concerns nodes only. The case of ASCII letters does not matter. -/
def isNodeOption (key : String) : Bool :=
  nodeOptionNames.any (Text.sameIgnoringAsciiCase · key)

structure NodeOptions where
  parserName : String := "Parser"
  parserPackage : String := ""
  nodePrefix : String := "AST"
  nodePackage : String := ""
  /-- The type of all nodes where nodes have no types of their own. -/
  nodeClass : String := ""
  /-- Empty, an asterisk for the factory of the node type itself, or the name of a factory. -/
  nodeFactory : String := ""
  multi : Bool := false
  defaultVoid : Bool := false
  usesParser : Bool := false
  scopeHook : Bool := false
  tracksTokens : Bool := false
  deriving DecidableEq, Repr

/-- The name in a package statement that begins here, behind blanks. -/
def packageHere? (text : List Char) : Option (List Char) :=
  match Text.after? "package".toList (Text.dropBlanks text) with
  | none => none
  | some rest =>
      let isPart := fun c => Text.isWord c || c == '.'
      let name := (Text.dropBlanks rest).takeWhile isPart
      let following := Text.dropBlanks ((Text.dropBlanks rest).dropWhile isPart)
      if (rest.head?.map Text.isBlank).getD false && !name.isEmpty && following.head? == some ';'
      then some name
      else none

/-- The name in the first package statement that begins a line; `atLine` tells whether a line
begins here. -/
def packageIn? (atLine : Bool) : List Char → Option (List Char)
  | [] => none
  | c :: rest =>
      let here := if atLine then packageHere? (c :: rest) else none
      here.or (packageIn? (c == '\n') rest)

def declaredPackage? (body : String) : Option String :=
  (packageIn? true body.toList).map String.ofList

namespace NodeOptions

/-- Takes one entry of the option block into account. The package of the nodes is set apart,
since without an entry it is that of the parser. -/
def read (options : NodeOptions × Option String) (entry : OptionEntry) :
    NodeOptions × Option String :=
  let (o, package) := options
  match Text.upperAscii entry.key, entry.value with
  | "MULTI", .bool b => ({ o with multi := b }, package)
  | "NODE_DEFAULT_VOID", .bool b => ({ o with defaultVoid := b }, package)
  | "NODE_USES_PARSER", .bool b => ({ o with usesParser := b }, package)
  | "NODE_SCOPE_HOOK", .bool b => ({ o with scopeHook := b }, package)
  | "TRACK_TOKENS", .bool b => ({ o with tracksTokens := b }, package)
  | "NODE_PREFIX", .text s => ({ o with nodePrefix := s }, package)
  | "NODE_CLASS", .text s => ({ o with nodeClass := s }, package)
  | "NODE_FACTORY", .text s => ({ o with nodeFactory := s }, package)
  | "NODE_FACTORY", .bool true => ({ o with nodeFactory := "*" }, package)
  | "NODE_PACKAGE", .text s => (o, some s)
  | _, _ => (o, package)

def ofGrammar (g : Grammar) : NodeOptions :=
  let start : NodeOptions :=
    match g.parserUnit? with
    | some unit =>
        { parserName := unit.name, parserPackage := (declaredPackage? unit.body).getD "" }
    | none => {}
  let (options, package) := g.options.foldl read (start, none)
  { options with nodePackage := package.getD options.parserPackage }

/-- Overrides that are given take precedence over the grammar. -/
def withOverrides (o : NodeOptions) (nodePrefix nodePackage : Option String) : NodeOptions :=
  { o with
    nodePrefix := nodePrefix.getD o.nodePrefix
    nodePackage := nodePackage.getD o.nodePackage }

def simpleName (o : NodeOptions) (raw : String) : String :=
  o.nodePrefix ++ raw

def qualifiedName (o : NodeOptions) (raw : String) : String :=
  JavaName.qualify o.nodePackage (o.simpleName raw)

def parserClass (o : NodeOptions) : String :=
  JavaName.qualify o.parserPackage o.parserName

/-- The simple name of the class that keeps the node stack. -/
def stateName (o : NodeOptions) : String :=
  "JJT" ++ o.parserName ++ "State"

/-- The class that keeps the node stack; it stands next to the nodes. -/
def stateClass (o : NodeOptions) : String :=
  JavaName.qualify o.nodePackage o.stateName

def constantsName (o : NodeOptions) : String :=
  o.parserName ++ "TreeConstants"

@[simp] theorem withOverrides_none (o : NodeOptions) : o.withOverrides none none = o := rfl

end NodeOptions

def nodeConstant (raw : String) : String :=
  "JJT" ++ Text.replaceChar '.' '_' (Text.upper raw)

end NodeWeave.Grammar
