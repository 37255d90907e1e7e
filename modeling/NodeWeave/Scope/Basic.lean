import NodeWeave.Grammar.NodeOptions
import NodeWeave.Scope.Switches
import NodeWeave.Text.Substitution

/-! Node scopes: what opens them, and the names of their variables. -/

namespace NodeWeave

open Grammar

inductive Opener where
  | production (p : Production)
  | unit (node : Descriptor)
  deriving Repr

namespace Opener

def descriptor? : Opener → Option Descriptor
  | production p => p.descriptor
  | unit node => some node

def nodeName? (defaultVoid : Bool) : Opener → Option String
  | production p => p.nodeName? defaultVoid
  | unit node => if node.isVoid then none else some node.name

def isProduction : Opener → Bool
  | production _ => true
  | unit _ => false

def condition? (opener : Opener) : Option Condition :=
  opener.descriptor?.bind Descriptor.condition

end Opener

/-- The names of the three variables of a scope: the node, the flag that is up as long as the scope
is open, and the exception that leaves it. -/
structure VariableNames where
  node : String
  flag : String
  exception : String
  deriving DecidableEq, Repr

namespace VariableNames

def depthDigits (depth : Nat) : String :=
  let digits := (Text.padZeros 3 depth).toList
  String.ofList (digits.drop (digits.length - 3))

def numbered (depth : Nat) : VariableNames :=
  let digits := depthDigits depth
  ⟨"jjtn" ++ digits, "jjtc" ++ digits, "jjte" ++ digits⟩

/-- The simple name of the node with a small first letter. -/
def baseName (nodeName : String) : String :=
  match (JavaName.splitChars nodeName.toList).2 with
  | [] => "node"
  | first :: rest => String.ofList (Text.lowerChar first ++ rest)

/-- Names made from that of the node; below the outermost scope the depth is added. -/
def descriptive (nodeName : String) (depth : Nat) : VariableNames :=
  let base := baseName nodeName ++ if depth = 0 then "" else toString depth
  ⟨base, base ++ "NeedsClose", base ++ "Exception"⟩

end VariableNames

structure Scope where
  opener : Opener
  names : VariableNames
  nodeName : String
  /-- The class of the node. -/
  nodeClass : String
  /-- The declared type of the node variable. -/
  variableType : String
  /-- How many scopes are open around it. -/
  depth : Nat
  deriving Repr

structure ScopeStyle where
  options : NodeOptions
  switches : Switches
  deriving Repr

namespace ScopeStyle

/-- The scope that is opened at a depth, unless its node is void. -/
def open? (style : ScopeStyle) (opener : Opener) (depth : Nat) : Option Scope :=
  (opener.nodeName? style.options.defaultVoid).map fun name =>
    { opener
      names :=
        if style.switches.descriptiveNames then .descriptive name depth else .numbered depth
      nodeName := name
      nodeClass := style.options.qualifiedName name
      variableType :=
        if !style.options.nodeClass.isEmpty && !style.options.multi then style.options.nodeClass
        else style.options.simpleName name
      depth }

theorem open?_depth {style : ScopeStyle} {opener : Opener} {depth : Nat} {scope : Scope}
    (opened : style.open? opener depth = some scope) : scope.depth = depth := by
  simp only [open?, Option.map_eq_some_iff] at opened
  obtain ⟨name, _, rfl⟩ := opened
  rfl

theorem open?_nodeName {style : ScopeStyle} {opener : Opener} {depth : Nat} {scope : Scope}
    (opened : style.open? opener depth = some scope) :
    opener.nodeName? style.options.defaultVoid = some scope.nodeName := by
  simp only [open?, Option.map_eq_some_iff] at opened
  obtain ⟨name, found, rfl⟩ := opened
  exact found

end ScopeStyle

namespace Scope

/-- The word that stands for the current node in code of the host language. -/
def selfWord : String := "jjtThis"

/-- Code in which the word for the current node is replaced by the node variable. -/
def resolve (scope : Scope) (code : String) : String :=
  Text.replaceWord selfWord scope.names.node code

def description (scope : Scope) : String :=
  match scope.opener.condition? with
  | none => "#" ++ scope.nodeName
  | some condition =>
      if condition.isArity then "#" ++ scope.nodeName ++ "(> " ++ condition.text ++ ")"
      else "#" ++ scope.nodeName ++ "(" ++ condition.text ++ ")"

end Scope

end NodeWeave
