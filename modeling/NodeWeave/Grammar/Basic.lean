import NodeWeave.Text.Basic

/-!
Grammars with node annotations: an option block, the parser's compilation unit, parts that are
copied as they are, and productions with their expansions.
-/

namespace NodeWeave.Grammar

inductive OptionValue where
  | bool (value : Bool)
  | int (value : Int)
  /-- The text between the quotes. -/
  | text (value : String)
  deriving DecidableEq, Repr

namespace OptionValue

def written : OptionValue → String
  | bool true => "true"
  | bool false => "false"
  | int value => toString value
  | text value => "\"" ++ value ++ "\""

end OptionValue

structure OptionEntry where
  key : String
  value : OptionValue
  deriving DecidableEq, Repr

structure ParserUnit where
  name : String
  body : String
  deriving DecidableEq, Repr

/-- When a node is kept: if the expression holds, or if more than so many children were made. -/
structure Condition where
  text : String
  isArity : Bool
  deriving DecidableEq, Repr

structure Descriptor where
  name : String
  condition : Option Condition := none
  deriving DecidableEq, Repr

def voidName : String := "void"

def Descriptor.isVoid (d : Descriptor) : Bool :=
  d.name == voidName

/-- How often a group may be taken. -/
inductive Occurrence where
  | optional
  | many
  | some
  deriving DecidableEq, Repr

def Occurrence.symbol : Occurrence → String
  | optional => "?"
  | many => "*"
  | some => "+"

structure CatchClause where
  parameter : String
  body : String
  deriving DecidableEq, Repr

/-- What a production expands to. Texts of the host language are kept as they are. -/
inductive Expansion where
  | sequence (units : List Expansion)
  | choice (alternatives : List Expansion)
  | lookahead (text : String)
  | action (code : String)
  | reference (target : Option String) (name arguments : String)
  | terminal (target : Option String) (text : String)
  | group (inner : Expansion) (occurrence : Option Occurrence)
  | optional (inner : Expansion)
  | annotated (inner : Expansion) (node : Descriptor)
  | guarded (inner : Expansion) (catches : List CatchClause) (finallyCode : Option String)
  deriving Repr

namespace Expansion

mutual
/-- The expansion and all expansions inside it, outer before inner, left before right. -/
def preorder : Expansion → List Expansion
  | sequence units => sequence units :: preorderAll units
  | choice alternatives => choice alternatives :: preorderAll alternatives
  | group inner occurrence => group inner occurrence :: preorder inner
  | optional inner => optional inner :: preorder inner
  | annotated inner node => annotated inner node :: preorder inner
  | guarded inner catches finallyCode => guarded inner catches finallyCode :: preorder inner
  | lookahead text => [lookahead text]
  | action code => [action code]
  | reference target name arguments => [reference target name arguments]
  | terminal target text => [terminal target text]

def preorderAll : List Expansion → List Expansion
  | [] => []
  | unit :: rest => preorder unit ++ preorderAll rest
end

@[simp] theorem preorderAll_append (a b : List Expansion) :
    preorderAll (a ++ b) = preorderAll a ++ preorderAll b := by
  induction a with
  | nil => simp [preorderAll]
  | cons unit rest ih => simp [preorderAll, ih]

theorem mem_preorder_self (e : Expansion) : e ∈ e.preorder := by
  cases e <;> simp [preorder]

def references (e : Expansion) : List String :=
  e.preorder.filterMap fun
    | reference _ name _ => Option.some name
    | _ => Option.none

def scopes (e : Expansion) : List Descriptor :=
  e.preorder.filterMap fun
    | annotated _ node => if node.isVoid then Option.none else Option.some node
    | _ => Option.none

end Expansion

inductive Body where
  /-- Declarations and what is expanded. -/
  | rules (declarations : String) (expansion : Expansion)
  /-- Code of the host language. -/
  | code (text : String)
  deriving Repr

structure Production where
  name : String
  /-- Modifier, result type, name and parameters. -/
  header : String
  throws : List String
  descriptor : Option Descriptor
  body : Body
  /-- Where the production stands in its file, in bytes. -/
  offset : Nat
  deriving Repr

namespace Production

def expansion? (p : Production) : Option Expansion :=
  match p.body with
  | .rules _ expansion => some expansion
  | .code _ => none

def nodeName? (p : Production) (defaultVoid : Bool) : Option String :=
  match p.descriptor with
  | some d => if d.isVoid then none else some d.name
  | none => if defaultVoid then none else some p.name

@[simp] theorem nodeName?_default_void (p : Production) (plain : p.descriptor = none) :
    p.nodeName? true = none := by
  simp [nodeName?, plain]

end Production

inductive Item where
  | options (entries : List OptionEntry)
  | parser (unit : ParserUnit)
  /-- Copied as it is. -/
  | verbatim (text : String)
  | production (p : Production)
  deriving Repr

end Grammar

open Grammar in
structure Grammar where
  name : String
  items : List Item
  deriving Repr

namespace Grammar

/-- A node name and the production that opens the node. -/
structure Owner where
  name : String
  production : Production
  deriving Repr

def productions (g : Grammar) : List Production :=
  g.items.filterMap fun
    | .production p => some p
    | _ => none

def production? (g : Grammar) (name : String) : Option Production :=
  g.productions.find? fun p => p.name == name

def parserUnit? (g : Grammar) : Option ParserUnit :=
  g.items.findSome? fun
    | .parser unit => some unit
    | _ => none

def options (g : Grammar) : List OptionEntry :=
  g.items.flatMap fun
    | .options entries => entries
    | _ => []

/-- The names of the nodes that a production opens: its own first, then those of its expansion. -/
def Production.nodeNames (p : Production) (defaultVoid : Bool) : List String :=
  (p.nodeName? defaultVoid).toList ++
    ((p.expansion?.map Expansion.scopes).getD []).map Descriptor.name

/-- Everything that opens a node, in order of declaration. -/
def owners (g : Grammar) (defaultVoid : Bool) : List Owner :=
  g.productions.flatMap fun p => (p.nodeNames defaultVoid).map fun name => ⟨name, p⟩

def distinct : List String → List String
  | [] => []
  | name :: rest => name :: (distinct rest).filter (· != name)

def nodeNames (g : Grammar) (defaultVoid : Bool) : List String :=
  distinct ((g.owners defaultVoid).map Owner.name)

@[simp] theorem mem_distinct {name : String} {names : List String} :
    name ∈ distinct names ↔ name ∈ names := by
  induction names with
  | nil => simp [distinct]
  | cons first rest ih =>
      simp only [distinct, List.mem_cons, List.mem_filter, ih, bne_iff_ne]
      by_cases same : name = first <;> simp [same]

theorem nodup_distinct (names : List String) : (distinct names).Nodup := by
  induction names with
  | nil => simp [distinct]
  | cons first rest ih =>
      simp only [distinct, List.nodup_cons, List.mem_filter, bne_self_eq_false, Bool.false_eq_true,
        and_false, not_false_eq_true, true_and]
      exact ih.filter _

end Grammar

end NodeWeave
