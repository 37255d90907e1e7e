import NodeWeave.Grammar.NodeOptions
import NodeWeave.Report.Place

/-! The nodes that a grammar declares, and the classes they stand for. -/

namespace NodeWeave.Hierarchy

/-- One place of a grammar that opens a node. -/
structure Declaration where
  raw : String
  place : Place
  deriving DecidableEq, Repr

/-- What a hierarchy needs to know of a grammar. A name may be declared many times. -/
structure Declared where
  nodePrefix : String
  nodePackage : String
  declarations : List Declaration
  deriving DecidableEq, Repr

namespace Declared

def ofGrammar (g : Grammar) (options : Grammar.NodeOptions) (text : String) : Declared where
  nodePrefix := options.nodePrefix
  nodePackage := options.nodePackage
  declarations := (g.owners options.defaultVoid).map fun owner =>
    { raw := owner.name
      place := (Place.ofOffset? g.name text owner.production.offset).getD (.file g.name 1 1) }

def ofNames (nodePrefix nodePackage : String) (names : List String) : Declared where
  nodePrefix
  nodePackage
  declarations := names.map fun raw => { raw, place := .file "<grammar>" 1 1 }

def rawNames (d : Declared) : List String :=
  Grammar.distinct (d.declarations.map Declaration.raw)

def declares (d : Declared) (raw : String) : Bool :=
  d.declarations.any fun declaration => declaration.raw == raw

def qualifiedName (d : Declared) (raw : String) : String :=
  JavaName.qualify d.nodePackage (d.nodePrefix ++ raw)

def declaresClass (d : Declared) (name : String) : Bool :=
  d.rawNames.any fun raw => d.qualifiedName raw == name

@[simp] theorem mem_rawNames {d : Declared} {raw : String} :
    raw ∈ d.rawNames ↔ d.declares raw = true := by
  simp [rawNames, declares]

theorem nodup_rawNames (d : Declared) : d.rawNames.Nodup :=
  Grammar.nodup_distinct _

end Declared

end NodeWeave.Hierarchy
