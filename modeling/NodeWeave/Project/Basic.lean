import NodeWeave.Compiler.Basic
import NodeWeave.Generation.Basic
import NodeWeave.Grammar.Reader
import NodeWeave.Settings.Chain
import NodeWeave.Template.Support
import NodeWeave.Woven.Printer

/-! A grammar with its settings, and the places where things are read and written. -/

namespace NodeWeave

structure Project where
  grammar : Grammar
  grammarPath : String
  /-- The text that the grammar was read from. -/
  text : String
  settings : Settings
  options : Grammar.NodeOptions
  switches : Switches
  output : String
  /-- Where classes may stand that are written by hand. -/
  sourceRoots : List String := []
  compiler : Compiler := .ofProgram "javacc"

namespace Project

def ofText (grammarPath text : String) (settings : Settings) (base : Switches) (output : String) :
    Except Fault Project := do
  let grammar ← Grammar.read grammarPath text
  let switches ← settings.switches base grammarPath
  return { grammar, grammarPath, text, settings, options := settings.nodeOptions grammar, switches,
           output }

def load (grammarPath : String) (settings : Settings) (base : Switches) (output : String) :
    Work (Except Fault Project) := do
  match ← Work.readFile grammarPath with
  | .error fault => return .error fault
  | .ok text => return ofText grammarPath text settings base output

def loadWith (chain : List String) (grammarPath : String) (base : Switches) (output : String) :
    Work (Except Fault Project) := do
  match ← Settings.loadChain chain with
  | .error fault => return .error fault
  | .ok settings => load grammarPath settings base output

/-- The name of the grammar: that of its file without the extension. -/
def name (p : Project) : String :=
  (Path.stem? p.grammarPath).getD "Grammar"

def templates (p : Project) : String :=
  (Path.parent? p.grammarPath).getD ""

def woven (p : Project) : String :=
  p.grammar.weave p.options p.switches

def packagePath (p : Project) : String :=
  Path.ofNames ((Text.splitChar '.' p.options.parserPackage).filter fun segment => segment != "")

def wovenPath (p : Project) : String :=
  Path.join (Path.join p.output p.packagePath) (p.name ++ ".jj")

def declared (p : Project) : Hierarchy.Declared :=
  .ofGrammar p.grammar p.options p.text

def tree (p : Project) : Reported Hierarchy.TypeTree := do
  (← Hierarchy.Outline.ofYaml p.settings.hierarchy).resolve p.declared

def view (p : Project) : Reported Json := do
  return Hierarchy.grammarView p.name p.options p.declared (← p.tree)

def place (p : Project) : GenerationPlace where
  output := p.output
  sourceRoots := p.sourceRoots
  templates := p.templates

end Project

end NodeWeave
