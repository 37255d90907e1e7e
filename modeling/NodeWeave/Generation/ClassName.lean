import NodeWeave.Files.Path
import NodeWeave.Text.Blank
import NodeWeave.Text.Word

/-! Names of generated classes: cleaning them, checking them, and the files they stand for. -/

namespace NodeWeave.ClassName

def clean (name : String) : String :=
  let solid := name.toList.filter fun c => !Text.isBlank c
  Text.join "." ((Text.splitChar '.' (String.ofList solid)).filter fun segment => segment != "")

def isStart (c : Char) : Bool :=
  c.isAlpha || c == '_' || c == '$'

def isPart (c : Char) : Bool :=
  Text.isWord c || c == '$'

def isSegment : List Char → Bool
  | [] => false
  | first :: rest => isStart first && rest.all isPart

def isQualified (name : String) : Bool :=
  (Text.splitChar '.' name).all fun segment => isSegment segment.toList

/-- The file of a class: a directory for each segment of its package. -/
def sourcePath (name : String) : String :=
  Path.withExtension (Path.ofNames (Text.splitChar '.' name)) "java"

end NodeWeave.ClassName
