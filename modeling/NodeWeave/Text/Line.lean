import NodeWeave.Text.Blank
import NodeWeave.Text.Basic

/-! Lines of a text. A line ends with a line feed, or with a carriage return and a line feed. -/

namespace NodeWeave.Text

def dropReturn (line : List Char) : List Char :=
  if line.getLast? = some '\r' then line.dropLast else line

/-- The lines of a text. What follows the last line feed is a line only if it is not empty. -/
def lineChars (text : List Char) : List (List Char) :=
  let pieces := text.splitOn '\n'
  let closed := pieces.dropLast.map dropReturn
  match pieces.getLast? with
  | none | some [] => closed
  | some rest => closed ++ [rest]

def lines (text : String) : List String :=
  (lineChars text.toList).map String.ofList

/-- The text with the blanks at the end of every line dropped and every line closed. -/
def tidyLines (text : String) : String :=
  String.join ((lineChars text.toList).map fun line => String.ofList (dropBlanksEnd line ++ ['\n']))

end NodeWeave.Text
