import NodeWeave.Text.Line

/-!
The changes from one text to another one, by lines. Lines of a longest common subsequence stay;
before each of them stand the lines that went away, then the lines that are new. An empty first line
is not compared.
-/

namespace NodeWeave.Text

/-- What the lines read so far have in common with every start of other lines, where one more line
is read. Lists are the latest first and carry their lengths. The row above holds what was common
before; the corner is what stands left of it. -/
def commonRow (line : String) :
    (left corner : Nat × List String) → List String → List (Nat × List String) →
      List (Nat × List String)
  | left, corner, other :: others, above :: row =>
      let here :=
        if line = other then (corner.1 + 1, line :: corner.2)
        else if above.1 < left.1 then left
        else above
      here :: commonRow line here above others row
  | _, _, _, _ => []

def commonLines (old new : List String) : List String :=
  let rows := old.foldl (fun row line => commonRow line (0, []) (0, []) new row)
    (new.map fun _ => (0, []))
  (rows.getLast?.getD (0, [])).2.reverse

inductive Change where
  | kept
  | removed
  | added
  deriving DecidableEq, Repr

def Change.mark : Change → String
  | kept => " "
  | removed => "-"
  | added => "+"

def changedLines : (common old new : List String) → List (Change × String)
  | [], old, new => old.map (Change.removed, ·) ++ new.map (Change.added, ·)
  | line :: common, old, new =>
      (old.takeWhile (· ≠ line)).map (Change.removed, ·) ++
        (new.takeWhile (· ≠ line)).map (Change.added, ·) ++
        (.kept, line) ::
          changedLines common ((old.dropWhile (· ≠ line)).drop 1)
            ((new.dropWhile (· ≠ line)).drop 1)

def dropEmptyFirst : List String → List String
  | "" :: rest => rest
  | lines => lines

/-- One block of lines with one fate. An empty line at its end is not shown. -/
def changeBlock (block : List (Change × String)) : String :=
  match block with
  | [] => ""
  | (change, _) :: _ =>
      String.join ((lines (join "\n" (block.map (·.2)))).map fun line =>
        change.mark ++ line ++ "\n")

def changes (old new : String) : String :=
  let old := splitChar '\n' old
  let new := splitChar '\n' new
  let marked := changedLines (dropEmptyFirst (commonLines old new)) (dropEmptyFirst old)
    (dropEmptyFirst new)
  String.join ((marked.splitBy fun a b => a.1 = b.1).map changeBlock)

end NodeWeave.Text
