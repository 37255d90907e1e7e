import NodeWeave.Template.Basic
import NodeWeave.Text.Blank

/-!
Reading templates. A text is first cut into pieces, where the content of a tag has no blanks around
it; then blocks are put together. A tag that is never closed is the last piece.
-/

namespace NodeWeave.Template

inductive Token where
  | text (text : List Char)
  /-- A tag with its offset. -/
  | tag (content : List Char) (offset : Nat)
  | unclosed (offset : Nat)
  deriving DecidableEq, Repr

def trimmed (text : List Char) : List Char :=
  Text.dropBlanksEnd (Text.dropBlanks text)

def textToken (text : List Char) : List Token :=
  if text.isEmpty then [] else [.text text]

set_option linter.unusedVariables false in
def tokens (offset : Nat) (text : List Char) : List Token :=
  match found : Text.splitFirst? opening text with
  | none => textToken text
  | some (before, after) =>
      let start := offset + Text.byteLength before
      match closed : Text.splitFirst? closing after with
      | none => textToken before ++ [.unclosed start]
      | some (content, rest) =>
          textToken before ++
            .tag (trimmed content) start ::
              tokens (start + 2 + Text.byteLength content + 2) rest
termination_by text.length
decreasing_by
  have first := Text.length_of_splitFirst? found
  have second := Text.length_of_splitFirst? closed
  simp only [opening, closing, List.length_cons, List.length_nil] at first second
  omega

/-- A block whose end is not read yet, with the parts in front of it in reverse. -/
structure OpenBlock where
  kind : BlockKind
  path : String
  before : List Part

inductive Tag where
  | value (path : String)
  | start (name path : String)
  | stop (name : String)
  deriving DecidableEq, Repr

def Tag.ofContent (content : List Char) : Tag :=
  match content with
  | '#' :: rest =>
      .start (String.ofList (rest.takeWhile fun c => !Text.isBlank c))
        (String.ofList (trimmed (rest.dropWhile fun c => !Text.isBlank c)))
  | '/' :: rest => .stop (String.ofList (trimmed rest))
  | content => .value (String.ofList content)

/-- Puts parts together. The open blocks come innermost first, and the parts read since the last
start of a block come in reverse. -/
def assemble (blocks : List OpenBlock) (parts : List Part) :
    List Token → Except Problem (List Part)
  | [] =>
      match blocks with
      | [] => .ok parts.reverse
      | b :: _ => .error (.unclosedBlock b.kind)
  | .text text :: rest => assemble blocks (.text (String.ofList text) :: parts) rest
  | .unclosed offset :: _ => .error (.unclosedTag offset)
  | .tag content offset :: rest =>
      match Tag.ofContent content with
      | .value path => assemble blocks (.value path :: parts) rest
      | .start name path =>
          match BlockKind.ofName? name with
          | some kind => assemble ({ kind, path, before := parts } :: blocks) [] rest
          | none => .error (.unknownBlock name)
      | .stop name =>
          match blocks with
          | [] => .error (.unexpectedClose name offset)
          | b :: outer =>
              if b.kind.name = name then
                assemble outer (.block b.kind b.path parts.reverse :: b.before) rest
              else .error (.unexpectedClose name offset)

def read (template : String) : Except Problem (List Part) :=
  assemble [] [] (tokens 0 template.toList)

theorem tokens_nil (offset : Nat) : tokens offset [] = [] := by
  rw [tokens]
  simp [Text.splitFirst?, opening, textToken]

@[simp] theorem read_empty : read "" = .ok [] := by
  simp [read, tokens_nil, assemble]

end NodeWeave.Template
