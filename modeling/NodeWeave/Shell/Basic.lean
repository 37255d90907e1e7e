/-! Scripts for a small shell: lists of commands with words, assignments and redirections. -/

namespace NodeWeave.Shell

/-- What is cut off a value before it is used. An asterisk in a pattern stands for any text. -/
inductive Cut where
  | nothing
  | shortestFront (pattern : String)
  | longestFront (pattern : String)
  | shortestBack (pattern : String)
  | longestBack (pattern : String)
  /-- Used instead of an empty value. -/
  | orElse (text : String)
  deriving DecidableEq, Repr

/-- A part of a word. Quoted parts are never split. -/
inductive WordPart where
  | char (c : Char) (quoted : Bool)
  | value (name : String) (cut : Cut) (quoted : Bool)
  /-- Where quotes open, which makes a word even if nothing stands between them. -/
  | quotes
  deriving DecidableEq, Repr

abbrev Word := List WordPart

inductive Target where
  | file (word : Word) (append : Bool)
  | descriptor (word : Word)
  | input (word : Word)
  deriving DecidableEq, Repr

structure Redirection where
  descriptor : Nat
  target : Target
  deriving DecidableEq, Repr

/-- When a command runs, by how the one before it ended. -/
inductive Link where
  | always
  | afterSuccess
  | afterFailure
  deriving DecidableEq, Repr

structure Command where
  line : Nat
  link : Link := .always
  assignments : List (String × Word) := []
  words : List Word := []
  redirections : List Redirection := []
  deriving DecidableEq, Repr

end NodeWeave.Shell
