import NodeWeave.Text.Basic

/-!
Parsing expression grammars as data: expressions over named rules, how a rule treats blanks and
whether it leaves a node, and the trees that a parse builds.
-/

namespace NodeWeave.Peg

/-- What may match at a place of the text. -/
inductive Expr (R : Type) where
  | done
  | text (chars : List Char)
  | one (accepts : Char → Bool)
  | seq (first second : Expr R)
  | alt (first second : Expr R)
  | opt (body : Expr R)
  | star (body : Expr R)
  /-- Further repetitions of `body`, each after blanks where blanks are free. -/
  | more (body : Expr R)
  /-- Matches nothing, and only where `body` does not match. -/
  | unless (body : Expr R)
  | finish
  | rule (name : R)

namespace Expr

variable {R : Type}

instance : AndThen (Expr R) := ⟨fun first second => .seq first (second ())⟩

instance : OrElse (Expr R) := ⟨fun first second => .alt first (second ())⟩

def plus (body : Expr R) : Expr R :=
  .seq body (.star body)

def butNot (stop : Expr R) : Expr R :=
  .seq (.unless stop) (.one fun _ => true)

def word (text : String) : Expr R :=
  .text text.toList

end Expr

/-- How the parts of a rule follow each other. -/
inductive Mode where
  /-- Blanks may stand between the parts. -/
  | spaced
  /-- Nothing stands between the parts. -/
  | compact
  /-- Nothing stands between the parts, and the rules inside leave no nodes. -/
  | token
  deriving DecidableEq, Repr

/-- What a rule does to the mode, and whether it shows. -/
inductive Kind where
  /-- Leaves no node and is never an expectation. -/
  | silent
  | normal
  | compact
  | token
  deriving DecidableEq, Repr

namespace Kind

def outer : Kind → Mode → Mode
  | .compact, _ => .compact
  | _, mode => mode

def inner : Kind → Mode → Mode
  | .compact, _ => .compact
  | .token, _ => .token
  | _, mode => mode

end Kind

/-- A grammar: the body and the kind of every rule, and the blanks of spaced rules. -/
structure Rules (R : Type) where
  body : R → Expr R
  kind : R → Kind
  blank : Expr R

/-- The part of the text that a rule matched, with the parts that the rules inside it matched.
Offsets are in bytes. -/
inductive Tree (R : Type) where
  | node (rule : R) (start stop : Nat) (text : String) (children : List (Tree R))

namespace Tree

variable {R : Type}

def rule : Tree R → R
  | .node rule .. => rule

def start : Tree R → Nat
  | .node _ start .. => start

def stop : Tree R → Nat
  | .node _ _ stop .. => stop

def text : Tree R → String
  | .node _ _ _ text _ => text

def children : Tree R → List (Tree R)
  | .node _ _ _ _ children => children

theorem sizeOf_lt_of_mem [SizeOf R] {tree child : Tree R} (mem : child ∈ tree.children) :
    sizeOf child < sizeOf tree := by
  cases tree with
  | node rule start stop text inner =>
      have smaller := List.sizeOf_lt_of_mem (show child ∈ inner from mem)
      simp only [Tree.node.sizeOf_spec]
      omega

end Tree

/-- A place in the text, with the trees built since the rule around it began, last one first. -/
structure Cursor (R : Type) where
  rest : List Char
  offset : Nat
  index : Nat
  made : List (Tree R)

namespace Cursor

variable {R : Type}

def start (text : String) : Cursor R :=
  { rest := text.toList, offset := 0, index := 0, made := [] }

def text? (chars : List Char) (c : Cursor R) : Option (Cursor R) :=
  match Text.after? chars c.rest with
  | some rest =>
      some { c with
        rest, offset := c.offset + Text.byteLength chars, index := c.index + chars.length }
  | none => none

def one? (accepts : Char → Bool) (c : Cursor R) : Option (Cursor R) :=
  match c.rest with
  | [] => none
  | ch :: rest =>
      if accepts ch then
        some { c with rest, offset := c.offset + ch.utf8Size, index := c.index + 1 }
      else none

def textTo (c later : Cursor R) : String :=
  String.ofList (c.rest.take (later.index - c.index))

end Cursor

/-- The furthest place where a rule failed, and the rules that were expected there. -/
structure Expectation (R : Type) where
  offset : Nat := 0
  rules : List R := []

namespace Expectation

variable {R : Type}

def countAt (e : Expectation R) (offset : Nat) : Nat :=
  if e.offset = offset then e.rules.length else 0

/-- Records that a rule failed at an offset. `before` is the count there when the rule began. A
single expectation that arose inside the rule says more than the rule itself and is kept;
otherwise the rule stands for all that arose inside it. -/
def fail (e : Expectation R) (rule : R) (offset before : Nat) : Expectation R :=
  if e.countAt offset = before + 1 then e
  else if e.offset = offset then { e with rules := e.rules.take before ++ [rule] }
  else if e.offset < offset then { offset, rules := [rule] }
  else e

end Expectation

end NodeWeave.Peg
