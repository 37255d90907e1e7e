import NodeWeave.Peg.Basic

/-! Running a parsing expression grammar on a text. -/

namespace NodeWeave.Peg

variable {R : Type}

/-- What a run gives: the cursor after the match, if there is one, and the furthest failure met so
far, which a match may leave behind as well. -/
abbrev Outcome (R : Type) := Option (Cursor R) × Expectation R

namespace Rules

/-- Runs an expression at a cursor. The first argument bounds how deep the calls nest; a run that
meets the bound fails. -/
def run (g : Rules R) : Nat → Mode → Expr R → Cursor R → Expectation R → Outcome R
  | 0, _, _, _, e => (none, e)
  | _ + 1, _, .done, c, e => (some c, e)
  | _ + 1, _, .text chars, c, e => (c.text? chars, e)
  | _ + 1, _, .one accepts, c, e => (c.one? accepts, e)
  | _ + 1, _, .finish, c, e => (if c.rest.isEmpty then some c else none, e)
  | depth + 1, mode, .seq first second, c, e =>
      match g.run depth mode first c e with
      | (none, e) => (none, e)
      | (some c, e) =>
          match mode with
          | .spaced =>
              match g.run depth .token g.blank c e with
              | (none, e) => (none, e)
              | (some c, e) => g.run depth mode second c e
          | _ => g.run depth mode second c e
  | depth + 1, mode, .alt first second, c, e =>
      match g.run depth mode first c e with
      | (some c, e) => (some c, e)
      | (none, e) => g.run depth mode second c e
  | depth + 1, mode, .opt body, c, e =>
      match g.run depth mode body c e with
      | (some c, e) => (some c, e)
      | (none, e) => (some c, e)
  | depth + 1, mode, .star body, c, e =>
      match g.run depth mode body c e with
      | (none, e) => (some c, e)
      | (some c, e) => g.run depth mode (.more body) c e
  | depth + 1, mode, .more body, c, e =>
      let spaced :=
        match mode with
        | .spaced => g.run depth .token g.blank c e
        | _ => (some c, e)
      match spaced with
      | (none, e) => (some c, e)
      | (some after, e) =>
          match g.run depth mode body after e with
          | (none, e) => (some c, e)
          | (some c, e) => g.run depth mode (.more body) c e
  | depth + 1, mode, .unless body, c, e =>
      match g.run depth mode body c e with
      | (some _, _) => (none, e)
      | (none, _) => (some c, e)
  | depth + 1, mode, .rule name, c, e =>
      let kind := g.kind name
      let outer := kind.outer mode
      if kind = .silent || outer = .token then
        g.run depth (kind.inner mode) (g.body name) c e
      else
        let before := e.countAt c.offset
        match g.run depth (kind.inner mode) (g.body name) { c with made := [] } e with
        | (none, e) => (none, e.fail name c.offset before)
        | (some later, e) =>
            let tree :=
              .node name c.offset later.offset (c.textTo later) later.made.reverse
            (some { later with made := tree :: c.made }, e)

/-- How deep the calls may nest on a text of this many characters. Between two characters a run
passes through each rule at most once. -/
def depthFor (length : Nat) : Nat :=
  (length + 2) * 512

def parse (g : Rules R) (root : R) (text : String) : Except (Expectation R) (Tree R) :=
  let c : Cursor R := .start text
  match g.run (depthFor c.rest.length) .spaced (.rule root) c {} with
  | (some { made := tree :: _, .. }, _) => .ok tree
  | (_, e) => .error e

end Rules

end NodeWeave.Peg
