import NodeWeave.Pattern.Reader.Escape

/-! Classes in brackets: characters, ranges, named sets, nested classes and operators on them. -/

namespace NodeWeave.Pattern.Read

def namedSet? (name : String) : Option CharSet :=
  let range := CharSet.range
  match name with
  | "alnum" => some (.unions [range '0' '9', range 'A' 'Z', range 'a' 'z'])
  | "alpha" => some (.unions [range 'A' 'Z', range 'a' 'z'])
  | "ascii" => some .ascii
  | "blank" => some (.unions [.ofChar '\t', .ofChar ' '])
  | "cntrl" => some (.unions [range '\x00' '\x1f', .ofChar '\x7f'])
  | "digit" => some (range '0' '9')
  | "graph" => some (range '!' '~')
  | "lower" => some (range 'a' 'z')
  | "print" => some (range ' ' '~')
  | "punct" => some (.unions [range '!' '/', range ':' '@', range '[' '\x60', range '\x7b' '~'])
  | "space" => some (.unions [range '\t' '\r', .ofChar ' '])
  | "upper" => some (range 'A' 'Z')
  | "word" => some (.unions [range '0' '9', range 'A' 'Z', .ofChar '_', range 'a' 'z'])
  | "xdigit" => some (.unions [range '0' '9', range 'A' 'F', range 'a' 'f'])
  | _ => none

/-- A class that is named between colons and brackets, if one stands here. -/
def namedClass? : Read (Option CharSet) := do
  let before ← get
  drop
  if !(← take? ":") then
    set before
    return none
  else
    let negated ← take? "^"
    let name := (← get).rest.takeWhile (· != ':')
    drop name.length
    if ← take? ":]" then
      match namedSet? (String.ofList name) with
      | some s => return some (negatedIf negated (← folded s))
      | none =>
          set before
          return none
    else
      set before
      return none

inductive SetOperator where
  | intersection
  | difference
  | symmetricDifference

def SetOperator.apply (op : SetOperator) (a b : CharSet) : CharSet :=
  match op with
  | intersection => .intersection a b
  | difference => .difference a b
  | symmetricDifference => .symmetricDifference a b

def operator? : Read (Option SetOperator) := do
  if ← take? "&&" then return some .intersection
  else if ← take? "--" then return some .difference
  else if ← take? "~~" then return some .symmetricDifference
  else return none

def classItem : Read Atom := do
  match ← peek with
  | none => failure
  | some '\\' => escape
  | some c =>
      drop
      return .char c

def Atom.set? : Atom → Option CharSet
  | .char c => some (.ofChar c)
  | .set s => some s
  | _ => none

/-- The character after the next one, blanks that do not count left aside. -/
def peekBehind : Read (Option Char) := do
  let s ← get
  let rest := s.rest.drop 1
  return if s.flags.ignoresBlanks then (withoutBlanks (rest.length + 1) rest).head? else rest.head?

def itemSet (item : Atom) : Read CharSet :=
  match item.set? with
  | some s => return s
  | none => failure

def itemRange : Atom → Atom → Read CharSet
  | .char a, .char b => if a ≤ b then return .range a b else failure
  | _, _ => failure

def classRange : Read CharSet := do
  let first ← classItem
  skipBlanks
  failAtEnd
  let behind ← peekBehind
  if !(← next '-') || behind == some ']' || behind == some '-' then itemSet first
  else
    dropAndSkip
    failAtEnd
    itemRange first (← classItem)

/-- Without the flag for Unicode a class stands for single bytes, and those beyond ASCII are none
that a text could hold. -/
def bytesOnly (s : CharSet) : Read CharSet := do
  if (← get).flags.unicode then return s
  else if (List.range 128).any fun n => s.mem (Char.ofNat (n + 128)) then failure
  else return .intersection s .ascii

/-- Takes dashes at the start of a class, and a bracket if there are none. -/
def classStart : Nat → List CharSet → Read (List CharSet)
  | 0, _ => failure
  | bound + 1, sets => do
      failAtEnd
      if ← next '-' then
        dropAndSkip
        classStart bound (.ofChar '-' :: sets)
      else if (← next ']') && sets.isEmpty then
        dropAndSkip
        failAtEnd
        return [.ofChar ']']
      else return sets

/-- All items of a class together. They come in reverse. -/
def together (sets : List (Nested CharSet)) : Nested CharSet :=
  { value := .unions (sets.reverse.map (·.value)), depth := levels (sets.map (·.depth)) }

def combined (left : Option (Nested CharSet × SetOperator)) (sets : List (Nested CharSet)) :
    Read (Nested CharSet) := do
  let right := together sets
  match left with
  | none => return right
  | some (l, op) =>
      let value := op.apply (← folded l.value) (← folded right.value)
      return { value, depth := levels [l.depth, right.depth] }

mutual
/-- A class in brackets. The first argument bounds the depth. -/
def bracketed (bound : Nat) : Read (Nested CharSet) :=
  match bound with
  | 0 => failure
  | bound + 1 => do
      dropAndSkip
      failAtEnd
      let negated ← next '^'
      if negated then
        dropAndSkip
        failAtEnd
      let start ← classStart (bound + 1) []
      let s ← classBody bound none (start.map fun value => { value })
      return { value := negatedIf negated (← folded s.value), depth := s.depth + 1 }

/-- The rest of a class: what stands left of the last operator, and the sets since then. -/
def classBody (bound : Nat) (left : Option (Nested CharSet × SetOperator))
    (sets : List (Nested CharSet)) : Read (Nested CharSet) :=
  match bound with
  | 0 => failure
  | bound + 1 => do
      skipBlanks
      match ← peek with
      | none => failure
      | some '[' =>
          match ← namedClass? with
          | some value => classBody bound left ({ value } :: sets)
          | none =>
              let s ← bracketed bound
              classBody bound left (s :: sets)
      | some ']' =>
          drop
          combined left sets
      | some _ =>
          match ← operator? with
          | some op => do
              let l ← combined left sets
              classBody bound (some (l, op)) []
          | none =>
              let value ← classRange
              classBody bound left ({ value } :: sets)
end

end NodeWeave.Pattern.Read
