import NodeWeave.Pattern.CharSet

/-!
Patterns, and the parts of a text that they match. What a pattern matches is said twice: by a
relation between the places of a text, and by a function that gives all ends of matches at once.
-/

namespace NodeWeave

inductive Look where
  | textStart
  | textEnd
  /-- At the start of a line. Carriage returns may end lines, too. -/
  | lineStart (returns : Bool)
  | lineEnd (returns : Bool)
  /-- Exactly one of the characters around the place may stand in a word. -/
  | wordBoundary (words : CharSet)
  | noWordBoundary (words : CharSet)
  | wordStart (words : CharSet)
  | wordEnd (words : CharSet)
  /-- No character of a word stands in front of the place. -/
  | wordStartHalf (words : CharSet)
  | wordEndHalf (words : CharSet)
  deriving DecidableEq, Repr

inductive Pattern where
  | empty
  | one (set : CharSet)
  | look (condition : Look)
  | seq (first second : Pattern)
  | alt (first second : Pattern)
  /-- At least and at most so many times. -/
  | repeated (p : Pattern) (least : Nat) (most : Option Nat)
  deriving DecidableEq, Repr

namespace Look

/-- The condition holds between these two characters; outside of the text there is none. -/
def holdsBetween (before after : Option Char) : Look → Bool
  | textStart => before.isNone
  | textEnd => after.isNone
  | lineStart returns =>
      before.all fun c => c == '\n' || (returns && c == '\r' && after != some '\n')
  | lineEnd returns =>
      after.all fun c =>
        (c == '\n' && !(returns && before == some '\r')) || (returns && c == '\r')
  | wordBoundary words => before.any (words.mem ·) != after.any (words.mem ·)
  | noWordBoundary words => before.any (words.mem ·) == after.any (words.mem ·)
  | wordStart words => !before.any (words.mem ·) && after.any (words.mem ·)
  | wordEnd words => before.any (words.mem ·) && !after.any (words.mem ·)
  | wordStartHalf words => !before.any (words.mem ·)
  | wordEndHalf words => !after.any (words.mem ·)

def holds (text : List Char) (place : Nat) (condition : Look) : Bool :=
  let before := if place = 0 then none else text[place - 1]?
  condition.holdsBetween before text[place]?

end Look

namespace Pattern

/-- The pattern matches the part of the text between two places. -/
inductive Spans (text : List Char) : Pattern → Nat → Nat → Prop where
  | empty (i : Nat) : Spans text .empty i i
  | one {set : CharSet} {c : Char} {i : Nat} (at_place : text[i]? = some c)
      (mem : set.mem c = true) : Spans text (.one set) i (i + 1)
  | look {condition : Look} {i : Nat} (holds : condition.holds text i = true) :
      Spans text (.look condition) i i
  | seq {p q : Pattern} {i j k : Nat} (first : Spans text p i j) (second : Spans text q j k) :
      Spans text (.seq p q) i k
  | altLeft {p q : Pattern} {i j : Nat} (left : Spans text p i j) : Spans text (.alt p q) i j
  | altRight {p q : Pattern} {i j : Nat} (right : Spans text q i j) : Spans text (.alt p q) i j
  | done {p : Pattern} {most : Option Nat} {i : Nat} : Spans text (.repeated p 0 most) i i
  | again {p : Pattern} {least : Nat} {most : Option Nat} {i j k : Nat}
      (room : most ≠ some 0) (first : Spans text p i j)
      (rest : Spans text (.repeated p (least - 1) (most.map (· - 1))) j k) :
      Spans text (.repeated p least most) i k

/-- How much room the pattern takes with its repetitions written out, in the bytes of an
automaton. -/
def room : Pattern → Nat
  | empty => 0
  | one set => set.room
  | look _ => 32
  | seq p q => p.room + q.room
  | alt p q => 48 + p.room + q.room
  | repeated p least most =>
      match most with
      | none => 48 + max 1 least * p.room
      | some most => least * p.room + (most - least) * (48 + p.room)

def maxRoom : Nat := 10485760

def addPlaces (places more : List Nat) : List Nat :=
  more.foldl (fun places i => if places.contains i then places else places ++ [i]) places

/-- Repeats a step exactly so many times, but stops where nothing changes any more. -/
def stepTimes (step : List Nat → List Nat) : Nat → List Nat → List Nat
  | 0, places => places
  | n + 1, places =>
      let next := step places
      if next = places then places else stepTimes step n next

/-- Repeats a step at most so many times, and keeps all places on the way. -/
def stepUpTo (step : List Nat → List Nat) : Nat → List Nat → List Nat
  | 0, places => places
  | n + 1, places =>
      let next := addPlaces places (step places)
      if next = places then places else stepUpTo step n next

/-- The places where matches end that begin at these places. After more repetitions than the text
has places, further ones change nothing. -/
def ends (text : List Char) : Pattern → List Nat → List Nat
  | empty, places => places
  | one set, places => (places.filter fun i => text[i]?.any (set.mem ·)).map (· + 1)
  | look condition, places => places.filter fun i => condition.holds text i
  | seq p q, places => ends text q (ends text p places)
  | alt p q, places => addPlaces (ends text p places) (ends text q places)
  | repeated p least most, places =>
      let limit := text.length + 2
      let first := stepTimes (fun s => addPlaces [] (ends text p s)) (min least limit) places
      let more := (most.map (· - least)).getD limit
      stepUpTo (ends text p) (min more limit) first

def occursIn (p : Pattern) (text : List Char) : Bool :=
  !(p.ends text (List.range (text.length + 1))).isEmpty

@[simp] theorem ends_empty (text : List Char) (places : List Nat) :
    empty.ends text places = places := rfl

@[simp] theorem ends_seq (text : List Char) (p q : Pattern) (places : List Nat) :
    (seq p q).ends text places = q.ends text (p.ends text places) := rfl

end Pattern

end NodeWeave
