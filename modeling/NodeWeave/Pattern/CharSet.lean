import NodeWeave.Text.Blank
import NodeWeave.Text.Casing
import NodeWeave.Text.Word

/-!
Sets of characters, as patterns describe them. Letters are told from other characters by the words
they stand in, and from each other by the other case they have.
-/

namespace NodeWeave

/-- The character a single character becomes; longer results do not count. -/
def single (c : Char) (mapped : List Char) : Char :=
  match mapped with
  | [d] => d
  | _ => c

/-- The representative of the characters that differ from this one in case only. -/
def foldCase (c : Char) : Char :=
  if c.toNat = 0x130 ∨ c.toNat = 0x131 then c
  else
    let upper := single c (Text.upperChar c)
    single upper (Text.lowerChar upper)

/-- Characters that differ in case only from a representative, besides its upper case. -/
def moreCases : List (Nat × List Nat) :=
  [(0x6B, [0x212A]), (0x73, [0x17F]), (0x3BC, [0xB5]), (0xE5, [0x212B]), (0xDF, [0x1E9E]),
    (0x1C6, [0x1C5]), (0x1C9, [0x1C8]), (0x1CC, [0x1CB]), (0x1F3, [0x1F2]),
    (0x3B9, [0x345, 0x1FBE]), (0x3B2, [0x3D0]), (0x3B5, [0x3F5]), (0x3B8, [0x3D1, 0x3F4]),
    (0x3BA, [0x3F0]), (0x3C0, [0x3D6]), (0x3C1, [0x3F1]), (0x3C3, [0x3C2]), (0x3C6, [0x3D5]),
    (0x3C9, [0x2126]), (0x432, [0x1C80]), (0x434, [0x1C81]), (0x43E, [0x1C82]),
    (0x441, [0x1C83]), (0x442, [0x1C84, 0x1C85]), (0x44A, [0x1C86]), (0x463, [0x1C87]),
    (0xA64B, [0x1C88]), (0x1E61, [0x1E9B]), (0x1F80, [0x1F88]), (0x1F81, [0x1F89]),
    (0x1F82, [0x1F8A]), (0x1F83, [0x1F8B]), (0x1F84, [0x1F8C]), (0x1F85, [0x1F8D]),
    (0x1F86, [0x1F8E]), (0x1F87, [0x1F8F]), (0x1F90, [0x1F98]), (0x1F91, [0x1F99]),
    (0x1F92, [0x1F9A]), (0x1F93, [0x1F9B]), (0x1F94, [0x1F9C]), (0x1F95, [0x1F9D]),
    (0x1F96, [0x1F9E]), (0x1F97, [0x1F9F]), (0x1FA0, [0x1FA8]), (0x1FA1, [0x1FA9]),
    (0x1FA2, [0x1FAA]), (0x1FA3, [0x1FAB]), (0x1FA4, [0x1FAC]), (0x1FA5, [0x1FAD]),
    (0x1FA6, [0x1FAE]), (0x1FA7, [0x1FAF]), (0x1FB3, [0x1FBC]), (0x1FC3, [0x1FCC]),
    (0x1FF3, [0x1FFC])]

/-- The characters that differ from this one in case only, and the character itself. -/
def caseVariants (c : Char) : List Char :=
  let folded := foldCase c
  let more := (moreCases.lookup folded.toNat).getD []
  c :: folded :: single folded (Text.upperChar folded) :: more.map Char.ofNat

inductive CharSet where
  /-- The characters from the first to the last one. -/
  | range (first last : Char)
  | word
  | digit
  | blank
  | letter
  | upperLetter
  | lowerLetter
  | union (a b : CharSet)
  | intersection (a b : CharSet)
  | difference (a b : CharSet)
  | symmetricDifference (a b : CharSet)
  | complement (a : CharSet)
  /-- With all characters that differ in case only. -/
  | anyCase (a : CharSet)
  deriving DecidableEq, Repr

namespace CharSet

def ofChar (c : Char) : CharSet := range c c

def any : CharSet := range '\x00' (Char.ofNat 0x10FFFF)

def none : CharSet := complement any

def ascii : CharSet := range '\x00' '\x7f'

/-- A letter: it may stand in a word, and is neither a digit nor the underscore. -/
def isLetter (c : Char) : Bool :=
  Text.isWord c && !Text.isDigit c && c != '_'

def mem (c : Char) : CharSet → Bool
  | range first last => first ≤ c && c ≤ last
  | word => Text.isWord c
  | digit => Text.isDigit c
  | blank => Text.isBlank c
  | letter => isLetter c
  | upperLetter => isLetter c && Text.lowerChar c != [c]
  | lowerLetter => isLetter c && Text.upperChar c != [c]
  | union a b => mem c a || mem c b
  | intersection a b => mem c a && mem c b
  | difference a b => mem c a && !mem c b
  | symmetricDifference a b => mem c a != mem c b
  | complement a => !mem c a
  | anyCase a => (caseVariants c).any fun d => mem d a

def unions (sets : List CharSet) : CharSet :=
  sets.foldr union none

/-- How much room a set takes in an automaton that reads bytes, roughly. -/
def room : CharSet → Nat
  | range first last =>
      if first = last then 32 * first.utf8Size else if last.toNat < 128 then 40 else 80
  | word | letter => 50000
  | upperLetter | lowerLetter => 30000
  | digit => 4000
  | blank => 400
  | union a b | symmetricDifference a b => room a + room b
  | intersection a b => min (room a) (room b)
  | difference a _ => room a
  | complement a => 320 + room a
  | anyCase a => 2 * room a

@[simp] theorem mem_any (c : Char) : mem c any = true := by
  have valid := c.valid
  simp only [any, mem, Bool.and_eq_true, decide_eq_true_eq]
  constructor
  · exact UInt32.zero_le
  · have bound : c.toNat ≤ 0x10FFFF := by
      rcases valid with small | ⟨_, large⟩
      · exact Nat.le_of_lt (Nat.lt_trans small (by decide))
      · exact Nat.le_of_lt_succ large
    exact bound

@[simp] theorem mem_none (c : Char) : mem c none = false := by
  simp [none, mem]

@[simp] theorem mem_unions (c : Char) (sets : List CharSet) :
    mem c (unions sets) = sets.any (mem c) := by
  induction sets with
  | nil => simp [unions]
  | cons s rest ih => simpa [unions, mem] using congrArg (mem c s || ·) ih

end CharSet

end NodeWeave
