import NodeWeave.Text.Basic
import NodeWeave.Text.Word

/-!
Replacing whole words. A word stands whole where no word character touches it. In the replacement a
dollar sign with a name or a number refers to a part of the match; number 0 is the match itself,
and no other part exists.
-/

namespace NodeWeave.Text

def isWordAt : Option Char → Bool
  | some c => isWord c
  | none => false

/-- A word begins or ends between the two characters; outside the text there is none. -/
def isBoundary (before after : Option Char) : Bool :=
  isWordAt before != isWordAt after

def isPartChar (c : Char) : Bool :=
  c.isAlphanum || c == '_'

def partText (matched name : List Char) : List Char :=
  let digits := if name.head? = some '+' then name.drop 1 else name
  if digits ≠ [] ∧ digits.all (· == '0') then matched else []

/-- Resolves the dollar signs of a replacement. The first argument bounds the number of steps. -/
def expandParts (matched : List Char) : Nat → List Char → List Char
  | 0, _ => []
  | _, [] => []
  | bound + 1, '$' :: rest =>
      match rest with
      | '$' :: more => '$' :: expandParts matched bound more
      | '\x7b' :: more =>
          match splitFirst? ['\x7d'] more with
          | some (name, following) =>
              partText matched name ++ expandParts matched bound following
          | none => '$' :: expandParts matched bound rest
      | _ =>
          match rest.takeWhile isPartChar with
          | [] => '$' :: expandParts matched bound rest
          | name =>
              partText matched name ++ expandParts matched bound (rest.dropWhile isPartChar)
  | bound + 1, c :: rest => c :: expandParts matched bound rest

def expandReplacement (matched replacement : List Char) : List Char :=
  expandParts matched replacement.length replacement

def afterWord? (word : List Char) (before : Option Char) (text : List Char) :
    Option (List Char) :=
  match after? word text with
  | none => none
  | some rest =>
      if isBoundary before text.head? && isBoundary (word.getLast?.or before) rest.head? then
        some rest
      else none

/-- Replaces every whole occurrence of a word that is not empty. `before` is the character in
front of the text, and the first argument bounds the number of steps. -/
def replaceWordChars (word new : List Char) : Nat → (before : Option Char) → List Char → List Char
  | 0, _, text => text
  | _, _, [] => []
  | bound + 1, before, c :: rest =>
      match afterWord? word before (c :: rest) with
      | some following => new ++ replaceWordChars word new bound word.getLast? following
      | none => c :: replaceWordChars word new bound (some c) rest

def replaceWord (word replacement text : String) : String :=
  String.ofList (replaceWordChars word.toList
    (expandReplacement word.toList replacement.toList) text.toList.length none text.toList)

end NodeWeave.Text
