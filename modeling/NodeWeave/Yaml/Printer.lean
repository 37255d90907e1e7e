import NodeWeave.Yaml.Quoting
import NodeWeave.Decimal.Shortest

/-!
Writing values in block style. Maps and lists are indented by two columns, but a list that is the
value of a key stands in the column of the key.
-/

namespace NodeWeave.Yaml

/-- Floating-point numbers, with words for those that are no finite numbers. -/
def floatStyle : Decimal.Style :=
  { plusSign := false, notANumber := ".nan", infinity := ".inf" }

def maxKeyLength : Nat := 128

/-- The text of a value that takes one line, if the value does. Texts that need a block do not. -/
def oneLine? (indent : Nat) (isKey : Bool) : Yaml → Option String
  | null => some "null"
  | bool b => some (if b then "true" else "false")
  | int n => some (toString n)
  | float x => some (floatStyle.write x)
  | text s =>
      match writingOf s isKey with
      | .bare => some s
      | .singleQuotes => some (singleQuoted indent s)
      | .doubleQuotes => some (doubleQuoted s)
      | .block => none
  | list [] => some "[]"
  | map [] => some "\x7b\x7d"
  | tagged tag value => (oneLine? indent isKey value).map fun s => tag ++ " " ++ s
  | _ => none

def keyLength : Yaml → Nat
  | tagged tag value => tag.utf8ByteSize + keyLength value
  | text s => s.utf8ByteSize
  | value => ((oneLine? 0 true value).map String.utf8ByteSize).getD 0

def simpleKey? : Yaml → Option String
  | text s =>
      if s.toList.any isBreak || maxKeyLength < s.utf8ByteSize then none
      else oneLine? 0 true (text s)
  | list (_ :: _) | map (_ :: _) => none
  | value => if maxKeyLength < keyLength value then none else oneLine? 0 true value

def pad (n : Nat) : String :=
  String.ofList (spaces n)

mutual
/-- What stands behind a colon, a dash or a tag, up to the end of its last line. The two columns
are those of the enclosing block and of lists; a value that may begin on the line does so. -/
def writeAfter (indent listIndent : Nat) (onLine : Bool) : Yaml → String
  | list (item :: items) =>
      (if onLine then " " else "\n" ++ pad listIndent) ++ "-" ++
        writeAfter listIndent (listIndent + 2) true item ++ writeItems listIndent items
  | map (entry :: entries) =>
      (if onLine then " " else "\n" ++ pad (indent + 2)) ++
        writeEntry (indent + 2) entry ++ writeEntries (indent + 2) entries
  | tagged tag value => " " ++ tag ++ writeAfter indent listIndent false value
  | text s =>
      match writingOf s false with
      | .block => " " ++ blockText (indent + 2) s
      | _ => " " ++ (oneLine? (indent + 2) false (text s)).getD "" ++ "\n"
  | value => " " ++ (oneLine? (indent + 2) false value).getD "" ++ "\n"

def writeItems (indent : Nat) : List Yaml → String
  | [] => ""
  | item :: rest =>
      pad indent ++ "-" ++ writeAfter indent (indent + 2) true item ++ writeItems indent rest

def writeEntry (indent : Nat) : Yaml × Yaml → String
  | (key, value) =>
      match simpleKey? key with
      | some s => s ++ ":" ++ writeAfter indent indent false value
      | none =>
          "?" ++ writeAfter indent (indent + 2) true key ++ pad indent ++ ":" ++
            writeAfter indent (indent + 2) true value

def writeEntries (indent : Nat) : List (Yaml × Yaml) → String
  | [] => ""
  | entry :: rest => pad indent ++ writeEntry indent entry ++ writeEntries indent rest
end

def writeMap (entries : Entries) : String :=
  if entries.isEmpty then "\x7b\x7d\n" else writeEntries 0 entries

end NodeWeave.Yaml
