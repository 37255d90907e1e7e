import NodeWeave.Decimal.Shortest
import NodeWeave.Index

/-! Values of JSON. The fields of an object stand in the order of their names. -/

namespace NodeWeave

inductive Json where
  | null
  | bool (value : Bool)
  | int (value : Int)
  | float (value : Binary64)
  | text (value : String)
  | list (items : List Json)
  | object (fields : List (String × Json))
  deriving Repr, Inhabited

namespace Json

/-- The object with these fields; of two fields with one name the later one stays. -/
def ofFields (fields : List (String × Json)) : Json :=
  .object (Index.ofList fields)

def field? (name : String) : Json → Option Json
  | object fields => fields.lookup name
  | _ => none

def hexDigit (n : Nat) : Char :=
  Nat.digitChar n

def escapeChar (c : Char) : List Char :=
  if c = '"' then ['\\', '"']
  else if c = '\\' then ['\\', '\\']
  else if c = '\n' then ['\\', 'n']
  else if c = '\r' then ['\\', 'r']
  else if c = '\t' then ['\\', 't']
  else if c = '\x08' then ['\\', 'b']
  else if c = '\x0c' then ['\\', 'f']
  else if c.toNat < 32 then
    ['\\', 'u', '0', '0', hexDigit (c.toNat / 16), hexDigit (c.toNat % 16)]
  else [c]

def quote (text : String) : String :=
  String.ofList ('"' :: text.toList.flatMap escapeChar ++ ['"'])

/-- Exponents of floating-point numbers carry their sign. Infinite numbers have no text. -/
def floatStyle : Decimal.Style :=
  { plusSign := true, notANumber := "null", infinity := "null" }

mutual
def compact : Json → String
  | null => "null"
  | bool true => "true"
  | bool false => "false"
  | int value => toString value
  | float value => floatStyle.write value
  | text value => quote value
  | list items => "[" ++ compactItems items ++ "]"
  | object fields => "\x7b" ++ compactFields fields ++ "\x7d"

def compactItems : List Json → String
  | [] => ""
  | [item] => compact item
  | item :: rest => compact item ++ "," ++ compactItems rest

def compactFields : List (String × Json) → String
  | [] => ""
  | [(name, value)] => quote name ++ ":" ++ compact value
  | (name, value) :: rest => quote name ++ ":" ++ compact value ++ "," ++ compactFields rest
end

@[simp] theorem compact_null : compact null = "null" := by simp [compact]

end Json

end NodeWeave
