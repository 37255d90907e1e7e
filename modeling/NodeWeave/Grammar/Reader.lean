import NodeWeave.Fault
import NodeWeave.Grammar.Basic
import NodeWeave.Grammar.Rule
import NodeWeave.Text.Blank

/-! Reading a grammar file: its text is matched by the rules, and the model is built from the
tree. -/

namespace NodeWeave.Grammar

open Peg

def readingPhase : String := "parse"

def readFault (cause : Cause) (span : Span) : Fault :=
  { cause, phase := readingPhase, span }

abbrev Part := Peg.Tree Rule

namespace Part

def span (part : Part) : Span :=
  .between part.start part.stop

def unexpected {α : Type} (part : Part) : Except Fault α :=
  .error (readFault (.unsupported ("construct " ++ part.rule.label)) part.span)

def missing {α : Type} (part : Part) (element : String) : Except Fault α :=
  .error (readFault (.missingElement element) part.span)

def next (part : Part) (element : String) : List Part → Except Fault (Part × List Part)
  | [] => part.missing element
  | first :: rest => .ok (first, rest)

def blockText (part : Part) : String :=
  match part.children with
  | content :: _ => content.text
  | [] => ""

end Part

def inInt64 (n : Int) : Bool :=
  -9223372036854775808 ≤ n && n ≤ 9223372036854775807

def decimal (digits : List Char) : Nat :=
  digits.foldl (fun n c => 10 * n + (c.toNat - '0'.toNat)) 0

/-- The integer that a sign and digits denote, if it has at most 64 bits. -/
def readInt (text : String) : Option Int :=
  let value : Int :=
    match text.toList with
    | '-' :: digits => -(decimal digits : Int)
    | digits => decimal digits
  if inInt64 value then some value else none

def unquote (text : String) : String :=
  match text.toList with
  | '"' :: rest =>
      if rest.getLast? = some '"' then String.ofList rest.dropLast else text
  | _ => text

def buildEntry (entry : Part) : Except Fault OptionEntry := do
  let (key, rest) ← entry.next "option name" entry.children
  let (value, _) ← entry.next "option value" rest
  match value.rule with
  | .boolValue => return ⟨key.text, .bool (value.text == "true")⟩
  | .intValue =>
      match readInt value.text with
      | some n => return ⟨key.text, .int n⟩
      | none =>
          .error (readFault (.malformed ("invalid integer '" ++ value.text ++ "'")) entry.span)
  | _ => return ⟨key.text, .text (unquote value.text)⟩

def buildParserUnit (decl : Part) : Except Fault ParserUnit := do
  let (opening, rest) ← decl.next "parser name" decl.children
  let (body, rest) ← decl.next "parser body" rest
  let (closing, _) ← decl.next "parser name" rest
  if opening.text = closing.text then
    return ⟨opening.text, Text.trimEnd body.text⟩
  else
    .error ((readFault (.malformed ("PARSER_END(" ++ closing.text ++
      ") does not match PARSER_BEGIN(" ++ opening.text ++ ")")) closing.span).withHelp
        ("rename it PARSER_END(" ++ opening.text ++ ")"))

def buildDescriptor (part : Part) : Except Fault Descriptor := do
  let (name, rest) ← part.next "node name" part.children
  match rest with
  | [] => return ⟨name.text, none⟩
  | condition :: _ =>
      let (body, _) ← part.next "node condition" condition.children
      match body.rule with
      | .gtCondition =>
          let arity := (body.children.head?.map Tree.text).getD ""
          return ⟨name.text, some ⟨Text.trim arity, true⟩⟩
      | _ => return ⟨name.text, some ⟨Text.trim body.text, false⟩⟩

structure Header where
  written : String := ""
  name : Option String := none
  throws : List String := []

/-- Adds one part of a production header to what stands before it. -/
def Header.add (header : Header) (part : Part) : Except Fault Header :=
  match part.rule with
  | .accessModifier | .resultType =>
      .ok { header with written := header.written ++ part.text ++ " " }
  | .identifier =>
      .ok { header with written := header.written ++ part.text, name := some part.text }
  | .parenContent =>
      .ok { header with written := header.written ++ "(" ++ Text.trim part.text ++ ")" }
  | .throwsClause => .ok { header with throws := part.children.map Tree.text }
  | _ => part.unexpected

def buildAssigned (part : Part) (target : Option String) :
    List Part → Except Fault Expansion
  | [] => part.missing "terminal or nonterminal"
  | unit :: rest =>
      match unit.rule with
      | .lhs => buildAssigned part (some unit.text) rest
      | .terminal => .ok (.terminal target unit.text)
      | .nonterminal => do
          let (name, inner) ← part.next "production name" unit.children
          let (arguments, _) ← part.next "arguments" inner
          return .reference target name.text (Text.trim arguments.text)
      | _ => unit.unexpected

def buildOccurrence : List Part → Option Occurrence
  | [] => none
  | part :: _ =>
      match part.text with
      | "?" => some .optional
      | "*" => some .many
      | "+" => some .some
      | _ => none

def buildClauses : List Part → Except Fault (List CatchClause × Option String)
  | [] => .ok ([], none)
  | clause :: rest =>
      match clause.rule with
      | .catchClause => do
          let (parameter, inner) ← clause.next "catch parameter" clause.children
          let (block, _) ← clause.next "catch block" inner
          let (catches, finallyCode) ← buildClauses rest
          return (⟨Text.trim parameter.text, block.blockText⟩ :: catches, finallyCode)
      | .finallyClause => do
          let (block, _) ← clause.next "finally block" clause.children
          let (catches, finallyCode) ← buildClauses rest
          return (catches, finallyCode.or (some block.blockText))
      | _ => clause.unexpected

mutual
def buildChoices : Part → Except Fault Expansion
  | .node _ _ _ _ sequences => do
      match ← buildSequences sequences with
      | [only] => return only
      | alternatives => return .choice alternatives

def buildSequences : List Part → Except Fault (List Expansion)
  | [] => .ok []
  | part :: rest => do
      let first ← buildSequence part
      let others ← buildSequences rest
      return first :: others

def buildSequence : Part → Except Fault Expansion
  | .node _ _ _ _ units => do
      match ← buildUnits units with
      | [only] => return only
      | units => return .sequence units

def buildUnits : List Part → Except Fault (List Expansion)
  | [] => .ok []
  | part :: rest => do
      let first ← buildAnnotated part
      let others ← buildUnits rest
      return first :: others

def buildAnnotated : Part → Except Fault Expansion
  | .node rule start stop text [] =>
      Part.missing (.node rule start stop text []) "expansion unit"
  | .node _ _ _ _ (unit :: rest) => do
      let inner ← buildUnit unit
      match rest with
      | [] => return inner
      | descriptor :: _ => return .annotated inner (← buildDescriptor descriptor)

def buildUnit : Part → Except Fault Expansion
  | .node .localLookahead _ _ text _ => .ok (.lookahead text)
  | .node .action start stop text inner => do
      let part : Part := .node .action start stop text inner
      let (block, _) ← part.next "action block" inner
      return .action block.blockText
  | .node .parenUnit _ _ _ (choices :: rest) => do
      return .group (← buildChoices choices) (buildOccurrence rest)
  | .node .optionalUnit _ _ _ (choices :: _) => do
      return .optional (← buildChoices choices)
  | .node .tryUnit _ _ _ (choices :: rest) => do
      let body ← buildChoices choices
      let (catches, finallyCode) ← buildClauses rest
      return .guarded body catches finallyCode
  | .node .assignedUnit start stop text inner =>
      buildAssigned (.node .assignedUnit start stop text inner) none inner
  | .node .parenUnit start stop text [] =>
      Part.missing (.node .parenUnit start stop text []) "expansion"
  | .node .optionalUnit start stop text [] =>
      Part.missing (.node .optionalUnit start stop text []) "expansion"
  | .node .tryUnit start stop text [] =>
      Part.missing (.node .tryUnit start stop text []) "try body"
  | part => part.unexpected
end

/-- What stands after the header: a descriptor, if there is one, and the remaining parts. -/
def buildOptionalDescriptor : List Part → Except Fault (Option Descriptor × List Part)
  | [] => .ok (none, [])
  | part :: rest =>
      if part.rule = .nodeDescriptor then do
        return (some (← buildDescriptor part), rest)
      else .ok (none, part :: rest)

def buildProduction (part : Part) : Except Fault Production := do
  let (headerPart, rest) ← part.next "production header" part.children
  let header ← headerPart.children.foldlM Header.add {}
  let some name := header.name | headerPart.missing "production name"
  let (descriptor, rest) ← buildOptionalDescriptor rest
  let (block, rest) ← part.next "java block" rest
  let body ←
    if part.rule = .javacodeProduction then pure (.code block.blockText)
    else do
      let (choices, _) ← part.next "expansion" rest
      pure (.rules block.blockText (← buildChoices choices))
  return { name, header := header.written, throws := header.throws, descriptor, body,
           offset := part.start }

def buildItem (part : Part) : Except Fault (Option Item) :=
  match part.rule with
  | .optionsDecl => return some (.options (← part.children.mapM buildEntry))
  | .parserDecl => return some (.parser (← buildParserUnit part))
  | .tokenManagerDecls | .regexprProduction => .ok (some (.verbatim part.text))
  | .bnfProduction | .javacodeProduction => return some (.production (← buildProduction part))
  | .endOfInput => .ok none
  | _ => part.unexpected

def build (name : String) (file : Part) : Except Fault Grammar := do
  let items ← file.children.mapM buildItem
  return { name, items := items.filterMap id }

/-- What to say about the place that no reading of the text gets past. -/
def expectationMessage (expected : List Rule) : String :=
  if Rule.parserDecl ∈ expected then "expected PARSER_BEGIN(...) declaration"
  else if Rule.nodeName ∈ expected then "expected a node name after '#'"
  else
    match Rule.visible.filter (· ∈ expected) with
    | [] => "unexpected input"
    | listed => "expected one of " ++ Text.join ", " (listed.map Rule.label)

def read (name text : String) : Except Fault Grammar :=
  match Format.rules.parse .file text with
  | .ok file => build name file
  | .error furthest =>
      .error (readFault (.malformed (expectationMessage furthest.rules)) ⟨furthest.offset, 0⟩)

end NodeWeave.Grammar
