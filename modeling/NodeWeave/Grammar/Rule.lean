import NodeWeave.Peg.Run

/-! The rules by which a grammar file is read. -/

namespace NodeWeave.Grammar

/-- The named parts of a grammar file. The order is that in which expectations are listed. -/
inductive Rule where
  | endOfInput
  | identifier
  | qualifiedName
  | javaString
  | javaChar
  | javaComment
  | blockPiece
  | blockContent
  | javaBlock
  | parenPiece
  | parenContent
  | anglePiece
  | file
  | optionsDecl
  | optionEntry
  | boolValue
  | intValue
  | stringValue
  | parserDecl
  | parserBody
  | tokenManagerDecls
  | regexprProduction
  | lexicalStates
  | regexprKind
  | javacodeProduction
  | bnfProduction
  | productionHeader
  | accessModifier
  | resultType
  | throwsClause
  | nodeDescriptor
  | nodeName
  | nodeCondition
  | gtCondition
  | conditionText
  | expansionChoices
  | expansionSequence
  | scopedUnit
  | localLookahead
  | action
  | parenUnit
  | occurrence
  | optionalUnit
  | tryUnit
  | catchClause
  | finallyClause
  | assignedUnit
  | lhs
  | nonterminal
  | terminal
  deriving DecidableEq, Repr

namespace Rule

def visible : List Rule :=
  [.endOfInput, .identifier, .qualifiedName, .blockContent, .javaBlock, .parenContent, .file,
    .optionsDecl, .optionEntry, .boolValue, .intValue, .stringValue, .parserDecl, .parserBody,
    .tokenManagerDecls, .regexprProduction, .lexicalStates, .regexprKind, .javacodeProduction,
    .bnfProduction, .productionHeader, .accessModifier, .resultType, .throwsClause,
    .nodeDescriptor, .nodeName, .nodeCondition, .gtCondition, .conditionText, .expansionChoices,
    .expansionSequence, .scopedUnit, .localLookahead, .action, .parenUnit, .occurrence,
    .optionalUnit, .tryUnit, .catchClause, .finallyClause, .assignedUnit, .lhs, .nonterminal,
    .terminal]

def label : Rule → String
  | endOfInput => "EOI"
  | identifier => "identifier"
  | qualifiedName => "qualified_name"
  | javaString => "java_string"
  | javaChar => "java_char"
  | javaComment => "java_comment"
  | blockPiece => "block_piece"
  | blockContent => "block_content"
  | javaBlock => "java_block"
  | parenPiece => "paren_piece"
  | parenContent => "paren_content"
  | anglePiece => "angle_piece"
  | file => "file"
  | optionsDecl => "options_decl"
  | optionEntry => "option_entry"
  | boolValue => "bool_value"
  | intValue => "int_value"
  | stringValue => "string_value"
  | parserDecl => "parser_decl"
  | parserBody => "parser_body"
  | tokenManagerDecls => "token_manager_decls"
  | regexprProduction => "regexpr_production"
  | lexicalStates => "lexical_states"
  | regexprKind => "regexpr_kind"
  | javacodeProduction => "javacode_production"
  | bnfProduction => "bnf_production"
  | productionHeader => "production_header"
  | accessModifier => "access_modifier"
  | resultType => "result_type"
  | throwsClause => "throws_clause"
  | nodeDescriptor => "node_descriptor"
  | nodeName => "node_name"
  | nodeCondition => "node_condition"
  | gtCondition => "gt_condition"
  | conditionText => "condition_text"
  | expansionChoices => "expansion_choices"
  | expansionSequence => "expansion_sequence"
  | scopedUnit => "scoped_unit"
  | localLookahead => "local_lookahead"
  | action => "action"
  | parenUnit => "paren_unit"
  | occurrence => "occurrence"
  | optionalUnit => "optional_unit"
  | tryUnit => "try_unit"
  | catchClause => "catch_clause"
  | finallyClause => "finally_clause"
  | assignedUnit => "assigned_unit"
  | lhs => "lhs"
  | nonterminal => "nonterminal"
  | terminal => "terminal"

end Rule

namespace Format

open Peg Peg.Expr

def anyChar : Expr Rule := .one fun _ => true

def newline : Expr Rule := word "\n" <|> word "\r\n" <|> word "\r"

def comment : Expr Rule :=
  (word "/*" >> .star (butNot (word "*/")) >> word "*/") <|>
    (word "//" >> .star (butNot newline))

def blank : Expr Rule :=
  .star (.one (fun c => c == ' ' || c == '\t' || c == '\r' || c == '\n' || c == '\uFEFF') <|>
    comment)

def isNameStart (c : Char) : Bool := c.isAlpha || c == '_' || c == '$'

def isNameChar (c : Char) : Bool := c.isAlphanum || c == '_' || c == '$'

def nameChar : Expr Rule := .one isNameChar

def digit : Expr Rule := .one Char.isDigit

def keyword (words : Expr Rule) : Expr Rule := words >> .unless nameChar

def separated (item : Expr Rule) (separator : String) : Expr Rule :=
  item >> .star (word separator >> item)

/-- A quoted text in which a backslash takes the next character with it. -/
def quoted (quote : String) (stop : Expr Rule) : Expr Rule :=
  word quote >> .star ((word "\\" >> anyChar) <|> butNot stop) >> word quote

def item : Expr Rule :=
  .rule .tokenManagerDecls <|> .rule .regexprProduction <|> .rule .javacodeProduction <|>
    .rule .bnfProduction

def expansionUnit : Expr Rule :=
  .rule .localLookahead <|> .rule .action <|> .rule .tryUnit <|> .rule .parenUnit <|>
    .rule .optionalUnit <|> .rule .assignedUnit

def angled : Expr Rule :=
  word "<" >> .star (.rule .anglePiece) >> word ">"

def body : Rule → Expr Rule
  | .endOfInput => .finish
  | .identifier => .one isNameStart >> .star nameChar
  | .qualifiedName => separated (.rule .identifier) "."
  | .javaString => quoted "\"" (word "\"" <|> word "\\" <|> newline)
  | .javaChar => quoted "'" (word "'" <|> word "\\")
  | .javaComment => comment
  | .blockPiece =>
      .rule .javaString <|> .rule .javaChar <|> .rule .javaComment <|>
        (word "\x7b" >> .star (.rule .blockPiece) >> word "\x7d") <|>
        butNot (word "\x7b" <|> word "\x7d")
  | .blockContent => .star (.rule .blockPiece)
  | .javaBlock => word "\x7b" >> .rule .blockContent >> word "\x7d"
  | .parenPiece =>
      .rule .javaString <|> .rule .javaChar <|> .rule .javaComment <|>
        (word "(" >> .star (.rule .parenPiece) >> word ")") <|>
        butNot (word "(" <|> word ")")
  | .parenContent => .star (.rule .parenPiece)
  | .anglePiece => .rule .javaString <|> angled <|> butNot (word "<" <|> word ">")
  | .file =>
      .done >> .opt (.rule .optionsDecl) >> .rule .parserDecl >> .star item >> .rule .endOfInput
  | .optionsDecl =>
      word "options" >> word "\x7b" >> .star (.rule .optionEntry) >> word "\x7d"
  | .optionEntry =>
      .rule .identifier >> word "=" >>
        (.rule .boolValue <|> .rule .intValue <|> .rule .stringValue) >> word ";"
  | .boolValue => keyword (word "true" <|> word "false")
  | .intValue => .opt (word "-") >> plus digit
  | .stringValue => .rule .javaString
  | .parserDecl =>
      word "PARSER_BEGIN" >> word "(" >> .rule .identifier >> word ")" >> .rule .parserBody >>
        word "PARSER_END" >> word "(" >> .rule .identifier >> word ")"
  | .parserBody =>
      .star (.unless (word "PARSER_END") >>
        (.rule .javaString <|> .rule .javaChar <|> .rule .javaComment <|> anyChar))
  | .tokenManagerDecls => word "TOKEN_MGR_DECLS" >> word ":" >> .rule .javaBlock
  | .regexprProduction =>
      .opt (.rule .lexicalStates) >> .rule .regexprKind >>
        .opt (word "[" >> word "IGNORE_CASE" >> word "]") >> word ":" >> .rule .javaBlock
  | .lexicalStates =>
      word "<" >> (word "*" <|> separated (.rule .identifier) ",") >> word ">"
  | .regexprKind =>
      keyword (word "SPECIAL_TOKEN" <|> word "TOKEN" <|> word "SKIP" <|> word "MORE")
  | .javacodeProduction =>
      word "JAVACODE" >> .rule .productionHeader >> .opt (.rule .nodeDescriptor) >>
        .rule .javaBlock
  | .bnfProduction =>
      .rule .productionHeader >> .opt (.rule .nodeDescriptor) >> word ":" >> .rule .javaBlock >>
        word "\x7b" >> .rule .expansionChoices >> word "\x7d"
  | .productionHeader =>
      .opt (.rule .accessModifier) >> .rule .resultType >> .rule .identifier >> word "(" >>
        .rule .parenContent >> word ")" >> .opt (.rule .throwsClause)
  | .accessModifier => keyword (word "public" <|> word "protected" <|> word "private")
  | .resultType =>
      .rule .qualifiedName >> .opt angled >> .star (word "[" >> word "]")
  | .throwsClause => word "throws" >> separated (.rule .qualifiedName) ","
  | .nodeDescriptor => word "#" >> .rule .nodeName >> .opt (.rule .nodeCondition)
  | .nodeName => .rule .qualifiedName
  | .nodeCondition =>
      word "(" >> (.rule .gtCondition <|> .rule .conditionText) >> word ")"
  | .gtCondition =>
      .star (.one fun c => c == ' ' || c == '\t') >> word ">" >> .rule .conditionText
  | .conditionText => .star (.rule .parenPiece)
  | .expansionChoices => separated (.rule .expansionSequence) "|"
  | .expansionSequence => .star (.rule .scopedUnit)
  | .scopedUnit => expansionUnit >> .opt (.rule .nodeDescriptor)
  | .localLookahead =>
      word "LOOKAHEAD" >> .star (.one (fun c => c == ' ' || c == '\t') <|> newline) >>
        word "(" >> .star (.rule .parenPiece) >> word ")"
  | .action => .rule .javaBlock
  | .parenUnit =>
      word "(" >> .rule .expansionChoices >> word ")" >> .opt (.rule .occurrence)
  | .occurrence => word "?" <|> word "*" <|> word "+"
  | .optionalUnit => word "[" >> .rule .expansionChoices >> word "]"
  | .tryUnit =>
      word "try" >> word "\x7b" >> .rule .expansionChoices >> word "\x7d" >>
        .star (.rule .catchClause) >> .opt (.rule .finallyClause)
  | .catchClause =>
      word "catch" >> word "(" >> .rule .parenContent >> word ")" >> .rule .javaBlock
  | .finallyClause => word "finally" >> .rule .javaBlock
  | .assignedUnit =>
      .opt (.rule .lhs >> word "=") >> (.rule .terminal <|> .rule .nonterminal)
  | .lhs =>
      .rule .qualifiedName >> .star (word "[" >> .star (butNot (word "]")) >> word "]")
  | .nonterminal => .rule .identifier >> word "(" >> .rule .parenContent >> word ")"
  | .terminal => .rule .javaString <|> angled

def kind : Rule → Kind
  | .javaString | .javaChar | .javaComment | .blockPiece | .parenPiece | .anglePiece => .silent
  | .identifier | .qualifiedName | .blockContent | .parenContent | .boolValue | .intValue
  | .stringValue | .parserBody | .regexprKind | .accessModifier | .resultType | .nodeName
  | .conditionText | .localLookahead | .occurrence | .lhs | .terminal => .token
  | .javaBlock | .nodeDescriptor | .nodeCondition | .gtCondition => .compact
  | _ => .normal

def rules : Rules Rule := { body, kind, blank }

end Format

end NodeWeave.Grammar
