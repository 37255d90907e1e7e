/-! What can be wrong with a text in YAML, or with a value where another kind of value is needed. -/

namespace NodeWeave.Yaml

inductive Problem where
  | controlCharacter
  | unexpectedCharacter
  | unclosedQuotes
  | badEscape
  | tabAsIndentation
  /-- A key that has to be one is not followed by a colon on its line. -/
  | missingColon
  | misplaced (indicator : String)
  | badAnchor
  | badTag
  | badDirective
  | badBlockHeader
  | expected (what : String)
  | unknownAnchor
  | severalDocuments
  | tooDeep
  | tooManyAliases
  | duplicateKey
  | wideInteger
  | emptyTag
  | wrongType (wanted : String)
  deriving DecidableEq, Repr

def Problem.message : Problem → String
  | controlCharacter => "control characters are not allowed"
  | unexpectedCharacter => "found character that cannot start any token"
  | unclosedQuotes => "found unexpected end while reading quotes"
  | badEscape => "found unknown escape character"
  | tabAsIndentation => "found a tab character that violates indentation"
  | missingColon => "could not find expected ':'"
  | misplaced indicator => indicator ++ " is not allowed in this context"
  | badAnchor => "did not find expected name of an anchor"
  | badTag => "did not find expected tag"
  | badDirective => "did not find expected directive"
  | badBlockHeader => "did not find expected comment or line break"
  | expected what => "did not find expected " ++ what
  | unknownAnchor => "unknown anchor"
  | severalDocuments => "more than one document"
  | tooDeep => "recursion limit exceeded"
  | tooManyAliases => "repetition limit exceeded"
  | duplicateKey => "duplicate entry"
  | wideInteger => "integer out of range"
  | emptyTag => "empty tag is not allowed"
  | wrongType wanted => "invalid type, expected " ++ wanted

end NodeWeave.Yaml
