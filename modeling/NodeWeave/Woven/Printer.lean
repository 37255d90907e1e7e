import NodeWeave.Woven.Basic
import NodeWeave.Woven.ParserSupport

/-! The text of a woven grammar. -/

namespace NodeWeave

open Grammar

namespace Guard

/-- A body between the start of its guard and the handlers. The start of the guard ends a generated
region, and the handlers begin one. -/
def around (guard : Guard) (level : Nat) (body : List Piece) : List Piece :=
  .line level "try \x7b" :: .regionStop level :: body ++
    [.regionStart level none,
      .line level ("\x7d catch (Throwable " ++ guard.exception ++ ") \x7b")] ++
    Statement.piecesAll (level + 1) guard.handler ++
    [.line level "\x7d finally \x7b"] ++
    Statement.piecesAll (level + 1) guard.cleanup ++
    [.line level "\x7d"]

end Guard

namespace Woven

/-- The catch and finally clauses behind the brace of a guarded unit. -/
def clausesText (catches : List CatchClause) (finallyCode : Option String) : String :=
  let caught := catches.map fun c => " catch (" ++ c.parameter ++ ") \x7b" ++ c.body ++ "\x7d"
  let cleaned :=
    match finallyCode with
    | some code => " finally \x7b" ++ code ++ "\x7d"
    | none => ""
  "\x7d" ++ String.join caught ++ cleaned

mutual
def pieces (level : Nat) : Woven → List Piece
  | element text => [.line level text]
  | action code => [.line level ("\x7b" ++ code ++ "\x7d")]
  | earlyClose statements =>
      .regionStart level none ::
        Piece.block level "" (Statement.piecesAll (level + 1) statements) ++
        [.regionStop level]
  | sequence units => piecesAll level units
  | choice alternatives => alternativePieces level alternatives
  | group inner occurrence =>
      .line level "(" :: pieces (level + 1) inner ++
        [.line level (")" ++ (occurrence.map Occurrence.symbol).getD "")]
  | optional inner => .line level "[" :: pieces (level + 1) inner ++ [.line level "]"]
  | guarded inner catches finallyCode =>
      .line level "try \x7b" :: pieces (level + 1) inner ++
        [.line level (clausesText catches finallyCode)]
  | scope label opening body guard =>
      .regionStart level (some label) ::
        Piece.block level "" (Statement.piecesAll (level + 1) opening) ++
        guard.around level (pieces (level + 1) body) ++
        [.regionStop level]

def piecesAll (level : Nat) : List Woven → List Piece
  | [] => []
  | unit :: rest => pieces level unit ++ piecesAll level rest

def alternativePieces (level : Nat) : List Woven → List Piece
  | [] => []
  | [last] => pieces level last
  | alternative :: rest =>
      pieces level alternative ++ .line level "|" :: alternativePieces level rest
end

end Woven

namespace WovenProduction

def pieces : WovenProduction → List Piece
  | rules header declarations body =>
      [.line 0 (header ++ " :"), .raw ("\x7b" ++ declarations ++ "\x7d\n"), .line 0 "\x7b"] ++
        body.pieces 1 ++ [.line 0 "\x7d"]
  | scopedRules header nodeName opening declarations body guard =>
      [.line 0 (header ++ " :"), .raw "\x7b", .regionStart 0 (some nodeName)] ++
        Statement.piecesAll 1 opening ++
        [.regionStop 0, .raw (declarations ++ "\x7d\n"), .raw "\x7b",
          .regionStart 0 (some nodeName)] ++
        guard.around 1 (body.pieces 2) ++
        [.regionStop 0, .line 0 "\x7d"]
  | code header text => [.line 0 "JAVACODE", .raw (header ++ " \x7b" ++ text ++ "\x7d\n")]
  | scopedCode header nodeName opening text guard =>
      [.line 0 "JAVACODE", .raw (header ++ " \x7b"), .regionStart 0 (some nodeName)] ++
        Statement.piecesAll 1 opening ++
        guard.around 1 [.raw (text ++ "\n")] ++
        [.regionStop 0, .line 0 "\x7d"]

end WovenProduction

namespace WovenItem

def pieces : WovenItem → List Piece
  | options entries =>
      Piece.block 0 "options" (entries.map fun entry =>
        .line 1 (entry.key ++ " = " ++ entry.value.written ++ ";"))
  | parser name body =>
      [.line 0 ("PARSER_BEGIN(" ++ name ++ ")"), .raw (body ++ "\n"),
        .line 0 ("PARSER_END(" ++ name ++ ")")]
  | verbatim text => [.raw (text ++ "\n")]
  | production p => p.pieces

def piecesAll : List WovenItem → List Piece
  | [] => []
  | [last] => last.pieces
  | item :: rest => item.pieces ++ .line 0 "" :: piecesAll rest

end WovenItem

namespace Grammar

def weaveItem (g : Grammar) (style : ScopeStyle) : Item → WovenItem
  | .options entries => .options (entries.filter fun entry => !isNodeOption entry.key)
  | .parser unit =>
      .parser unit.name (ParserSupport.add unit.body unit.name style.parserImports
        style.parserInterfaces style.parserDeclarations)
  | .verbatim text => .verbatim text
  | .production p => .production (g.weaveProduction style p)

def weaveItems (g : Grammar) (style : ScopeStyle) : List WovenItem :=
  g.items.map (g.weaveItem style)

def wovenPieces (g : Grammar) (style : ScopeStyle) : List Piece :=
  WovenItem.piecesAll (g.weaveItems style)

def weave (g : Grammar) (options : NodeOptions) (switches : Switches) : String :=
  Piece.render (g.wovenPieces ⟨options, switches⟩)

end Grammar

end NodeWeave
