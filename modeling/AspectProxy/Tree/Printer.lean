import AspectProxy.Tree
import AspectProxy.Token.Lexer

/-!
Writing trees as source text. A tree is laid out as a list of pieces, each a word, a number, a quoted
string, a symbol or blank space, and the text is the pieces one behind the other. An operand stands
in parentheses when it binds looser than its place asks.
-/

namespace AspectProxy

/-- A piece of printed text. -/
inductive Piece where
  | word (s : String)
  | number (s : String)
  | quoted (s : String)
  | symbol (s : Symbol)
  | space (width : Nat)
  | newline
  deriving DecidableEq, Repr

/-- A character as it stands in a string literal. -/
def escapeChar (c : Char) : List Char :=
  match c with
  | '"' => ['\\', '"']
  | '\\' => ['\\', '\\']
  | '\n' => ['\\', 'n']
  | '\r' => ['\\', 'r']
  | '\t' => ['\\', 't']
  | c => [c]

/-- A string literal. -/
def quotedText (s : String) : List Char :=
  '"' :: s.toList.flatMap escapeChar ++ ['"']

namespace Piece

def chars : Piece → List Char
  | word s => s.toList
  | number s => s.toList
  | quoted s => quotedText s
  | symbol s => s.chars
  | space width => List.replicate width ' '
  | newline => ['\n']

/-- The text of some pieces. -/
def textOf (ps : List Piece) : String :=
  String.ofList (ps.flatMap chars)

/-- Pieces in parentheses, if asked for. -/
def grouped (parentheses : Bool) (ps : List Piece) : List Piece :=
  if parentheses then symbol .openParen :: ps ++ [symbol .closeParen] else ps

end Piece

open Piece

def TypeRef.pieces (t : TypeRef) : List Piece :=
  word t.name :: if t.nullable then [symbol .question] else []

def TypeRef.colonPieces : Option TypeRef → List Piece
  | none => []
  | some t => symbol .colon :: space 1 :: t.pieces

namespace Expr

def unaryLevel : Nat := 7

def postfixLevel : Nat := 8

/-- How tightly an expression binds. A negative number reads as a minus and a number. -/
def level : Expr → Nat
  | .binary op _ _ => op.level
  | .unary _ _ => unaryLevel
  | .int n => if n < 0 then unaryLevel else postfixLevel
  | .float x => if FloatStyle.isNegative x then unaryLevel else postfixLevel
  | _ => postfixLevel

/-- The pieces of an expression where one that binds as tightly as `least` may stand. -/
def within (least : Nat) (e : Expr) (pieces : List Piece) : List Piece :=
  grouped (e.level < least) pieces

mutual

def pieces : Expr → List Piece
  | .int n => [number (toString n.toInt)]
  | .float x => [number (FloatStyle.source.text x)]
  | .str s => [quoted s]
  | .bool b => [word (if b then "true" else "false")]
  | .null => [word "null"]
  | .var name => [word name]
  | .self => [word "self"]
  | .list items => symbol .openBracket :: listPieces items ++ [symbol .closeBracket]
  | .map entries => symbol .openBrace :: entryPieces entries ++ [symbol .closeBrace]
  | .binary op left right =>
    within op.level left left.pieces ++
      [space 1, symbol op.symbol, space 1] ++
      within (op.level + 1) right right.pieces
  | .unary op operand => symbol op.symbol :: within unaryLevel operand operand.pieces
  | .property object name =>
    within postfixLevel object object.pieces ++ [symbol .dot, word name]
  | .index object key =>
    within postfixLevel object object.pieces ++
      symbol .openBracket :: key.pieces ++ [symbol .closeBracket]
  | .call object method args =>
    within postfixLevel object object.pieces ++
      [symbol .dot, word method, symbol .openParen] ++ listPieces args ++ [symbol .closeParen]
  | .superCall method args =>
    [word "super", symbol .dot, word method, symbol .openParen] ++
      listPieces args ++ [symbol .closeParen]
  | .staticCall className method args =>
    [word className, symbol .doubleColon, word method, symbol .openParen] ++
      listPieces args ++ [symbol .closeParen]
  | .functionCall name args =>
    [word name, symbol .openParen] ++ listPieces args ++ [symbol .closeParen]
  | .create className args =>
    [word "new", space 1, word className, symbol .openParen] ++
      listPieces args ++ [symbol .closeParen]

/-- Expressions with commas between them. -/
def listPieces : List Expr → List Piece
  | [] => []
  | [e] => e.pieces
  | e :: es => e.pieces ++ [symbol .comma, space 1] ++ listPieces es

/-- The entries of a map literal with commas between them. -/
def entryPieces : List (String × Expr) → List Piece
  | [] => []
  | [(k, e)] => [quoted k, symbol .colon, space 1] ++ e.pieces
  | (k, e) :: es =>
    [quoted k, symbol .colon, space 1] ++ e.pieces ++ [symbol .comma, space 1] ++ entryPieces es

end

def text (e : Expr) : String :=
  textOf e.pieces

end Expr

/-- A default value, if there is one. -/
def Expr.defaultPieces : Option Expr → List Piece
  | none => []
  | some e => [space 1, symbol .equal, space 1] ++ e.pieces

namespace Statement

def isCond : Statement → Bool
  | .cond .. => true
  | _ => false

/-- The words in front of a block. -/
def condHead (condition : Expr) : List Piece :=
  [word "if", space 1, symbol .openParen] ++ condition.pieces ++ [symbol .closeParen, space 1]

def whileHead (condition : Expr) : List Piece :=
  [word "while", space 1, symbol .openParen] ++ condition.pieces ++ [symbol .closeParen, space 1]

def forHead (name : String) (iterable : Expr) : List Piece :=
  [word "for", space 1, symbol .openParen, word name, space 1, word "in", space 1] ++
    iterable.pieces ++ [symbol .closeParen, space 1]

/-- Lines of a block between braces, the closing brace at indentation `depth`. -/
def braces (width depth : Nat) (lines : List Piece) : List Piece :=
  symbol .openBrace :: newline :: lines ++ [space (width * depth), symbol .closeBrace]

mutual

/-- A statement without indentation in front and line end behind; its blocks are indented from
`depth` by `width` spaces a level. -/
def pieces (width depth : Nat) : Statement → List Piece
  | .declare name type value =>
    [word "let", space 1, word name] ++ TypeRef.colonPieces type ++
      [space 1, symbol .equal, space 1] ++ value.pieces ++ [symbol .semicolon]
  | .assign target value =>
    target.toExpr.pieces ++ [space 1, symbol .equal, space 1] ++ value.pieces ++
      [symbol .semicolon]
  | .expr e => e.pieces ++ [symbol .semicolon]
  | .return none => [word "return", symbol .semicolon]
  | .return (some e) => [word "return", space 1] ++ e.pieces ++ [symbol .semicolon]
  | .cond condition thenBranch none =>
    condHead condition ++ braces width depth (lines width (depth + 1) thenBranch)
  | .cond condition thenBranch (some elseBranch) =>
    condHead condition ++ braces width depth (lines width (depth + 1) thenBranch) ++
      [space 1, word "else", space 1] ++ elsePieces width depth elseBranch
  | .while condition body => whileHead condition ++ braces width depth (lines width (depth + 1) body)
  | .for name iterable body =>
    forHead name iterable ++ braces width depth (lines width (depth + 1) body)
  | .break => [word "break", symbol .semicolon]
  | .continue => [word "continue", symbol .semicolon]

/-- Statements on lines of their own. -/
def lines (width depth : Nat) : List Statement → List Piece
  | [] => []
  | s :: rest => space (width * depth) :: pieces width depth s ++ newline :: lines width depth rest

/-- What stands behind `else`: a single condition follows directly, all else in braces. -/
def elsePieces (width depth : Nat) : List Statement → List Piece
  | [] => braces width depth []
  | s :: rest =>
    if s.isCond && rest.isEmpty then pieces width depth s
    else braces width depth
      (space (width * (depth + 1)) :: pieces width (depth + 1) s ++
        newline :: lines width (depth + 1) rest)

end

/-- The text of a statement with four spaces of indentation a level. -/
def text (s : Statement) : String :=
  textOf (s.pieces 4 0)

end Statement

/-- Modifiers with a space behind each. -/
def Modifiers.pieces (m : Modifiers) : List Piece :=
  [word m.visibility.keyword, space 1] ++
    (if m.isStatic then [word "static", space 1] else []) ++
    (if m.isFinal then [word "final", space 1] else [])

def Parameter.pieces (p : Parameter) : List Piece :=
  word p.name :: TypeRef.colonPieces p.type ++ Expr.defaultPieces p.default

/-- Lists of pieces with commas between them. -/
def Piece.commaJoin : List (List Piece) → List Piece
  | [] => []
  | [ps] => ps
  | ps :: rest => ps ++ [symbol .comma, space 1] ++ commaJoin rest

/-- Lists of pieces with blank lines between them. -/
def Piece.lineJoin : List (List Piece) → List Piece
  | [] => []
  | [ps] => ps
  | ps :: rest => ps ++ newline :: lineJoin rest

/-- A method without indentation in front, with its line end. -/
def Method.pieces (width depth : Nat) (m : Method) : List Piece :=
  let result := match m.returnType with
    | none => []
    | some t => [space 1, symbol .arrow, space 1] ++ t.pieces
  m.modifiers.pieces ++ [word "fn", space 1, word m.name, symbol .openParen] ++
    commaJoin (m.parameters.map Parameter.pieces) ++ symbol .closeParen :: result ++
    space 1 :: Statement.braces width depth (Statement.lines width (depth + 1) m.body) ++ [newline]

def Property.pieces (p : Property) : List Piece :=
  p.modifiers.pieces ++ [word "let", space 1, word p.name] ++ TypeRef.colonPieces p.type ++
    Expr.defaultPieces p.default ++ [symbol .semicolon, newline]

/-- A member one level deep, with its line end. -/
def Member.pieces (width : Nat) : Member → List Piece
  | .property p => space width :: p.pieces
  | .method m => space width :: m.pieces width 1

def Declaration.head : Declaration → List Piece
  | .class c =>
    (if c.isFinal then [word "final", space 1] else []) ++ [word "class", space 1, word c.name] ++
      match c.parent with
      | none => []
      | some p => [space 1, word "extends", space 1, word p]
  | .trait t => [word "trait", space 1, word t.name]

def Declaration.pieces (width : Nat) (d : Declaration) : List Piece :=
  d.head ++ [space 1, symbol .openBrace, newline] ++
    lineJoin (d.members.map (Member.pieces width)) ++ [symbol .closeBrace, newline]

/-- An import without its line end. -/
def Import.pieces (i : Import) : List Piece :=
  [word "import", space 1, word i.path] ++
    (match i.localName with
      | none => []
      | some a => [space 1, word "as", space 1, word a]) ++ [symbol .semicolon]

namespace SourceUnit

def packagePieces (u : SourceUnit) : List Piece :=
  match u.package with
  | none => []
  | some p => [word "package", space 1, word p, symbol .semicolon, newline, newline]

def importPieces (u : SourceUnit) : List Piece :=
  u.imports.flatMap (fun i => i.pieces ++ [newline]) ++
    if u.imports.isEmpty then [] else [newline]

def pieces (width : Nat) (u : SourceUnit) : List Piece :=
  u.packagePieces ++ u.importPieces ++ lineJoin (u.declarations.map (Declaration.pieces width))

/-- The text of a unit with `width` spaces of indentation a level. -/
def print (width : Nat) (u : SourceUnit) : String :=
  textOf (u.pieces width)

/-- The text of a unit with four spaces of indentation a level. -/
def text (u : SourceUnit) : String :=
  u.print 4

end SourceUnit

def TypeRef.text (t : TypeRef) : String :=
  textOf t.pieces

def Import.text (i : Import) : String :=
  textOf i.pieces

def Modifiers.text (m : Modifiers) : String :=
  textOf m.pieces

def Parameter.text (p : Parameter) : String :=
  textOf p.pieces

/-- The text of a method with four spaces of indentation a level, with its line end. -/
def Method.text (m : Method) : String :=
  textOf (m.pieces 4 0)

/-- A way to write units. -/
structure Printer where
  name : String
  print : SourceUnit → String

/-- The printer of this library. -/
def Printer.standard (width : Nat) : Printer :=
  ⟨"standard", SourceUnit.print width⟩

end AspectProxy
