import AspectProxy.Decimal

/-!
Tokens of Weave source text, the places they stand at, and the faults that reading can report.
Reserved words are names here; only the grammar tells them apart.
-/

namespace AspectProxy

/-- A place in a text. Lines and columns count from one; a column is one character. -/
structure Position where
  line : Nat
  column : Nat
  deriving DecidableEq, Repr

namespace Position

def start : Position := ⟨1, 1⟩

/-- The place after a character: a line feed starts a new line. -/
def next (p : Position) (c : Char) : Position :=
  if c = '\n' then ⟨p.line + 1, 1⟩ else ⟨p.line, p.column + 1⟩

/-- The place after a text. -/
def after (p : Position) (text : List Char) : Position :=
  text.foldl next p

end Position

/-- Marks and operators. -/
inductive Symbol where
  | doubleColon | arrow | doubleEqual | bangEqual | lessEqual | greaterEqual | doubleAnd | doubleBar
  | openBrace | closeBrace | openParen | closeParen | openBracket | closeBracket
  | semicolon | comma | dot | colon | equal | less | greater
  | plus | minus | star | slash | percent | bang | question
  deriving DecidableEq, Repr

namespace Symbol

def chars : Symbol → List Char
  | doubleColon => [':', ':']
  | arrow => ['-', '>']
  | doubleEqual => ['=', '=']
  | bangEqual => ['!', '=']
  | lessEqual => ['<', '=']
  | greaterEqual => ['>', '=']
  | doubleAnd => ['&', '&']
  | doubleBar => ['|', '|']
  | openBrace => ['{']
  | closeBrace => ['}']
  | openParen => ['(']
  | closeParen => [')']
  | openBracket => ['[']
  | closeBracket => [']']
  | semicolon => [';']
  | comma => [',']
  | dot => ['.']
  | colon => [':']
  | equal => ['=']
  | less => ['<']
  | greater => ['>']
  | plus => ['+']
  | minus => ['-']
  | star => ['*']
  | slash => ['/']
  | percent => ['%']
  | bang => ['!']
  | question => ['?']

def text (s : Symbol) : String :=
  String.ofList s.chars

/-- Every symbol; those of two characters stand before those of one, so the first that matches is
the longest. -/
def all : List Symbol :=
  [doubleColon, arrow, doubleEqual, bangEqual, lessEqual, greaterEqual, doubleAnd, doubleBar,
   openBrace, closeBrace, openParen, closeParen, openBracket, closeBracket,
   semicolon, comma, dot, colon, equal, less, greater,
   plus, minus, star, slash, percent, bang, question]

end Symbol

inductive Token where
  | name (text : String)
  | int (value : Int64)
  | float (value : Float)
  | str (value : String)
  | symbol (s : Symbol)
  deriving DecidableEq

/-- A token with the place of its first character. -/
structure Located where
  token : Token
  position : Position
  deriving DecidableEq

/-- A token sequence with the place where the text ends. -/
structure TokenStream where
  items : List Located
  stop : Position
  deriving DecidableEq

namespace TokenStream

/-- The next token, if any is left. -/
def head? (ts : TokenStream) : Option Token :=
  ts.items.head?.map (·.token)

/-- Where the next token stands; the end of the text if none is left. -/
def position (ts : TokenStream) : Position :=
  (ts.items.head?.map (·.position)).getD ts.stop

/-- Everything after the next token. -/
def tail (ts : TokenStream) : TokenStream :=
  ⟨ts.items.tail, ts.stop⟩

end TokenStream

/-- What a reader of tokens was looking for. -/
inductive Expectation where
  | symbol (s : Symbol)
  | word (w : String)
  | identifier
  | expression
  | declaration
  | member
  | mapKey
  deriving DecidableEq, Repr

/-- Why a text is not Weave source. -/
inductive Fault where
  | unterminatedComment
  | malformedString
  | numberOutOfRange
  | unexpectedCharacter (c : Char)
  | expected (what : Expectation) (found : Option Token)
  | duplicateParameter (name : String)
  | invalidTarget
  deriving DecidableEq

/-- A fault and the place it is seen at. -/
structure SourceFault where
  position : Position
  fault : Fault
  deriving DecidableEq

def Expectation.text : Expectation → String
  | symbol s => "'" ++ s.text ++ "'"
  | word w => "'" ++ w ++ "'"
  | identifier => "identifier"
  | expression => "expression"
  | declaration => "class or trait declaration"
  | member => "'let' or 'fn'"
  | mapKey => "string map key"

/-- How a message names a token that was found. -/
def Token.description : Token → String
  | name n => "'" ++ n ++ "'"
  | int n => "'" ++ toString n.toInt ++ "'"
  | float x => "'" ++ FloatStyle.plain.text x ++ "'"
  | str _ => "string literal"
  | symbol s => "'" ++ s.text ++ "'"

def Fault.message : Fault → String
  | unterminatedComment => "unterminated block comment"
  | malformedString => "unterminated or malformed string literal"
  | numberOutOfRange => "numeric literal out of range"
  | unexpectedCharacter c => "unexpected character '" ++ String.singleton c ++ "'"
  | expected what found =>
    "expected " ++ what.text ++ ", found " ++ (found.map Token.description).getD "end of input"
  | duplicateParameter n => "duplicate parameter '" ++ n ++ "'"
  | invalidTarget => "invalid assignment target"

/-- The fault with its place in front. -/
def SourceFault.text (f : SourceFault) : String :=
  "line " ++ toString f.position.line ++ ", column " ++ toString f.position.column ++ ": " ++ f.fault.message

end AspectProxy
