import AspectProxy.Decimal
import AspectProxy.Text.Quoted

/-!
What is wrong with a text that is not JSON, or not JSON of the shape asked for, and where. A place is a line,
from 1, and a column that counts bytes: that of the byte at fault, or of the last one where the text ends too
early.
-/

namespace AspectProxy.Json

/-- What stands where something else was asked for. -/
inductive Found where
  | null
  | bool (b : Bool)
  | integer (n : Int)
  | float (x : Float)
  | text (s : String)
  | array
  | object
  deriving DecidableEq

def Found.description : Found → String
  | null => "null"
  | bool b => "boolean `" ++ (if b then "true" else "false") ++ "`"
  | integer n => "integer `" ++ toString n ++ "`"
  | float x => "floating point `" ++ FloatStyle.json.text x ++ "`"
  | text s => "string " ++ visiblyQuoted s
  | array => "sequence"
  | object => "map"

inductive Flaw where
  | endInArray | endInObject | endInString | endInValue
  | noArrayEnd | noObjectEnd | noColon | noLiteral | noValue
  | trailingComma | nameNotString
  | invalidEscape | loneSurrogate | halfPair | controlCharacter
  | invalidNumber | numberTooGreat
  | tooDeep | trailingText
  | wrongKind (found : Found) (wanted : String)
  | wrongValue (found : Found) (wanted : String)
  | unknownChoice (name : String) (choices : List String)
  | repeatedField (name : String)
  deriving DecidableEq

/-- The names of what could have been chosen. -/
def choiceText : List String → String
  | [] => "there are no variants"
  | [a] => "`" ++ a ++ "`"
  | [a, b] => "`" ++ a ++ "` or `" ++ b ++ "`"
  | choices => "one of " ++ ", ".intercalate (choices.map fun c => "`" ++ c ++ "`")

def Flaw.message : Flaw → String
  | endInArray => "EOF while parsing a list"
  | endInObject => "EOF while parsing an object"
  | endInString => "EOF while parsing a string"
  | endInValue => "EOF while parsing a value"
  | noArrayEnd => "expected `,` or `]`"
  | noObjectEnd => "expected `,` or `\x7d`"
  | noColon => "expected `:`"
  | noLiteral => "expected ident"
  | noValue => "expected value"
  | trailingComma => "trailing comma"
  | nameNotString => "key must be a string"
  | invalidEscape => "invalid escape"
  | loneSurrogate => "lone leading surrogate in hex escape"
  | halfPair => "unexpected end of hex escape"
  | controlCharacter => "control character (\\u0000-\\u001F) found while parsing a string"
  | invalidNumber => "invalid number"
  | numberTooGreat => "number out of range"
  | tooDeep => "recursion limit exceeded"
  | trailingText => "trailing characters"
  | wrongKind found wanted => "invalid type: " ++ found.description ++ ", expected " ++ wanted
  | wrongValue found wanted => "invalid value: " ++ found.description ++ ", expected " ++ wanted
  | unknownChoice name choices =>
    "unknown variant `" ++ name ++ "`, expected " ++ choiceText choices
  | repeatedField name => "duplicate field `" ++ name ++ "`"

structure TextFlaw where
  line : Nat
  column : Nat
  flaw : Flaw
  deriving DecidableEq

namespace TextFlaw

/-- The line and column behind some bytes of a text. -/
def placeAfter : (bytes line column : Nat) → List Char → Nat × Nat
  | _, line, column, [] => (line, column)
  | bytes, line, column, c :: cs =>
    if bytes = 0 then (line, column)
    else if c = '\n' then placeAfter (bytes - 1) (line + 1) 0 cs
    else placeAfter (bytes - c.utf8Size) line (column + min bytes c.utf8Size) cs

/-- A flaw behind which some bytes of the text are left. -/
def of (text : String) (flaw : Flaw) (left : Nat) : TextFlaw :=
  let (line, column) := placeAfter (text.utf8ByteSize - left) 1 0 text.toList
  ⟨line, column, flaw⟩

def message (f : TextFlaw) : String :=
  f.flaw.message ++ " at line " ++ toString f.line ++ " column " ++ toString f.column

end TextFlaw

end AspectProxy.Json
