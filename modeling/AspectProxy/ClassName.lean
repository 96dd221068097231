import AspectProxy.Text.WhiteSpace
import AspectProxy.Token.Lexer

/-!
Names of classes: identifiers joined by dots, the last being the short name and those before it the
package. Names that differ only in case name the same class.
-/

namespace AspectProxy

/-- A text with its ASCII letters in lower case. -/
def asciiLower (s : String) : String :=
  String.ofList (s.toList.map Char.toLower)

/-- The parts of a text between its dots. -/
def dotSegments : List Char → List (List Char)
  | [] => [[]]
  | '.' :: cs => [] :: dotSegments cs
  | c :: cs =>
    match dotSegments cs with
    | [] => [[c]]
    | segment :: rest => (c :: segment) :: rest

/-- Whether a text is identifiers joined by dots. -/
def isDottedName (cs : List Char) : Bool :=
  (dotSegments cs).all isIdentifier

/-- What stands behind the last dot of a text, or the whole text. -/
def afterLastDot (s : String) : String :=
  String.ofList (s.toList.reverse.takeWhile (· ≠ '.')).reverse

/-- What stands before the last dot of a text. -/
def beforeLastDot? (s : String) : Option String :=
  match s.toList.reverse.dropWhile (· ≠ '.') with
  | [] => none
  | _ :: rest => some (String.ofList rest.reverse)

/-- The name of a class in the spelling it was given. -/
structure ClassName where
  text : String
  valid : isDottedName text.toList = true

/-- A text that names no class. -/
structure InvalidClassName where
  text : String
  deriving DecidableEq, Repr

def InvalidClassName.message (e : InvalidClassName) : String :=
  "Invalid class name: '" ++ e.text ++ "'"

namespace ClassName

/-- The name that a text holds between white space. -/
def parse (s : String) : Except InvalidClassName ClassName :=
  let trimmed := String.ofList (trimWhiteSpace s.toList)
  if h : isDottedName trimmed.toList = true then .ok ⟨trimmed, h⟩ else .error ⟨s⟩

/-- What names are compared by. -/
def key (c : ClassName) : String :=
  asciiLower c.text

/-- Names of the same class. -/
instance : BEq ClassName := ⟨fun a b => a.key == b.key⟩

def short (c : ClassName) : String :=
  afterLastDot c.text

def package? (c : ClassName) : Option String :=
  beforeLastDot? c.text

def segments (c : ClassName) : List String :=
  (dotSegments c.text.toList).map String.ofList

/-- The name of a class with a short name in a package, if there is one. -/
def qualify (package : Option String) (short : String) : Except InvalidClassName ClassName :=
  match package with
  | some p => if p = "" then parse short else parse (p ++ "." ++ short)
  | none => parse short

end ClassName

end AspectProxy
