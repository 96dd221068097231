import AspectProxy.Token

/-!
Reading source text as tokens. `Scan.ofChars` looks at what stands at the front of a text: a piece
of blank space, a token, or a fault, with its length. `TokenStream.ofChars?` goes through the text once; it
counts down the characters of the piece at hand and scans where the count is used up.
-/

namespace AspectProxy

/-- Space, tab, carriage return and line feed. -/
def isBlank (c : Char) : Bool :=
  c = ' ' || c = '\t' || c = '\r' || c = '\n'

/-- An ASCII letter or an underscore. -/
def isNameStart (c : Char) : Bool :=
  c.isAlpha || c = '_'

/-- An ASCII letter, an ASCII digit or an underscore. -/
def isNamePart (c : Char) : Bool :=
  c.isAlphanum || c = '_'

/-- Whether a text is a name: a name start and name parts after it. -/
def isIdentifier : List Char → Bool
  | [] => false
  | c :: cs => isNameStart c && cs.all isNamePart

namespace Scan

/-- The length of the line comment whose two slashes were read before `cs`. It ends before a line
feed or a carriage return and line feed; a carriage return alone makes it no comment. -/
def lineComment (cs : List Char) : Option Nat :=
  let body := cs.takeWhile fun c => c ≠ '\n' && c ≠ '\r'
  match cs.drop body.length with
  | '\r' :: '\n' :: _ => some (body.length + 2)
  | '\r' :: _ => none
  | _ => some (body.length + 2)

/-- The length of the text up to and with the first `*/`. -/
def blockCommentEnd : List Char → Option Nat
  | '*' :: '/' :: _ => some 2
  | _ :: cs => (blockCommentEnd cs).map (· + 1)
  | [] => none

/-- A string literal after its opening quote: its value, and its length with the closing quote. -/
def stringRest : List Char → Option (List Char × Nat)
  | [] => none
  | '"' :: _ => some ([], 1)
  | '\\' :: '"' :: cs => (stringRest cs).map fun (s, n) => ('"' :: s, n + 2)
  | '\\' :: '\\' :: cs => (stringRest cs).map fun (s, n) => ('\\' :: s, n + 2)
  | '\\' :: 'n' :: cs => (stringRest cs).map fun (s, n) => ('\n' :: s, n + 2)
  | '\\' :: 'r' :: cs => (stringRest cs).map fun (s, n) => ('\r' :: s, n + 2)
  | '\\' :: 't' :: cs => (stringRest cs).map fun (s, n) => ('\t' :: s, n + 2)
  | '\\' :: _ => none
  | c :: cs => (stringRest cs).map fun (s, n) => (c :: s, n + 1)

/-- The digits of a fraction, if a point and a digit stand here. -/
def fraction : List Char → Option (List Char)
  | '.' :: cs =>
    match cs.takeWhile Char.isDigit with
    | [] => none
    | ds => some ds
  | _ => none

/-- A power of ten, if one stands here, and its length. -/
def power : List Char → Option (Int × Nat)
  | c :: cs =>
    if c = 'e' || c = 'E' then
      let (negative, signLength, cs) :=
        match cs with
        | '-' :: cs => (true, 1, cs)
        | '+' :: cs => (false, 1, cs)
        | cs => (false, 0, cs)
      match cs.takeWhile Char.isDigit with
      | [] => none
      | ds =>
        let n : Int := digitsValue ds
        some (if negative then -n else n, 1 + signLength + ds.length)
    else none
  | [] => none

end Scan

/-- What stands at the front of a text, with the number of its characters. -/
inductive Scan where
  | blank (length : Nat)
  | token (t : Token) (length : Nat)
  | fault (f : Fault)

namespace Scan

/-- A number: an integer unless it has a fraction or a power of ten. -/
def number (cs : List Char) : Scan :=
  let whole := cs.takeWhile Char.isDigit
  let rest := cs.drop whole.length
  let (decimals, dotted) :=
    match fraction rest with
    | some ds => (ds, ds.length + 1)
    | none => ([], 0)
  match power (rest.drop dotted) with
  | some (p, length) =>
    .token (.float (Decimal.ofParts whole decimals p).toFloat) (whole.length + dotted + length)
  | none =>
    if dotted ≠ 0 then
      .token (.float (Decimal.ofParts whole decimals 0).toFloat) (whole.length + dotted)
    else
      let n := digitsValue whole
      if n < Nat.pow 2 63 then .token (.int (Int64.ofNat n)) whole.length
      else .fault .numberOutOfRange

/-- A token that is neither blank space nor a comment. -/
def lexeme (cs : List Char) : Scan :=
  match cs with
  | [] => .blank 0
  | c :: rest =>
    if c.isDigit then number cs
    else if c = '"' then
      match stringRest rest with
      | some (s, n) => .token (.str (String.ofList s)) (n + 1)
      | none => .fault .malformedString
    else if isNameStart c then
      let name := cs.takeWhile isNamePart
      .token (.name (String.ofList name)) name.length
    else
      match Symbol.all.find? fun s => s.chars.isPrefixOf cs with
      | some s => .token (.symbol s) s.chars.length
      | none => .fault (.unexpectedCharacter c)

/-- What stands at the front of a text that is not empty. -/
def ofChars (cs : List Char) : Scan :=
  match cs with
  | '/' :: '/' :: rest =>
    match lineComment rest with
    | some n => .blank n
    | none => lexeme cs
  | '/' :: '*' :: rest =>
    match blockCommentEnd rest with
    | some n => .blank (n + 2)
    | none => .fault .unterminatedComment
  | c :: _ => if isBlank c then .blank 1 else lexeme cs
  | [] => .blank 0

end Scan

namespace TokenStream

/-- Puts a token in front. -/
def cons (t : Located) (ts : TokenStream) : TokenStream :=
  ⟨t :: ts.items, ts.stop⟩

/-- The tokens of a text at place `p`, of which the first `skip` characters are passed over. -/
def ofChars? (skip : Nat) (p : Position) : List Char → Except SourceFault TokenStream
  | [] => .ok ⟨[], p⟩
  | c :: cs =>
    match skip with
    | skip + 1 => ofChars? skip (p.next c) cs
    | 0 =>
      match Scan.ofChars (c :: cs) with
      | .blank n => ofChars? (n - 1) (p.next c) cs
      | .token t n => (ofChars? (n - 1) (p.next c) cs).map (cons ⟨t, p⟩)
      | .fault f => .error ⟨p, f⟩

/-- The tokens of a source text. -/
def ofString? (source : String) : Except SourceFault TokenStream :=
  ofChars? 0 .start source.toList

end TokenStream

end AspectProxy
