import AspectProxy.Json.Flaw

/-!
Reading from the front of JSON text: single characters, strings, and items between brackets. What every reader
of JSON text shares stands here, whatever it makes of the text.
-/

namespace AspectProxy.Json

/-- Reading from the front of a text. A failure says how many bytes are left behind its place. -/
abbrev Read := StateT (List Char) (Except (Flaw × Nat))

namespace Read

def byteCount (cs : List Char) : Nat :=
  cs.foldl (fun n c => n + c.utf8Size) 0

/-- A flaw of what was read, where `more` bytes that were not read belong to it. -/
def failBehind (more : Nat) (flaw : Flaw) : Read α :=
  fun cs => .error (flaw, byteCount cs - more)

/-- A flaw that was seen some bytes before what was read last. -/
def failBefore (bytes : Nat) (flaw : Flaw) : Read α :=
  fun cs => .error (flaw, byteCount cs + bytes)

/-- A flaw of what was read last. -/
def failHere (flaw : Flaw) : Read α :=
  failBehind 0 flaw

/-- A flaw of what stands next. -/
def failNext (flaw : Flaw) : Read α :=
  failBehind 1 flaw

def peek : Read (Option Char) :=
  fun cs => .ok (cs.head?, cs)

def skip : Read Unit :=
  fun cs => .ok ((), cs.tail)

def eat (c : Char) : Read Bool :=
  fun cs => if cs.head? = some c then .ok (true, cs.tail) else .ok (false, cs)

/-- Reads a character that has to stand next. -/
def expect (c : Char) (atEnd otherwise : Flaw) : Read Unit := do
  match ← peek with
  | none => failNext atEnd
  | some d => if d = c then skip else failNext otherwise

def literal (text : String) : Read Unit :=
  text.toList.forM fun c => expect c .endInValue .noLiteral

def isSpace (c : Char) : Bool :=
  c = ' ' || c = '\n' || c = '\t' || c = '\r'

def spaces : Read Unit :=
  fun cs => .ok ((), cs.dropWhile isSpace)

/-- The digits that stand next. -/
def digits : Read (List Char) :=
  fun cs => .ok (cs.takeWhile Char.isDigit, cs.dropWhile Char.isDigit)

def hexDigit (c : Char) : Option Nat :=
  if c.isDigit then some (c.toNat - '0'.toNat)
  else if 'a' ≤ c ∧ c ≤ 'f' then some (c.toNat - 'a'.toNat + 10)
  else if 'A' ≤ c ∧ c ≤ 'F' then some (c.toNat - 'A'.toNat + 10)
  else none

/-- The number that hexadecimal digits write. -/
def hexValue (cs : List Char) : Option Nat :=
  cs.foldlM (fun n c => (hexDigit c).map (n * 16 + ·)) 0

/-- Four hexadecimal digits. -/
def codeUnit : Read Nat := do
  let cs ← get
  let digits := cs.take 4
  if byteCount digits < 4 then failBehind 4 .endInString
  match hexValue digits with
  | some n =>
    set (cs.drop 4)
    return n
  | none => failBehind 4 .invalidEscape

/-- The second of two surrogates. -/
def lowSurrogate : Read Nat := do
  expect '\\' .endInString .halfPair
  expect 'u' .endInString .halfPair
  let low ← codeUnit
  if low < 0xDC00 ∨ 0xDFFF < low then failHere .loneSurrogate
  return low

/-- A code point from one code unit, or from a pair of surrogates; no surrogate may stand alone. -/
def codePoint : Read Char := do
  let high ← codeUnit
  if high < 0xD800 ∨ 0xDFFF < high then return Char.ofNat high
  else if 0xDC00 ≤ high then failHere .loneSurrogate
  else
    let low ← lowSurrogate
    return Char.ofNat (0x10000 + (high - 0xD800) * 0x400 + (low - 0xDC00))

def escaped : Read Char := do
  match ← peek with
  | some '"' => skip; return '"'
  | some '\\' => skip; return '\\'
  | some '/' => skip; return '/'
  | some 'b' => skip; return '\x08'
  | some 'f' => skip; return '\x0c'
  | some 'n' => skip; return '\n'
  | some 'r' => skip; return '\r'
  | some 't' => skip; return '\t'
  | some 'u' => skip; codePoint
  | some _ => failNext .invalidEscape
  | none => failNext .endInString

/-- The rest of a string after its opening quote; the fuel bounds its characters. -/
def stringRest : Nat → Read (List Char)
  | 0 => failNext .endInString
  | fuel + 1 => do
    match ← peek with
    | none => failNext .endInString
    | some '"' =>
      skip
      return []
    | some '\\' =>
      skip
      let c ← escaped
      return c :: (← stringRest fuel)
    | some c =>
      if c.toNat < 0x20 then failNext .controlCharacter
      skip
      return c :: (← stringRest fuel)

/-- A string, where `otherwise` is wrong with anything else. -/
def string (otherwise : Flaw) : Read String := do
  expect '"' .endInValue otherwise
  let cs ← stringRest ((← get).length + 1)
  return String.ofList cs

/-- What stands around items, and what is wrong where it does not close. -/
structure Brackets where
  close : Char
  atEnd : Flaw
  otherwise : Flaw

def Brackets.array : Brackets := ⟨']', .endInArray, .noArrayEnd⟩

def Brackets.object : Brackets := ⟨'\x7d', .endInObject, .noObjectEnd⟩

/-- Goes to the item behind a comma. -/
def itemStart (b : Brackets) : Read Unit := do
  spaces
  match ← peek with
  | none => failNext .endInValue
  | some c => if c = b.close then failNext .trailingComma

/-- Items up to a closing bracket, of which at least one follows; `behindComma` looks at what follows a
comma. -/
def items (behindComma : Read Unit) (item : Read α) (b : Brackets) : Nat → Read (List α)
  | 0 => failNext b.atEnd
  | fuel + 1 => do
    let x ← item
    spaces
    if ← eat ',' then
      behindComma
      return x :: (← items behindComma item b fuel)
    expect b.close b.atEnd b.otherwise
    return [x]

/-- Items between brackets with commas between them, the opening bracket not yet read. -/
def bracketedBy (behindComma : Read Unit) (item : Read α) (b : Brackets) : Read (List α) := do
  skip
  spaces
  if (← peek).isNone then failNext b.atEnd
  if ← eat b.close then return []
  items behindComma item b ((← get).length + 1)

/-- Items between brackets with commas between them, none behind the last. -/
def bracketed (item : Read α) (b : Brackets) : Read (List α) :=
  bracketedBy (itemStart b) item b

/-- Reads a whole text, with nothing but blank space behind what is read. -/
def all (read : Read α) (text : String) : Except TextFlaw α :=
  let document : Read α := do
    let x ← read
    spaces
    if (← peek).isSome then failNext .trailingText
    return x
  match document.run text.toList with
  | .ok (x, _) => .ok x
  | .error (flaw, left) => .error (.of text flaw left)

end Read

end AspectProxy.Json
