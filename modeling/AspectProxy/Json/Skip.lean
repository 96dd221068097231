import AspectProxy.Json.Number

/-!
Skipping JSON text that nobody asked for. Only its form counts: numbers may be of any size, surrogates may stand
alone, and arrays and objects may nest to any depth.
-/

namespace AspectProxy.Json.Read

def skipEscape : Read Unit := do
  match ← peek with
  | none => failNext .endInString
  | some 'u' =>
    skip
    let _ ← codeUnit
  | some c => if c ∈ ['"', '\\', '/', 'b', 'f', 'n', 'r', 't'] then skip else failNext .invalidEscape

/-- The rest of a string after its opening quote; the fuel bounds its characters. -/
def skipStringRest : Nat → Read Unit
  | 0 => failNext .endInString
  | fuel + 1 => do
    match ← peek with
    | none => failNext .endInString
    | some '"' => skip
    | some '\\' =>
      skip
      skipEscape
      skipStringRest fuel
    | some c =>
      if c.toNat < 0x20 then failHere .controlCharacter
      skip
      skipStringRest fuel

/-- A string, its opening quote not yet read. -/
def skipString : Read Unit := do
  skip
  skipStringRest ((← get).length + 1)

def skipNumber : Read Unit := do
  let _ ← numberText .invalidNumber

/-- The name of a member. -/
def skipName : Read Unit := do
  spaces
  match ← peek with
  | none => failNext .endInObject
  | some '"' => skipString
  | some _ => failNext .nameNotString

def skipMember (value : Read Unit) : Read Unit := do
  skipName
  spaces
  expect ':' .endInObject .noColon
  value

/-- Items between brackets, the opening bracket not yet read. -/
def skipItems (item : Read Unit) (b : Brackets) : Read Unit := do
  let _ ← bracketedBy (pure ()) item b

/-- A value, where `inner` skips what an array or object holds. -/
def skipOver (inner : Read Unit) : Read Unit := do
  spaces
  match ← peek with
  | none => failNext .endInValue
  | some 'n' => literal "null"
  | some 't' => literal "true"
  | some 'f' => literal "false"
  | some '"' => skipString
  | some '[' => skipItems inner .array
  | some '\x7b' => skipItems (skipMember inner) .object
  | some c => if c = '-' ∨ c.isDigit then skipNumber else failNext .noValue

/-- A value with fewer than `depth` nested arrays and objects. -/
def skipWithin : (depth : Nat) → Read Unit
  | 0 => failNext .endInValue
  | depth + 1 => skipOver (skipWithin depth)

/-- A value of any depth: each level takes a character of the text. -/
def skipValue : Read Unit := do
  skipWithin ((← get).length + 1)

end AspectProxy.Json.Read
