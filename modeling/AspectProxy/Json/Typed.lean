import AspectProxy.Json.Reader
import AspectProxy.Json.Skip

/-!
Reading JSON text as a value of a known shape. A record is an object with its fields in any order, each at most
once, or an array with them in their own order; fields that are missing keep their defaults, and members of the
object that are no fields are skipped. The first flaw of the text counts, whether of its form or of its shape.
-/

namespace AspectProxy.Json.Read

/-- What stands next, where something else is wanted. -/
def found : Read Found := do
  match ← peek with
  | some 'n' => literal "null"; return .null
  | some 't' => literal "true"; return .bool true
  | some 'f' => literal "false"; return .bool false
  | some '"' => return .text (← string .noValue)
  | some '[' => return .array
  | some '\x7b' => return .object
  | some c =>
    if c = '-' ∨ c.isDigit then
      match ← number with
      | .int n => return .integer n
      | .float x => return .float x
      | _ => failNext .noValue
    else failNext .noValue
  | none => failNext .noValue

/-- Refuses what stands next. -/
def refuse (wanted : String) : Read α := do
  let f ← found
  failHere (.wrongKind f wanted)

/-- Goes to the first character of a value. -/
def first : Read Char := do
  spaces
  match ← peek with
  | none => failNext .endInValue
  | some c => return c

def nothing : Read Unit := do
  if (← first) = 'n' then literal "null" else refuse "unit"

def flag : Read Bool := do
  match ← first with
  | 't' => literal "true"; return true
  | 'f' => literal "false"; return false
  | _ => refuse "a boolean"

def textOf (wanted : String) : Read String := do
  if (← first) = '"' then string .noValue else refuse wanted

def text : Read String :=
  textOf "a string"

def path : Read String :=
  textOf "path string"

/-- A number that counts something. -/
def count : Read Nat := do
  let c ← first
  if c = '-' ∨ c.isDigit then
    match ← found with
    | .integer n => if 0 ≤ n then return n.toNat else failHere (.wrongValue (.integer n) "usize")
    | f => failHere (.wrongKind f "usize")
  else refuse "usize"

/-- A value, or nothing where there is `null` or no text. -/
def optional (value : Read α) : Read (Option α) := do
  spaces
  if (← peek) = some 'n' then
    literal "null"
    return none
  else return some (← value)

def list (item : Read α) : Read (List α) := do
  if (← first) = '[' then bracketed item .array else refuse "a sequence"

/-- One of some names. -/
def nameIn (choices : List (String × α)) : Read α := do
  if (← first) = '"' then
    let name ← string .noValue
    match choices.find? fun (n, _) => n = name with
    | some (_, a) => return a
    | none => failHere (.unknownChoice name (choices.map (·.1)))
  else refuse "variant identifier"

/-- One of some named values, which may stand as the name of a member that has no value. -/
def choice (choices : List (String × α)) : Read α := do
  match ← first with
  | '"' => nameIn choices
  | '\x7b' =>
    skip
    let a ← nameIn choices
    spaces
    expect ':' .endInObject .noColon
    nothing
    spaces
    match ← peek with
    | some '\x7d' => skip; return a
    | some _ => failHere .noValue
    | none => failHere .endInObject
  | _ => failNext .noValue

/-- A field of a record: its name, and how to read it and put it into the record. -/
structure Field (ρ : Type) where
  name : String
  read : Read (ρ → ρ)

def Field.of (name : String) (read : Read α) (put : α → ρ → ρ) : Field ρ :=
  ⟨name, put <$> read⟩

/-- Goes to the next member of an object and reads its name; `none` at the end of the object. -/
def nextName (isFirst : Bool) : Read (Option String) := do
  spaces
  match ← peek with
  | none => failNext .endInObject
  | some '\x7d' =>
    skip
    return none
  | some ',' =>
    if isFirst then failNext .nameNotString
    skip
    itemStart .object
    return some (← string .nameNotString)
  | some _ =>
    if isFirst then return some (← string .nameNotString) else failNext .noObjectEnd

/-- A field that stands a second time is seen where its value would begin, or behind the object if it ends
there. -/
def repeated (name : String) : Read α := do
  spaces
  let _ ← eat '\x7d'
  failHere (.repeatedField name)

/-- The members of an object, the names in `seen` having stood before; the fuel bounds their number. -/
def members (fields : List (Field ρ)) : Nat → (seen : List String) → ρ → Read ρ
  | 0, _, _ => failNext .endInObject
  | fuel + 1, seen, r => do
    match ← nextName seen.isEmpty with
    | none => return r
    | some name =>
      let field? := fields.find? fun f => f.name = name
      if field?.isSome && name ∈ seen then repeated name
      spaces
      expect ':' .endInObject .noColon
      match field? with
      | none =>
        skipValue
        members fields fuel (name :: seen) r
      | some f =>
        let put ← f.read
        members fields fuel (name :: seen) (put r)

/-- Goes to the next item of an array; says whether there is one. -/
def nextItem (isFirst : Bool) : Read Bool := do
  spaces
  match ← peek with
  | none => failNext .endInArray
  | some ']' => return false
  | some ',' =>
    if isFirst then return true
    skip
    itemStart .array
    return true
  | some _ => if isFirst then return true else failNext .noArrayEnd

/-- The fields of a record in their order, as many as there are. -/
def inOrder (isFirst : Bool) : List (Field ρ) → ρ → Read ρ
  | [], r => return r
  | f :: rest, r => do
    if ← nextItem isFirst then
      let put ← f.read
      inOrder false rest (put r)
    else return r

/-- The end of an array that holds no more than was read. -/
def arrayEnd : Read Unit := do
  spaces
  match ← peek with
  | none => failNext .endInArray
  | some ']' => skip
  | some ',' =>
    skip
    spaces
    failNext (if (← peek) = some ']' then .trailingComma else .trailingText)
  | some _ => failNext .trailingText

/-- A record with some fields, which is `default` where they are missing. -/
def record (wanted : String) (fields : List (Field ρ)) (default : ρ) : Read ρ := do
  match ← first with
  | '\x7b' =>
    skip
    members fields ((← get).length + 1) [] default
  | '[' =>
    skip
    let r ← inOrder true fields default
    arrayEnd
    return r
  | _ => refuse wanted

end AspectProxy.Json.Read
