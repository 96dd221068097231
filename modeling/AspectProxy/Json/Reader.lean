import AspectProxy.Json.Number

/-!
Reading JSON text as a JSON value. Arrays and objects may nest up to a depth of 127.
-/

namespace AspectProxy.Json

namespace Read

def member (value : Read Json) : Read (String × Json) := do
  let name ← string .nameNotString
  spaces
  expect ':' .endInObject .noColon
  return (name, ← value)

/-- A value with blank space in front; an array or object holds values that `inner` reads. -/
def valueOver (inner : Option (Read Json)) : Read Json := do
  spaces
  match ← peek with
  | none => failNext .endInValue
  | some 'n' => literal "null"; return .null
  | some 't' => literal "true"; return .bool true
  | some 'f' => literal "false"; return .bool false
  | some '"' => return .str (← string .noValue)
  | some '[' =>
    match inner with
    | none => failNext .tooDeep
    | some value => return .arr (← bracketed value .array)
  | some '\x7b' =>
    match inner with
    | none => failNext .tooDeep
    | some value => return .obj (← bracketed (member value) .object)
  | some c => if c = '-' ∨ c.isDigit then number else failNext .noValue

/-- A value with at most `depth` nested arrays and objects. -/
def valueWithin : (depth : Nat) → Read Json
  | 0 => valueOver none
  | depth + 1 => valueOver (some (valueWithin depth))

end Read

/-- The value that a text holds. -/
def ofString? : String → Except TextFlaw Json :=
  Read.all (Read.valueWithin 127)

end AspectProxy.Json
