import AspectProxy.Heap
import AspectProxy.Json

/-!
Values and JSON. A value made from JSON holds no objects; the JSON of an object shows its class under
`__class` and its fields, down to a depth of 32 so that a cycle of objects ends.
-/

namespace AspectProxy.Value

/-- Whether an integer fits the integers of programs. -/
def fitsInt (n : Int) : Bool :=
  -9223372036854775808 ≤ n && n < 9223372036854775808

mutual

/-- The value of JSON whose objects are sorted by name. -/
def ofPlainJson : Json → Value
  | .null => .null
  | .bool b => .bool b
  | .int n => if fitsInt n then .int (Int64.ofInt n) else .float (Float.ofInt n)
  | .float x => .float x
  | .str s => .str s
  | .arr items => .list (ofPlainItems items)
  | .obj members => .map (ofPlainMembers members)

def ofPlainItems : List Json → List Value
  | [] => []
  | j :: js => ofPlainJson j :: ofPlainItems js

def ofPlainMembers : List (String × Json) → List (String × Value)
  | [] => []
  | (n, j) :: js => (n, ofPlainJson j) :: ofPlainMembers js

end

/-- The value of JSON: an integer that does not fit becomes a float, an object a map sorted by name. -/
def ofJson (j : Json) : Value :=
  ofPlainJson j.plain

/-- A float that is not finite has no JSON. -/
def floatJson (x : Float) : Json :=
  if x.isFinite then .float x else .null

def classMember (o : ObjectRef) : String × Json :=
  ("__class", .str o.type.name.text)

mutual

/-- JSON that shows objects without their fields. -/
def shallowJson : Value → Json
  | .null => .null
  | .bool b => .bool b
  | .int n => .int n.toInt
  | .float x => floatJson x
  | .str s => .str s
  | .list items => .arr (shallowItems items)
  | .map entries => .obj (Json.sortMembers (shallowEntries entries))
  | .object o => .obj [classMember o]

def shallowItems : List Value → List Json
  | [] => []
  | v :: vs => shallowJson v :: shallowItems vs

def shallowEntries : List (String × Value) → List (String × Json)
  | [] => []
  | (k, v) :: es => (k, shallowJson v) :: shallowEntries es

end

/-- JSON that shows the fields of objects on the first `levels` levels. -/
def jsonWithin (h : Heap) : (levels : Nat) → Value → Json
  | 0, v => shallowJson v
  | levels + 1, v =>
    match v with
    | .list items => .arr (items.map (jsonWithin h levels))
    | .map entries => .obj (Json.sortMembers (entries.map fun (k, v) => (k, jsonWithin h levels v)))
    | .object o =>
      .obj (Json.sortMembers (classMember o :: (h.fields o).map fun (k, v) => (k, jsonWithin h levels v)))
    | v => shallowJson v

/-- The levels on which objects show their fields. -/
def jsonDepth : Nat := 32

def toJson (h : Heap) (v : Value) : Json :=
  jsonWithin h jsonDepth v

end AspectProxy.Value
