import AspectProxy.Decimal

/-!
JSON values. An object keeps its members as a list, so that order and repeated names can be told;
`Json.object` is the object a reader of plain data sees, sorted by name with the last value of a
repeated one.
-/

namespace AspectProxy

inductive Json where
  | null
  | bool (b : Bool)
  | int (n : Int)
  | float (x : Float)
  | str (s : String)
  | arr (items : List Json)
  | obj (members : List (String × Json))

instance : Inhabited Json := ⟨.null⟩

namespace Json

/-- Puts a member into a list sorted by name, in place of one of the same name. -/
def insertMember (name : String) (value : α) : List (String × α) → List (String × α)
  | [] => [(name, value)]
  | (n, v) :: rest =>
    if name < n then (name, value) :: (n, v) :: rest
    else if name = n then (name, value) :: rest
    else (n, v) :: insertMember name value rest

/-- Members sorted by name; of a repeated name the last value stays. -/
def sortMembers (members : List (String × α)) : List (String × α) :=
  members.foldl (fun sorted (n, v) => insertMember n v sorted) []

mutual

/-- The value with every object sorted by name and free of repeated names. -/
def plain : Json → Json
  | .arr items => .arr (plainItems items)
  | .obj members => .obj (sortMembers (plainMembers members))
  | j => j

def plainItems : List Json → List Json
  | [] => []
  | j :: js => plain j :: plainItems js

def plainMembers : List (String × Json) → List (String × Json)
  | [] => []
  | (n, j) :: js => (n, plain j) :: plainMembers js

end

/-- The last member of a name. -/
def member? (name : String) : Json → Option Json
  | .obj members => (members.reverse.find? (·.1 = name)).map (·.2)
  | _ => none

end Json

end AspectProxy
