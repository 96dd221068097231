import AspectProxy.Decimal
import AspectProxy.LoadedClass
import AspectProxy.Text.Quoted

/-!
Values of running programs. Lists and maps are values and an object is a reference to the heap; a map
keeps its entries in the order their keys were first set. `Value.same` is equality of values,
`Value.equal` lets an integer equal a float.
-/

namespace AspectProxy

/-- A reference to an object: its place on the heap and its class, which never changes. -/
structure ObjectRef where
  id : Nat
  type : LoadedClass

inductive Value where
  | null
  | bool (b : Bool)
  | int (n : Int64)
  | float (x : Float)
  | str (s : String)
  | list (items : List Value)
  | map (entries : List (String × Value))
  | object (o : ObjectRef)

instance : Inhabited Value := ⟨.null⟩

/-- Entries with a key set to a value: in place if the key is there, else at the end. -/
def setEntry (key : String) (value : α) : List (String × α) → List (String × α)
  | [] => [(key, value)]
  | (k, v) :: rest => if k = key then (key, value) :: rest else (k, v) :: setEntry key value rest

/-- The value of a key. -/
def getEntry (key : String) : List (String × α) → Option α
  | [] => none
  | (k, v) :: rest => if k = key then some v else getEntry key rest

/-- The entries of a sequence of settings: a repeated key keeps its first place and takes its last
value. -/
def entriesOf (settings : List (String × α)) : List (String × α) :=
  settings.foldl (fun entries (k, v) => setEntry k v entries) []

namespace Value

def typeName : Value → String
  | null => "null"
  | bool _ => "boolean"
  | int _ => "integer"
  | float _ => "float"
  | str _ => "string"
  | list _ => "list"
  | map _ => "map"
  | object _ => "object"

/-- Whether a value counts as true in a condition. -/
def truthy : Value → Bool
  | null => false
  | bool b => b
  | int n => n ≠ 0
  | float x => x != 0.0
  | str s => s ≠ ""
  | list items => !items.isEmpty
  | map entries => !entries.isEmpty
  | object _ => true

mutual

/-- Equality of values: the order of map entries does not count, floats are equal as numbers, and an
object equals only itself. -/
def same : Value → Value → Bool
  | null, null => true
  | bool a, bool b => a == b
  | int a, int b => a == b
  | float a, float b => a == b
  | str a, str b => a == b
  | list a, list b => sameItems a b
  | map a, map b => a.length == b.length && sameEntries a b
  | object a, object b => a.id == b.id
  | _, _ => false

def sameItems : List Value → List Value → Bool
  | [], [] => true
  | a :: as, b :: bs => same a b && sameItems as bs
  | _, _ => false

/-- Whether each entry has an equal one among others. -/
def sameEntries : List (String × Value) → List (String × Value) → Bool
  | [], _ => true
  | (k, a) :: as, bs =>
    (match getEntry k bs with
      | some b => same a b
      | none => false) && sameEntries as bs

end

/-- The float nearest to an integer. -/
def toFloat (n : Int64) : Float :=
  Float.ofInt n.toInt

/-- Equality in programs: an integer equals a float of the same value. -/
def equal : Value → Value → Bool
  | int a, float b => toFloat a == b
  | float a, int b => a == toFloat b
  | a, b => same a b

mutual

/-- The text of a value. -/
def text : Value → String
  | null => "null"
  | bool b => if b then "true" else "false"
  | int n => toString n.toInt
  | float x => FloatStyle.source.text x
  | str s => s
  | list items => "[" ++ ", ".intercalate (itemTexts items) ++ "]"
  | map entries => "\x7b" ++ ", ".intercalate (entryTexts entries) ++ "\x7d"
  | object o => "<" ++ o.type.name.text ++ ">"

def itemTexts : List Value → List String
  | [] => []
  | v :: vs => text v :: itemTexts vs

def entryTexts : List (String × Value) → List String
  | [] => []
  | (k, v) :: es => (visiblyQuoted k ++ ": " ++ text v) :: entryTexts es

end

end Value

end AspectProxy
