import AspectProxy.Advice
import AspectProxy.Heap
import AspectProxy.Sources.UnitStore

/-!
The state of a running program: the classes that are defined, the objects, where further classes can
be loaded from, the advice, and the lines written. A class is found by its name whatever the case, and
is never replaced.
-/

namespace AspectProxy

structure Machine where
  /-- In the order they were defined. -/
  classes : List LoadedClass := []
  heap : Heap := {}
  /-- Where classes that are not defined are loaded from. -/
  units : Option UnitStore := none
  /-- The classes whose units are being loaded. -/
  loading : List ClassName := []
  advice : AdviceTable := {}
  output : Array String := #[]
  /-- How deeply method calls may nest. -/
  maxDepth : Nat := 256

namespace Machine

def class? (m : Machine) (name : ClassName) : Option LoadedClass :=
  m.classes.find? fun c => c.name == name

def isDefined (m : Machine) (name : ClassName) : Bool :=
  (m.class? name).isSome

/-- Puts a class into the table. -/
def addClass (m : Machine) (c : LoadedClass) : Machine :=
  { m with classes := m.classes ++ [c] }

/-- Names put in the order of their keys. -/
def insertByKey (c : ClassName) : List ClassName → List ClassName
  | [] => [c]
  | d :: rest => if c.key < d.key then c :: d :: rest else d :: insertByKey c rest

/-- The names of all classes, in the order of their keys. -/
def classNames (m : Machine) : List ClassName :=
  m.classes.foldl (fun names c => insertByKey c.name names) []

/-- The lines written since they were last taken. -/
def takeOutput (m : Machine) : List String × Machine :=
  (m.output.toList, { m with output := #[] })

def write (m : Machine) (line : String) : Machine :=
  { m with output := m.output.push line }

end Machine

end AspectProxy
