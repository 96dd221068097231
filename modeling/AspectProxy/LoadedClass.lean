import AspectProxy.Tree.Names

/-!
Classes that are defined. A loaded class is what its own declaration holds together with its
ancestors, nearest first, so its parent is a loaded class again and a method is found by looking down
the list.
-/

namespace AspectProxy

/-- What one declaration gives a class. -/
structure ClassBody where
  name : ClassName
  isFinal : Bool
  isTrait : Bool
  /-- The package and imports of its unit, which its class references depend on. -/
  scope : SourceUnit
  methods : List Method
  properties : List Property

def ClassBody.method? (b : ClassBody) (name : String) : Option Method :=
  b.methods.find? (·.name = name)

/-- A class and its ancestors, nearest first. -/
structure LoadedClass where
  own : ClassBody
  ancestors : List ClassBody

/-- The name of a class with the names of the methods it declares. -/
structure ClassHandle where
  name : ClassName
  methods : List String

namespace LoadedClass

def name (c : LoadedClass) : ClassName :=
  c.own.name

def parent? (c : LoadedClass) : Option LoadedClass :=
  match c.ancestors with
  | [] => none
  | b :: rest => some ⟨b, rest⟩

/-- The class under a parent. -/
def extending (own : ClassBody) : Option LoadedClass → LoadedClass
  | none => ⟨own, []⟩
  | some p => ⟨own, p.own :: p.ancestors⟩

/-- The class and all its ancestors, nearest first. -/
def chain (c : LoadedClass) : List ClassBody :=
  c.own :: c.ancestors

/-- The first class down a list that declares a method, and the method. -/
def findIn (name : String) : List ClassBody → Option (LoadedClass × Method)
  | [] => none
  | b :: rest =>
    match b.method? name with
    | some m => some (⟨b, rest⟩, m)
    | none => findIn name rest

/-- The nearest declaration of a method, with the class that declares it. -/
def findMethod (c : LoadedClass) (name : String) : Option (LoadedClass × Method) :=
  findIn name c.chain

/-- Every class down a list with the ancestors that follow it, the last class first. -/
def rootFirst : List ClassBody → List LoadedClass
  | [] => []
  | b :: rest => rootFirst rest ++ [⟨b, rest⟩]

/-- The class and its ancestors, the root first. -/
def lineage (c : LoadedClass) : List LoadedClass :=
  rootFirst c.chain

/-- Whether the class or one of its ancestors has a name. -/
def isSubclassOf (c : LoadedClass) (name : ClassName) : Bool :=
  c.chain.any fun b => b.name == name

def methodNames (c : LoadedClass) : List String :=
  c.own.methods.map (·.name)

def handle (c : LoadedClass) : ClassHandle :=
  ⟨c.name, c.methodNames⟩

end LoadedClass

end AspectProxy
