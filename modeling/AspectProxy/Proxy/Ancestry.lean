import AspectProxy.Proxy.Error
import AspectProxy.Sources.UnitStore
import AspectProxy.Tree.Names

/-!
The ancestors of a class as its unit and their units declare them, nearest first. A walk goes from parent to
parent, each found in the unit of its own name, and ends at a class without a parent or at the first class it
meets again.
-/

namespace AspectProxy

structure Ancestor where
  name : ClassName
  declaration : ClassDecl

/-- A method that a class inherits, with the ancestor that declares it. -/
structure InheritedMethod where
  owner : ClassName
  method : Method

def Ancestor.inherited (a : Ancestor) : List InheritedMethod :=
  a.declaration.methods.map fun m => ⟨a.name, m⟩

/-- The methods of ancestors, nearest first. -/
def inheritedMethods (ancestors : List Ancestor) : List InheritedMethod :=
  ancestors.flatMap Ancestor.inherited

/-- The class of a name that a unit declares. -/
def SourceUnit.classNamed (u : SourceUnit) (c : ClassName) : Except ProxyError ClassDecl :=
  match u.declaration? c.short with
  | some (.class d) => .ok d
  | _ => .error (.notClass c.text)

/-- The class of a name, if it can be extended under that name. -/
def SourceUnit.proxyable (u : SourceUnit) (c : ClassName) : Except ProxyError ClassDecl := do
  let d ← u.classNamed c
  let declared := u.package.getD ""
  if d.isFinal then .error (.weaving c.text .finalClass)
  else if asciiLower declared ≠ asciiLower (c.package?.getD "") then
    .error (.weaving c.text (.otherPackage declared))
  else .ok d

/-- The full name of the parent of a class, for a walk that started at `origin`. -/
def SourceUnit.parentOf (u : SourceUnit) (origin : ClassName) (d : ClassDecl) :
    Except ProxyError (Option ClassName) :=
  match d.parent with
  | none => .ok none
  | some reference =>
    match ClassName.parse (u.resolve reference) with
    | .ok parent => .ok (some parent)
    | .error e => .error (.weaving origin.text (.invalidParent e))

/-- The ancestor of a name that a unit declares. -/
def SourceUnit.ancestor (u : SourceUnit) (origin name : ClassName) : Except ProxyError Ancestor :=
  match u.declaration? name.short with
  | some (.class d) => .ok ⟨name, d⟩
  | _ => .error (.weaving origin.text (.parentNotClass name.text))

section Walk

variable {M : Type → Type} [Monad M] (fetch : ClassName → ExceptT ProxyError M SourceUnit) (origin : ClassName)

/-- The ancestors from a parent on, when the classes of `seen` were met before; at most `steps` of them. -/
def ancestorsWithin : (steps : Nat) → (seen : List ClassName) → Option ClassName →
    ExceptT ProxyError M (List Ancestor)
  | _, _, none => return []
  | 0, _, some parent => throw (.weaving origin.text (.inheritanceCycle parent.text))
  | steps + 1, seen, some parent => do
    let u ← fetch parent
    if seen.any (· == parent) then throw (.weaving origin.text (.inheritanceCycle parent.text))
    let a ← liftExcept (u.ancestor origin parent)
    let next ← liftExcept (u.parentOf origin a.declaration)
    return a :: (← ancestorsWithin steps (parent :: seen) next)
where
  liftExcept {α : Type} (r : Except ProxyError α) : ExceptT ProxyError M α :=
    ExceptT.mk (pure r)

/-- The ancestors of a class that its unit declares. -/
def ancestorsOf (steps : Nat) (u : SourceUnit) : ExceptT ProxyError M (List Ancestor) := do
  let d ← ancestorsWithin.liftExcept (u.proxyable origin)
  let parent ← ancestorsWithin.liftExcept (u.parentOf origin d)
  ancestorsWithin fetch origin steps [origin] parent

end Walk

/-- More than the classes that a store can have units for. -/
def UnitStore.bound (s : UnitStore) : Nat :=
  s.places.size + s.size + 2

end AspectProxy
