import AspectProxy.Proxy.Ancestry
import AspectProxy.Proxy.Hooks
import AspectProxy.Proxy.Identity
import AspectProxy.Tree.Equality

/-!
The unit of a proxy: one class that extends its base class, with a wrapper for each method to be wrapped and
with the hooks. A wrapper tells the hooks of the call and of its result, and calls the wrapped method between
them. A hook may take the place of a method of the base class only where the policy lets it.
-/

namespace AspectProxy

/-- What happens to a method that a hook would replace. -/
inductive Collision where
  | reject | hookWins
  deriving DecidableEq, Repr

/-- Which methods are wrapped, and how hooks and methods of one name get along. -/
structure Policy where
  wrapPrivate : Bool := false
  onCollision : Collision := .reject
  deriving DecidableEq, Repr

/-- A name with the fewest underscores behind it that make it none of the names taken. -/
def freshName (name : String) (taken : List String) : String :=
  within taken.length name
where
  /-- Adds at most `n` underscores. -/
  within : (n : Nat) → String → String
    | 0, name => name
    | n + 1, name => if name ∈ taken then within n (name ++ "_") else name

/-- The map that describes a call to the hooks: class, method and arguments. -/
def contextExpr (base : ClassName) (m : Method) (args : List Expr) : Expr :=
  .map [("class", .str base.text), ("method", .str m.name), ("args", .list args)]

/-- The method of a proxy that calls a method of its base class between the hooks. -/
def Method.wrapper (base : ClassName) (m : Method) : Method :=
  let names := m.parameters.map (·.name)
  let context := freshName "__ctx" names
  let result := freshName "__result" names
  let args := names.map Expr.var
  { m with
    body :=
      [.declare context none (contextExpr base m args),
       .expr (.call .self beforeHook [.var context]),
       .declare result none (.superCall m.name args),
       .return (some (.call .self afterHook [.var context, .var result]))] }

namespace Policy

/-- Whether a method gets a wrapper: not if it is static or final or makes objects, and a private one
only if the policy says so. -/
def wraps (p : Policy) (m : Method) : Bool :=
  !m.modifiers.isStatic && !m.modifiers.isFinal && !m.isConstructor &&
    (p.wrapPrivate || m.modifiers.visibility ≠ .owner)

/-- Whether a hook may stand where a method of the base class stood; the same method may always. -/
def settle (p : Policy) (m : Method) (owner : Option ClassName) (hook : Method) :
    Except WeavingProblem Unit :=
  let owner := owner.map (·.text)
  if hook == m then .ok ()
  else if m.modifiers.isFinal then .error (.finalMethod m.name owner)
  else
    match p.onCollision with
    | .reject => .error (.collision m.name owner)
    | .hookWins => .ok ()

/-- Those of some methods of a class that get a wrapper. -/
def wrapped (p : Policy) (hooks : HookSet) : List Method → Except WeavingProblem (List Method)
  | [] => .ok []
  | m :: rest =>
    match hooks.get? m.name with
    | some hook => do
      p.settle m none hook
      p.wrapped hooks rest
    | none => do
      let others ← p.wrapped hooks rest
      return if p.wraps m then m :: others else others

/-- Checks the inherited methods that hooks replace. Of several methods of a name the nearest counts, and
none of a name among `settled`. -/
def checkInherited (p : Policy) (hooks : HookSet) :
    (settled : List String) → List InheritedMethod → Except WeavingProblem Unit
  | _, [] => .ok ()
  | settled, i :: rest => do
    if i.method.name ∉ settled then
      match hooks.get? i.method.name with
      | some hook => p.settle i.method (some i.owner) hook
      | none => pure ()
    p.checkInherited hooks (i.method.name :: settled) rest

end Policy

/-- An outcome for a class, with its problem told of that class. -/
def forClass (c : ClassName) (r : Except WeavingProblem α) : Except ProxyError α :=
  r.mapError (.weaving c.text)

/-- The unit of the proxy of a class whose unit and inherited methods are given. -/
def weave (p : Policy) (hooks : HookSet) (i : Identity) (u : SourceUnit) (inherited : List InheritedMethod) :
    Except ProxyError SourceUnit := do
  let d ← u.proxyable i.base
  let wrapped ← forClass i.base (p.wrapped hooks d.methods)
  forClass i.base (p.checkInherited hooks (d.methods.map (·.name)) inherited)
  let wrappers := wrapped.map (Method.wrapper i.base)
  return { u with
    declarations := [.class
      { name := i.proxy.short
        isFinal := false
        parent := some i.base.text
        members := (wrappers ++ hooks.methods).map .method }] }

/-- Whether a class extends another by its full name. -/
def ClassDecl.extendsClass (d : ClassDecl) (c : ClassName) : Bool :=
  match d.parent.map ClassName.parse with
  | some (.ok parent) => parent == c
  | _ => false

/-- Fails with a defect unless a condition holds. -/
def require (c : ClassName) (holds : Bool) (defect : Defect) : Except ProxyError Unit :=
  if holds then .ok () else .error (.defective c.text defect)

/-- Checks that a unit is one class that extends the base class and declares every wrapped method and every
hook. -/
def checkProxy (p : Policy) (hooks : HookSet) (i : Identity) (u proxy : SourceUnit) : Except ProxyError Unit :=
  match proxy.declarations with
  | [.class d] => do
    require i.base (asciiLower d.name = asciiLower i.proxy.short) (.otherName d.name)
    require i.base (d.extendsClass i.base) (.otherParent d.parent)
    let base ← u.classNamed i.base
    let wrapped ← forClass i.base (p.wrapped hooks base.methods)
    wrapped.forM fun m => require i.base (d.method? m.name).isSome (.noWrapper m.name)
    hooks.names.forM fun h => require i.base (d.method? h).isSome (.noHook h)
  | _ => .error (.defective i.base.text .notOneClass)

end AspectProxy
