import AspectProxy.Proxy.Weaving

/-!
Making the units of proxies. A workshop keeps the units it has parsed and, once they are found, the hooks of
its aspect, and makes every later proxy from the same; what fails leaves no hooks behind.
-/

namespace AspectProxy

structure Workshop where
  units : UnitStore
  aspect : ClassName
  policy : Policy := {}
  /-- The hooks of the aspect once they are found. -/
  hooks : Option HookSet := none

/-- Steps of making a proxy that change the workshop and may fail. -/
abbrev Work := ExceptT ProxyError (StateM Workshop)

/-- How the unit of a class is got from a store. -/
abbrev UnitAccess := UnitStore → ClassName → Except UnitError SourceUnit × UnitStore

namespace Workshop

/-- The unit of a class. -/
def fetch (access : UnitAccess) (c : ClassName) : Work SourceUnit :=
  fun w =>
    match access w.units c with
    | (r, units) => (r.mapError .noUnit, { w with units })

/-- The hooks that the unit of the aspect declares. -/
def findHooks (w : Workshop) : Except HookProblem HookSet × UnitStore :=
  match w.units.get w.aspect with
  | (.error e, units) => (.error (.noUnit e), units)
  | (.ok u, units) => (HookSet.ofUnit w.aspect u, units)

/-- The hooks of the aspect, which are looked for until they are found. -/
def hookSet : Work HookSet :=
  fun w =>
    match w.hooks with
    | some hooks => (.ok hooks, w)
    | none =>
      match w.findHooks with
      | (.error problem, units) => (.error (.noHooks w.aspect.text problem), { w with units })
      | (.ok hooks, units) => (.ok hooks, { w with units, hooks := some hooks })

def ofExcept (r : Except ProxyError α) : Work α :=
  fun w => (r, w)

/-- The ancestors of a class that a unit declares. -/
def ancestors (access : UnitAccess) (c : ClassName) (u : SourceUnit) : Work (List Ancestor) := do
  let w ← get
  ancestorsOf (fetch access) c w.units.bound u

/-- The unit of a proxy, checked. -/
def proxyUnit (access : UnitAccess) (i : Identity) : Work SourceUnit := do
  let u ← fetch access i.base
  let ancestors ← ancestors access i.base u
  let hooks ← hookSet
  let policy := (← get).policy
  let proxy ← ofExcept (weave policy hooks i u (inheritedMethods ancestors))
  ofExcept (checkProxy policy hooks i u proxy)
  return proxy

end Workshop

end AspectProxy
