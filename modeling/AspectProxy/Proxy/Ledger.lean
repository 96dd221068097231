import AspectProxy.LoadedClass
import AspectProxy.Machine.Error
import AspectProxy.Proxy.Identity

/-!
The ledger of proxies: one entry for each, the oldest first. Entries are never changed, and no two are for
one name.
-/

namespace AspectProxy

/-- One proxy that was activated. -/
structure ProxyRecord where
  identity : Identity
  handle : ClassHandle

def ProxyRecord.proxy (r : ProxyRecord) : ClassName :=
  r.identity.proxy

def ProxyRecord.base (r : ProxyRecord) : ClassName :=
  r.identity.base

structure Ledger where
  records : List ProxyRecord := []

namespace Ledger

def get? (l : Ledger) (proxy : ClassName) : Option ProxyRecord :=
  l.records.find? fun r => r.proxy == proxy

def contains (l : Ledger) (proxy : ClassName) : Bool :=
  (l.get? proxy).isSome

/-- The ledger with one more entry, unless the name has one. -/
def record (l : Ledger) (r : ProxyRecord) : Except DefinitionError Ledger :=
  if l.contains r.proxy then .error (.duplicate r.proxy.text)
  else .ok ⟨l.records ++ [r]⟩

/-- The class that a proxy was made of. -/
def origin? (l : Ledger) (proxy : ClassName) : Option ClassName :=
  (l.get? proxy).map (·.base)

/-- The proxies of a class, the oldest first. -/
def proxiesOf (l : Ledger) (base : ClassName) : List ClassName :=
  (l.records.filter fun r => r.base == base).map (·.proxy)

def size (l : Ledger) : Nat :=
  l.records.length

end Ledger

end AspectProxy
